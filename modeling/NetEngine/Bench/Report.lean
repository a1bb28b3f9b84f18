import NetEngine.Bench.Traffic

/-! `report` and `dump_stats`: the verdict of one process, and the dump that
`merge.py` reads. A dump is a list of lines, each with its numbers read. Ratios
of counters are exact rationals here. -/

set_option autoImplicit false

namespace NetEngine.Bench

inductive Verdict where
  | ok
  | warn
  | void
  deriving DecidableEq

/-- `main` and `merge.py` turn the verdict into the same exit status. -/
def Verdict.exitStatus : Verdict → Nat
  | .void => 3
  | _ => 0

def lagFloorNs : Nat := 1000000

def lagRatio : Nat := 5

def fanout (st : Stats) : Rat := st.framesIn / st.sent

def fanoutBad (cfg : Config) (st : Stats) : Bool :=
  st.sent ≠ 0 ∧ ((cfg.perRoom : Rat) * (105 / 100) < fanout st ∨
    fanout st < (cfg.perRoom : Rat) * (95 / 100))

/-- The verdict of `report`; `none` when there was no traffic to judge. -/
def report (cfg : Config) (st : Stats) : Option Verdict :=
  if cfg.rate ≤ 0 ∨ cfg.duration ≤ 0 then none
  else
    let lat99 := st.latency.pct (99 / 100)
    let lag99 := st.selfLag.pct (99 / 100)
    some <|
      if fanoutBad cfg st then .void
      else if 0 < cfg.conns ∧ ⌊(5 / 1000 : Rat) * cfg.conns⌋ < st.lostConns then .void
      else if st.latency.total = 0 then .void
      else if lat99.2 then .void
      else if lat99.1 < lag99.1 * lagRatio ∧ lagFloorNs ≤ lag99.1 then .void
      else if lat99.1 < lag99.1 * lagRatio then .warn
      else .ok

/-! ## Dump -/

inductive Label where
  | latency
  | selfLag
  deriving DecidableEq

/-- The keys that `merge.py` adds up over the dumps. -/
inductive SumKey where
  | sent
  | framesIn
  | bytesIn
  | unparsed
  | foreign
  | backpressed
  | lostConns
  | conns
  deriving DecidableEq

/-- The keys of which `merge.py` keeps the first value. -/
inductive FirstKey where
  | rate
  | duration
  | perRoom
  deriving DecidableEq

inductive Line where
  | header (version lagFloor lagRatio : Nat)
  | node (id : Nat)
  | sum (key : SumKey) (value : Int)
  | first (key : FirstKey) (value : Rat)
  | hist (label : Label) (total overflow min max bucketNs : Nat)
  | bucket (b count : Nat)
  | close

def dumpHistogram (label : Label) (h : Histogram) : List Line :=
  .hist label h.total h.overflow (if h.total = 0 then 0 else h.min) h.max Histogram.bucketNs ::
    h.occupied.map (fun b => .bucket b (h.counts b)) ++ [.close]

/-- `%.6f`. -/
def sixDigits (value : Rat) : Rat := ⌊value * 1000000 + 1 / 2⌋ / 1000000

/-- The format line, with the verdict constants, and the scalar lines. -/
def dumpScalars (cfg : Config) (st : Stats) : List Line :=
  [.header 1 lagFloorNs lagRatio, .node cfg.node.toNat, .sum .conns cfg.conns,
    .first .perRoom cfg.perRoom, .first .rate (sixDigits cfg.rate), .first .duration cfg.duration,
    .sum .sent st.sent, .sum .framesIn st.framesIn, .sum .bytesIn st.bytesIn,
    .sum .unparsed st.samplesBad, .sum .foreign st.foreign, .sum .backpressed st.backpressed,
    .sum .lostConns st.lostConns]

def dumpStats (cfg : Config) (st : Stats) : List Line :=
  dumpScalars cfg st ++ dumpHistogram .latency st.latency ++ dumpHistogram .selfLag st.selfLag

end NetEngine.Bench
