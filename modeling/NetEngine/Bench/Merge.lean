import NetEngine.Bench.Report

/-! `merge.py`: dumps are parsed, their histograms added bucket by bucket, and
the verdict is taken on the sums. `none` is an exit with an error message. -/

set_option autoImplicit false

namespace NetEngine.Bench

/-- `collections.Counter` over bucket numbers; `keys` in insertion order. -/
structure Counter where
  keys : List Nat
  count : Nat → Nat

namespace Counter

def empty : Counter := ⟨[], fun _ => 0⟩

def add (counts : Counter) (b n : Nat) : Counter where
  keys := if b ∈ counts.keys then counts.keys else counts.keys ++ [b]
  count := fun key => if key = b then counts.count key + n else counts.count key

def update (counts other : Counter) : Counter :=
  other.keys.foldl (fun counts b => counts.add b (other.count b)) counts

def sorted (counts : Counter) : List Nat := counts.keys.mergeSort (· ≤ ·)

end Counter

structure Hist where
  counts : Counter
  total : Nat
  overflow : Nat
  minNs : Option Nat
  maxNs : Nat
  bucketNs : Nat

namespace Hist

def empty : Hist := ⟨.empty, 0, 0, none, 0, 1000⟩

def merge (h : Hist) (counts : Counter) (total overflow minNs maxNs bucketNs : Nat) :
    Option Hist :=
  if h.total ≠ 0 ∧ bucketNs ≠ h.bucketNs then none
  else some {
    counts := h.counts.update counts
    total := h.total + total
    overflow := h.overflow + overflow
    maxNs := max h.maxNs maxNs
    minNs := if total = 0 then h.minNs else some (match h.minNs with
      | none => minNs
      | some low => min low minNs)
    bucketNs }

/-- The loop of `pct` over the occupied buckets. -/
def scan (counts : Counter) (want : Rat) : List Nat → Nat → Option Nat
  | [], _ => none
  | b :: rest, seen =>
      let seen := seen + counts.count b
      if want ≤ seen then some b else scan counts want rest seen

def pct (h : Hist) (p : Rat) : Nat × Bool :=
  if h.total = 0 then (0, false)
  else Histogram.reading h.bucketNs (h.counts.keys.foldl max 0 * h.bucketNs)
    (scan h.counts (p * h.total) h.counts.sorted 0)

end Hist

structure Merged where
  lat : Hist
  lag : Hist
  sum : SumKey → Int
  first : FirstKey → Option Rat
  nodes : List Nat
  constants : Option (Nat × Nat)

/-- The `hist` block being read. -/
structure Block where
  label : Label
  counts : Counter
  total : Nat
  overflow : Nat
  minNs : Nat
  maxNs : Nat
  bucketNs : Nat

namespace Merged

def empty : Merged := ⟨.empty, .empty, fun _ => 0, fun _ => none, [], none⟩

def take (merged : Merged) (block : Block) : Option Merged :=
  match block.label with
  | .latency =>
      (merged.lat.merge block.counts block.total block.overflow block.minNs block.maxNs
        block.bucketNs).map fun lat => { merged with lat }
  | .selfLag =>
      (merged.lag.merge block.counts block.total block.overflow block.minNs block.maxNs
        block.bucketNs).map fun lag => { merged with lag }

/-- The lines after the header. A block that the file cuts short still counts. -/
def body (merged : Merged) : Option Block → List Line → Option Merged
  | none, [] => some merged
  | some block, [] => merged.take block
  | some block, .close :: lines => (merged.take block).bind fun merged => body merged none lines
  | some block, .bucket b count :: lines =>
      body merged (some { block with counts := block.counts.add b count }) lines
  | some _, _ :: _ => none
  | none, .hist label total overflow minNs maxNs bucketNs :: lines =>
      body merged (some ⟨label, .empty, total, overflow, minNs, maxNs, bucketNs⟩) lines
  | none, .sum key value :: lines =>
      body { merged with
        sum := fun other => if other = key then merged.sum key + value else merged.sum other }
        none lines
  | none, .first key value :: lines =>
      body { merged with
        first := fun other =>
          if other = key then some ((merged.first key).getD value) else merged.first other }
        none lines
  | none, .node id :: lines => body { merged with nodes := merged.nodes ++ [id] } none lines
  | none, _ :: lines => body merged none lines

def parse (merged : Merged) : List Line → Option Merged
  | .header version lagFloor lagRatio :: lines =>
      if version ≠ 1 then none
      else if merged.constants.getD (lagFloor, lagRatio) ≠ (lagFloor, lagRatio) then none
      else body { merged with constants := some (lagFloor, lagRatio) } none lines
  | _ => none

def parseAll (dumps : List (List Line)) : Option Merged :=
  dumps.foldlM parse empty

def verdict (merged : Merged) : Option Verdict :=
  merged.constants.map fun constants =>
    let sent := merged.sum .sent
    let want := (merged.first .perRoom).getD 0
    let fanout : Rat := merged.sum .framesIn / sent
    let lost := merged.sum .lostConns
    let total := merged.sum .conns
    let lat99 := merged.lat.pct (99 / 100)
    let lag99 := merged.lag.pct (99 / 100)
    if (sent ≠ 0 ∧ want ≠ 0) ∧
        ¬ (want * (95 / 100) ≤ fanout ∧ fanout ≤ want * (105 / 100)) then .void
    else if total ≠ 0 ∧ (5 / 1000 : Rat) * total < lost then .void
    else if merged.lat.total = 0 then .void
    else if lat99.2 then .void
    else if lat99.1 < lag99.1 * constants.2 ∧ (constants.1 ≤ lag99.1 ∨ lag99.2) then .void
    else if lat99.1 < lag99.1 * constants.2 then .warn
    else .ok

end Merged

/-- The verdict of `merge.py` on a list of dumps. -/
def mergeVerdict (dumps : List (List Line)) : Option Verdict :=
  (Merged.parseAll dumps).bind Merged.verdict

end NetEngine.Bench
