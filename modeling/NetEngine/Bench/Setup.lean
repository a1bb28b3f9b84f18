import NetEngine.Bench.Traffic
import NetEngine.Epoll.Protocol
import NetEngine.Library.Decimal

/-! What a run of the load generator is set up with: the options, the lines of the
corpus, and the names under which its connections enter the server. -/

set_option autoImplicit false

namespace NetEngine.Bench

/-- `config`, less what only `main` and `start_connect` read. -/
structure Settings where
  conns : Int := 10000
  perRoom : Int := 10
  srcIps : Int := 1
  srcIpBase : Int := 1
  inflight : Int := 256
  rate : Rat := 1
  duration : Int := 10
  size : Int := 64
  sizeMix : Bool := false
  node : UInt32 := 0
  useCorpus : Bool := false
  corpusSeed : UInt32 := 1
  serverPid : Int := 0

/-- One option with its value as `atoi` or `atof` reads it. -/
inductive Arg where
  | conns (n : Int32)
  | perRoom (n : Int32)
  | srcIps (n : Int32)
  | srcIpBase (n : Int32)
  | inflight (n : Int32)
  | rate (r : Rat)
  | duration (n : Int32)
  | size (n : Int32)
  | sizeMix
  | node (n : Int32)
  | corpus
  | corpusSeed (n : Int32)
  | serverPid (n : Int32)
  /-- `--host`, `--port`, `--proto`, `--dump`, `--rcvbuf` or `--sndbuf`. -/
  | other
  /-- An unknown option, or one without its value. -/
  | bad

namespace Settings

def take (cfg : Settings) : Arg → Option Settings
  | .conns n => some { cfg with conns := n.toInt }
  | .perRoom n => some { cfg with perRoom := n.toInt }
  | .srcIps n => some { cfg with srcIps := n.toInt }
  | .srcIpBase n => some { cfg with srcIpBase := n.toInt }
  | .inflight n => some { cfg with inflight := n.toInt }
  | .rate r => some { cfg with rate := r }
  | .duration n => some { cfg with duration := n.toInt }
  | .size n => some { cfg with size := n.toInt }
  | .sizeMix => some { cfg with sizeMix := true }
  | .node n => if n.toInt < 0 then none else some { cfg with node := .ofNat n.toInt.toNat }
  | .corpus => some { cfg with useCorpus := true }
  | .corpusSeed n =>
      if n.toInt < 0 then none else some { cfg with corpusSeed := .ofNat n.toInt.toNat }
  | .serverPid n => some { cfg with serverPid := n.toInt }
  | .other => some cfg
  | .bad => none

/-- The end of `parse_args`: the checks, and the clamp of `--size`. -/
def check (cfg : Settings) : Option Settings :=
  if cfg.conns ≤ 0 ∨ cfg.perRoom ≤ 0 ∨ cfg.srcIps ≤ 0 ∨ cfg.inflight ≤ 0 then none
  else if cfg.srcIpBase < 1 ∨ 255 < cfg.srcIpBase + cfg.srcIps - 1 then none
  else if cfg.serverPid < 0 then none
  else if cfg.rate < 0 ∨ cfg.duration < 0 then none
  else
    let size := if cfg.size < 0 then 0 else cfg.size
    some { cfg with
      size := if (maxBlob : Int) < size + blobHeader then maxBlob - blobHeader else size }

end Settings

def parseArgs (args : List Arg) : Option Settings := (args.foldlM Settings.take {}).bind Settings.check

/-- `corpus::build` cuts a line that is too long back to the start of a character. -/
def cutBack (line : Bytes) : Nat → Nat
  | 0 => 0
  | cut + 1 => if line.getD (cut + 1) 0 &&& 0xC0 = 0x80 then cutBack line cut else cut + 1

def fitLine (most : Nat) (line : Bytes) : Bytes :=
  if most < line.length then line.take (cutBack line most) else line

/-- What `run_traffic` works with, whatever lines the seed draws from the pool. -/
def Settings.config (cfg : Settings) (drawn : List Bytes) : Config where
  conns := cfg.conns
  perRoom := cfg.perRoom
  rate := cfg.rate
  duration := cfg.duration
  size := cfg.size.toNat
  sizeMix := cfg.sizeMix
  node := cfg.node
  useCorpus := cfg.useCorpus
  lines := drawn.map (fitLine (maxBlob - blobHeader))

def tag (node : UInt32) : Bytes := Epoll.ascii "n" ++ Decimal.print node.toNat

/-- The name that `run_connect` sets for the connection of an index. -/
def nickOf (node : UInt32) (index : Int) : Bytes :=
  tag node ++ Epoll.ascii "c" ++ Decimal.print index.toNat

end NetEngine.Bench
