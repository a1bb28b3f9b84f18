import NetEngine.Bench.Traffic
import NetEngine.Library.Machine

/-! The receiving half of one connection of the client: each call of `read_available`
from the loops of `run_traffic`, with the `consume_frames` that follows it. -/

set_option autoImplicit false

namespace NetEngine.Bench

open Socket

/-- A complete frame, header and payload, that the receive slot can hold. -/
structure WireFrame (proto : Proto) where
  bytes : Bytes
  long : headerSize ≤ bytes.length
  whole : payloadLen proto (LittleEndian.read bytes) = some (bytes.length - headerSize)
  small : bytes.length ≤ rxCap

namespace WireFrame

variable {proto : Proto}

def handle (recvTs : Int) (node : UInt32) (stats : Stats) (frame : WireFrame proto) : Stats :=
  handleFrame proto recvTs node stats (LittleEndian.read (frame.bytes.drop 2))
    (frame.bytes.drop headerSize)

/-- The bytes of some frames, one after another. -/
def stream (frames : List (WireFrame proto)) : Bytes := frames.flatMap bytes

end WireFrame

/-- One call: what `recv` answers, which loop made it, the clock before
`consume_frames`, and the counters as the other sockets left them. -/
structure ReadCall where
  recvs : List (RecvAnswer UInt8)
  drain : Bool
  stamp : Int
  stats : Stats

/-- The counters around one `consume_frames`. -/
structure Handled where
  stamp : Int
  before : Stats
  after : Stats

/-- `c.rx`. The other fields are what an observer of the calls knows: the bytes that
came in, the calls of `consume_frames`, and the answers and the slot of the call that
declared the connection dead. -/
structure Reader where
  rx : Bytes := []
  received : Bytes := []
  log : List Handled := []
  dead : Option (List (RecvAnswer UInt8) × Bytes) := none

namespace Reader

/-- The drain loop does not parse what a dead socket left. -/
def call (proto : Proto) (node : UInt32) (reader : Reader) (call : ReadCall) : Reader :=
  if reader.dead ≠ none then reader
  else
    let (slot, bytesIn, usable) := readAvailable reader.rx call.stats.bytesIn call.recvs
    let stats := { call.stats with bytesIn }
    let received := reader.received ++ slot.drop reader.rx.length
    let dead := if usable then none else some (call.recvs, slot)
    if call.drain ∧ ¬ usable then { reader with rx := slot, received, dead }
    else
      let (rx, after) := consumeFrames proto call.stamp node slot.length stats slot
      { rx, received, log := reader.log ++ [⟨call.stamp, stats, after⟩], dead }

def run (proto : Proto) (node : UInt32) (calls : List ReadCall) : Reader :=
  Machine.run (call proto node) {} calls

/-- `recv` ended the call with an end of the stream or a hard error. -/
def reported : List (RecvAnswer UInt8) → Bool
  | .interrupted :: answers => reported answers
  | .eof :: _ => true
  | .failed :: _ => true
  | .data [] :: _ => true
  | _ => false

/-- `recv` ended the call with all the bytes that there was room for. -/
def fills (held : Nat) : List (RecvAnswer UInt8) → Bool
  | .interrupted :: answers => fills held answers
  | .data bytes :: _ => rxCap - held ≤ bytes.length
  | _ => false

/-- No frame stands complete at the front of the slot. -/
def Incomplete (proto : Proto) (slot : Bytes) : Prop :=
  headerSize ≤ slot.length →
    ∃ len, payloadLen proto (LittleEndian.read slot) = some len ∧ slot.length < headerSize + len

/-- A connection is declared dead for a reason, and what came in was parsed in order,
nothing skipped and nothing twice. -/
structure Healthy (proto : Proto) (node : UInt32) (frames : List (WireFrame proto))
    (reader : Reader) : Prop where
  excused : ∀ recvs slot, reader.dead = some (recvs, slot) →
    reported recvs = true ∨ (slot.length = rxCap ∧ Incomplete proto slot)
  parsed : ∃ turns : List (List (WireFrame proto)), turns.flatten <+: frames ∧
    List.Forall₂ (fun entry turn =>
      entry.after = turn.foldl (WireFrame.handle entry.stamp node) entry.before)
      reader.log turns ∧
    reader.received = WireFrame.stream turns.flatten ++ reader.rx ∧
    (reader.dead = none → Incomplete proto reader.rx)

/-- No call of a run that finds the connection alive is given a full slot. -/
def NeverFilled (proto : Proto) (node : UInt32) : Reader → List ReadCall → Prop
  | _, [] => True
  | reader, next :: calls =>
      (reader.dead = none → fills reader.rx.length next.recvs = false) ∧
        NeverFilled proto node (reader.call proto node next) calls

end Reader

end NetEngine.Bench
