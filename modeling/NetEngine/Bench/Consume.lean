import NetEngine.Bench.Traffic
import NetEngine.Library.Framing
import NetEngine.Library.Memory

/-! `consume_frames` in place: offsets into the receive slot, where the list
model of `Traffic` has the buffered bytes. `reads` is the only field that the
program does not have: the ranges of the slot that were looked at. -/

set_option autoImplicit false

namespace NetEngine.Bench

/-- `c.rx` and `c.rx_len`. -/
structure Slot where
  rx : Memory.Ram
  rxLen : Nat

/-- The three counters, and the timestamps that `lat` was given. -/
structure Tally where
  framesIn : Nat := 0
  samplesBad : Nat := 0
  foreign : Nat := 0
  intended : List Int := []
  deriving DecidableEq

structure Scan where
  tally : Tally
  reads : List (Nat × Nat)

namespace Slot

def empty : Slot := ⟨fun _ => 0, 0⟩

/-- The bytes of a range of the slot. -/
def range (rx : Memory.Ram) (start count : Nat) : Bytes := (List.range count).map fun i => rx (start + i)

def buffered (slot : Slot) : Bytes := range slot.rx 0 slot.rxLen

/-- `recv` behind `rx_len`. -/
def append (slot : Slot) (piece : Bytes) : Slot :=
  { rx := fun i =>
      if slot.rxLen ≤ i ∧ i < slot.rxLen + piece.length then piece.getD (i - slot.rxLen) 0
      else slot.rx i
    rxLen := slot.rxLen + piece.length }

end Slot

namespace Scan

def look (scan : Scan) (start count : Nat) : Scan :=
  { scan with reads := scan.reads ++ [(start, count)] }

def bad (scan : Scan) : Scan :=
  { scan with tally := { scan.tally with samplesBad := scan.tally.samplesBad + 1 } }

def frame (scan : Scan) : Scan :=
  { scan with tally := { scan.tally with framesIn := scan.tally.framesIn + 1 } }

def other (scan : Scan) : Scan :=
  { scan with tally := { scan.tally with foreign := scan.tally.foreign + 1 } }

def stamp (scan : Scan) (intended : Int) : Scan :=
  { scan with tally := { scan.tally with intended := scan.tally.intended ++ [intended] } }

/-- The lambda `sample`; `memchr` may look at all the bytes it is given. -/
def sample (rx : Memory.Ram) (node : UInt32) (p n : Nat) (scan : Scan) : Scan :=
  if n < blobHeader then scan.bad
  else
    let scan := scan.look p n
    match (Slot.range rx p n).findIdx? (· == 58) with
    | none => scan.bad
    | some i =>
        let sep := p + i
        if p + n < sep + 2 then scan.bad
        else
          let blob := sep + 2
          let blobLen := p + n - blob
          if blobLen < blobHeader then scan.bad
          else
            let scan := scan.look (blob + 12) 4
            if Memory.read 4 rx (blob + 12) ≠ node.toNat then scan.other
            else (scan.look blob 8).stamp (signed64 (Memory.read 8 rx blob))

/-- The loop over the entries of a tick frame. -/
def entries (rx : Memory.Ram) (node : UInt32) (payload len pos : Nat) (scan : Scan) : Scan :=
  if 2 ≤ len - pos then
    let elen := Memory.read 2 rx (payload + pos)
    let scan := scan.look (payload + pos) 2
    let pos := pos + 2
    if len - pos < elen then scan.bad
    else entries rx node payload len (pos + elen) (scan.frame.sample rx node (payload + pos) elen)
  else scan
termination_by len - pos
decreasing_by omega

/-- What a turn of the outer loop does with a complete frame. -/
def handle (proto : Proto) (rx : Memory.Ram) (node : UInt32) (type : UInt16) (payload len : Nat)
    (scan : Scan) : Scan :=
  if type = proto.idTickOut then scan.entries rx node payload len 0
  else
    let scan := scan.frame
    if type ≠ proto.idChatOut ∨ len < blobHeader then scan
    else scan.sample rx node payload len

end Scan

namespace Slot

/-- The outer loop: the final offset, or `none` for the early return. -/
def frames (proto : Proto) (node : UInt32) (slot : Slot) (off : Nat) (scan : Scan) :
    Option Nat × Scan :=
  if headerSize ≤ slot.rxLen - off then
    let raw := UInt16.ofNat (Memory.read 2 slot.rx off)
    let type := UInt16.ofNat (Memory.read 2 slot.rx (off + 2))
    let scan := (scan.look off 2).look (off + 2) 2
    match payloadLen proto raw with
    | none => (none, scan.bad)
    | some len =>
        if slot.rxLen - off < headerSize + len then (some off, scan)
        else
          frames proto node slot (off + (headerSize + len))
            (scan.handle proto slot.rx node type (off + headerSize) len)
  else (some off, scan)
termination_by slot.rxLen - off
decreasing_by simp only [headerSize] at *; omega

def consumeFrames (proto : Proto) (node : UInt32) (slot : Slot) (tally : Tally) : Slot × Scan :=
  match slot.frames proto node 0 ⟨tally, []⟩ with
  | (none, scan) => ({ slot with rxLen := 0 }, scan)
  | (some off, scan) =>
      if off = 0 then (slot, scan)
      else
        let rem := slot.rxLen - off
        if rem = 0 then ({ slot with rxLen := 0 }, scan)
        else
          ({ rx := fun i => if i < rem then slot.rx (off + i) else slot.rx i, rxLen := rem },
            scan.look off rem)

/-! ## A stream in pieces -/

/-- A connection's slot with the counters, and for each call of `consume_frames`
the `rx_len` it found and the ranges it looked at. -/
structure Feed where
  slot : Slot := .empty
  tally : Tally := {}
  calls : List (Nat × List (Nat × Nat)) := []

def Feed.step (proto : Proto) (node : UInt32) (feed : Feed) (piece : Bytes) : Feed :=
  let slot := feed.slot.append piece
  let (left, scan) := slot.consumeFrames proto node feed.tally
  ⟨left, scan.tally, feed.calls ++ [(slot.rxLen, scan.reads)]⟩

def Feed.run (proto : Proto) (node : UInt32) (feed : Feed) (pieces : List Bytes) : Feed :=
  pieces.foldl (Feed.step proto node) feed

/-- Every piece finds room in the slot when it comes. -/
def Feed.Fits (proto : Proto) (node : UInt32) : Feed → List Bytes → Prop
  | _, [] => True
  | feed, piece :: pieces =>
      feed.slot.rxLen + piece.length ≤ rxCap ∧ Fits proto node (feed.step proto node piece) pieces

end Slot

end NetEngine.Bench
