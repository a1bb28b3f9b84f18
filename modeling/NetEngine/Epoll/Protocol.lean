import NetEngine.Library.Framing
import NetEngine.Library.Socket

/-! What the two epoll servers share: the wire constants, the kernel's answers,
the events of one `epoll_wait`, and the record of what a run did. A `Client` is
a connection as its peer can know it, whatever containers hold it. -/

set_option autoImplicit false

namespace NetEngine.Epoll

open Socket

abbrev Bytes := List UInt8
abbrev Fd := Nat

def ascii (text : String) : Bytes := text.toList.map fun letter => UInt8.ofNat letter.toNat

def cSetNick : UInt16 := 1
def cJoin : UInt16 := 2
def cChat : UInt16 := 3
def sNotice : UInt16 := 100
def sChat : UInt16 := 101
def sTick : UInt16 := 102

def headerSize : Nat := Framing.headerSize
def maxPayload : Nat := 1024
def maxFrame : Nat := headerSize + maxPayload
def sendCap : Nat := 256 * 1024
def nickMax : Nat := 31
def roomMax : Nat := 63

/-- The scratch of one `recv` call. -/
def recvSize : Nat := 64 * 1024

structure Client (ρ : Type) where
  nick : Bytes := []
  room : Option ρ := none
  input : Bytes := []
  pending : Bytes := []
  armed : Bool := false
  closing : Bool := false
  dirty : Bool := false

/-- One thing that a run did. `packet` holds the table that `handle_packet` was called
on, `departs` the one that `reap_doomed` found. -/
inductive Obs (ρ : Type) where
  | wake
  | accepted (fd : Fd)
  | refused (fd : Fd)
  | recv (fd : Fd) (bytes : Bytes)
  | packet (clients : Fd → Option (Client ρ)) (fd : Fd) (type : UInt16) (payload : Bytes)
  | handled (fd : Fd) (closing : Bool)
  | oversize (fd : Fd)
  | parsed (fd : Fd) (buffered : Nat) (closing : Bool)
  | append (fd : Fd) (type : UInt16) (payload : Bytes)
  | overCap (fd : Fd) (frame : Nat)
  | send (fd : Fd) (sent : Bytes) (how : SendEnd)
  | mask (fd : Fd) (write done : Bool)
  | doomed (fd : Fd)
  | departs (clients : Fd → Option (Client ρ)) (fd : Fd)
  | closed (fd : Fd)

/-- What `accept4` answered; `added` is the outcome of `EPOLL_CTL_ADD`. -/
inductive AcceptAnswer where
  | arrived (fd : Fd) (added : Bool)
  | interrupted
  | aborted
  | outOfFds
  | failed
  | wouldBlock

/-- A ready connection: its mask, and what `recv` will answer. Bytes that one
call does not ask for are left for the next. -/
structure Ready where
  fd : Fd
  hangup : Bool
  writable : Bool
  readable : Bool
  script : List (RecvAnswer UInt8)

inductive Event where
  | accept (answers : List AcceptAnswer)
  | signal
  | ready (what : Ready)

structure Batch where
  events : List Event
  tickDue : Bool

/-- The kernel and the iteration order of unordered containers, asked by count. -/
structure Kernel where
  send : Nat → List SendAnswer
  modify : Nat → Bool
  walk : {α : Type} → Nat → List α → List α
  walk_perm : ∀ {α : Type} (clock : Nat) (items : List α), (walk clock items).Perm items

/-- A bound on the `recv` calls that a script can answer. -/
def scriptCost : List (RecvAnswer UInt8) → Nat
  | [] => 1
  | .data bytes :: script => bytes.length + 1 + scriptCost script
  | _ :: script => 1 + scriptCost script

theorem scriptCost_pos (script : List (RecvAnswer UInt8)) : 0 < scriptCost script := by
  cases script with
  | nil => exact Nat.one_pos
  | cons answer script => cases answer <;> simp only [scriptCost] <;> omega

/-- The tests of `parse_frames`, in the order in which both servers make them. -/
theorem next_eq (input : Bytes) :
    Framing.next maxPayload input =
      if input.length < headerSize then .more
      else if maxPayload < (LittleEndian.read input).toNat then .oversize
      else if input.length < headerSize + (LittleEndian.read input).toNat then .more
      else
        .frame (LittleEndian.read (input.drop 2))
          ((input.drop headerSize).take (LittleEndian.read input).toNat)
          (input.drop (headerSize + (LittleEndian.read input).toNat)) :=
  rfl

end NetEngine.Epoll
