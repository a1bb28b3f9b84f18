import NetEngine.Epoll.Chat

/-! What both servers are for, without queues, kernel calls and containers: people, the
rooms they are in by name, and what each connection gets to see. Nothing is left open
here, so two programs that keep to it show the same. -/

set_option autoImplicit false

namespace NetEngine.Epoll

open Socket

/-- What the peer of a connection can observe of it, between the iterations of the loop. -/
inductive Deed where
  | wake
  | accepted
  | said (type : UInt16) (payload : Bytes)
  | closed
  deriving DecidableEq

/-- A connection without its send side. -/
structure Core (ρ : Type) where
  nick : Bytes := []
  room : Option ρ := none
  input : Bytes := []
  closing : Bool := false

/-- `merged` notes that a room was entered while one was in use whose other name agrees with
it up to the first zero byte. -/
structure Spec where
  people : Fd → Option (Core Bytes)
  online : List Fd
  doomed : List Fd
  running : Bool
  stories : Fd → List Deed
  merged : Bool

/-- The part of a name that a C string keeps. -/
def cut (name : Bytes) : Bytes := name.takeWhile (· ≠ 0)

namespace Spec

def init : Spec := ⟨fun _ => none, [], [], true, fun _ => [], false⟩

def opens (spec : Spec) (fd : Fd) : Bool := (spec.people fd).elim false (!·.closing)

def roomOf (spec : Spec) (fd : Fd) : Option Bytes := (spec.people fd).bind (·.room)

def update (spec : Spec) (fd : Fd) (change : Core Bytes → Core Bytes) : Spec :=
  { spec with people := Function.update spec.people fd ((spec.people fd).map change) }

/-- A frame for everyone who hears it; an oversized one is not sent. -/
def say (spec : Spec) (hears : Fd → Bool) (type : UInt16) (payload : Bytes) : Spec :=
  { spec with
    stories := fun fd =>
      if payload.length ≤ maxPayload ∧ spec.opens fd = true ∧ hears fd = true then
        spec.stories fd ++ [.said type payload]
      else spec.stories fd }

def tell (spec : Spec) (fd : Fd) (type : UInt16) (payload : Bytes) : Spec :=
  spec.say (fun other => decide (other = fd)) type payload

def broadcast (spec : Spec) (room : Bytes) (type : UInt16) (payload : Bytes)
    (except : Option Fd) : Spec :=
  spec.say (fun fd => decide (some fd ≠ except ∧ spec.roomOf fd = some room)) type payload

def doom (spec : Spec) (fd : Fd) : Spec :=
  if spec.opens fd then
    { spec.update fd fun person => { person with closing := true } with
      doomed := spec.doomed ++ [fd] }
  else spec

/-! ## Packets -/

def collides (spec : Spec) (name : Bytes) : Bool :=
  spec.online.any fun other =>
    (spec.roomOf other).any fun room => decide (cut room = cut name ∧ room ≠ name)

def leave (spec : Spec) (fd : Fd) (person : Core Bytes) : Spec :=
  match person.room with
  | none => spec
  | some room =>
      (spec.broadcast room sNotice (leftNotice person.nick) (some fd)).update fd
        fun person => { person with room := none }

def enter (spec : Spec) (fd : Fd) (name : Bytes) : Spec :=
  { spec.update fd fun person => { person with room := some name } with
    merged := spec.merged || spec.collides name }

def join (spec : Spec) (fd : Fd) (person : Core Bytes) (name : Bytes) : Spec :=
  (((spec.leave fd person).enter fd name).tell fd sNotice (joinedNotice name)).broadcast name
    sNotice (helloNotice person.nick) (some fd)

def packet (spec : Spec) (fd : Fd) (type : UInt16) (payload : Bytes) : Spec :=
  match spec.people fd with
  | none => spec
  | some person =>
      if type = cSetNick then
        (spec.update fd fun person => { person with nick := payload.take nickMax }).tell fd sNotice
          (nickNotice (payload.take nickMax))
      else if type = cJoin then
        if person.nick = [] then spec.tell fd sNotice nickFirst
        else if payload.take roomMax = [] then spec.tell fd sNotice roomRequired
        else spec.join fd person (payload.take roomMax)
      else if type = cChat then
        match person.room with
        | none => spec.tell fd sNotice joinFirst
        | some room => spec.broadcast room sChat (chatLine person.nick payload) none
      else spec.doom fd

/-! ## Reading -/

/-- Frames are handed on as long as the connection is served. -/
def hand (fd : Fd) (spec : Spec) (frame : UInt16 × Bytes) : Spec :=
  if spec.opens fd then spec.packet fd frame.1 frame.2 else spec

def handAll (spec : Spec) (fd : Fd) (frames : List (UInt16 × Bytes)) : Spec :=
  frames.foldl (hand fd) spec

/-- A parse of what is buffered: its frames, and the end where a header is over the limit. -/
def take (spec : Spec) (fd : Fd) (input : Bytes) : Spec :=
  let parsed := Framing.parse maxPayload input
  let handed := spec.handAll fd parsed.frames
  if parsed.oversize then handed.doom fd else handed

/-- What is there to be read, behind the bytes that are held already. -/
def read (fd : Fd) : List (RecvAnswer UInt8) → Bytes → Spec → Spec
  | [], input, spec | .wouldBlock :: _, input, spec =>
      spec.update fd fun person => { person with input }
  | .eof :: _, _, spec | .failed :: _, _, spec => spec.doom fd
  | .interrupted :: script, input, spec => read fd script input spec
  | .data bytes :: script, input, spec =>
      if bytes = [] then spec.doom fd
      else
        let taken := spec.take fd (input ++ bytes)
        if taken.opens fd then
          read fd script (Framing.parse maxPayload (input ++ bytes)).rest taken
        else taken

/-! ## The main loop -/

def insert (spec : Spec) (fd : Fd) : Spec :=
  { spec with
    people := Function.update spec.people fd (some {})
    online := fd :: spec.online
    stories := Function.update spec.stories fd (spec.stories fd ++ [.accepted]) }

def accept (maxConns : Nat) : List AcceptAnswer → Spec → Spec
  | [], spec => spec
  | .arrived fd added :: answers, spec =>
      if (spec.people fd).isSome then accept maxConns answers spec
      else if maxConns ≤ spec.online.length ∨ added = false then accept maxConns answers spec
      else accept maxConns answers (spec.insert fd)
  | .interrupted :: answers, spec | .aborted :: answers, spec => accept maxConns answers spec
  | .outOfFds :: _, spec | .failed :: _, spec | .wouldBlock :: _, spec => spec

def ready (spec : Spec) (what : Ready) : Spec :=
  if spec.opens what.fd = false then spec
  else if what.hangup then spec.doom what.fd
  else if what.readable then
    read what.fd what.script ((spec.people what.fd).elim [] (·.input)) spec
  else spec

def handle (maxConns : Nat) (spec : Spec) : Event → Spec
  | .accept answers => accept maxConns answers spec
  | .signal => { spec with running := false }
  | .ready what => spec.ready what

/-- A departure is told to the others of the room. -/
def farewell (spec : Spec) (fd : Fd) (person : Core Bytes) : Spec :=
  let left := spec.update fd fun person => { person with room := none }
  match person.room with
  | none => left
  | some room =>
      if person.nick = [] then left
      else left.broadcast room sNotice (leftNotice person.nick) (some fd)

def remove (spec : Spec) (fd : Fd) : Spec :=
  { spec with
    people := Function.update spec.people fd none
    online := spec.online.erase fd
    stories := Function.update spec.stories fd (spec.stories fd ++ [.closed]) }

def depart (spec : Spec) (fd : Fd) : Spec :=
  match spec.people fd with
  | none => spec
  | some person => (spec.farewell fd person).remove fd

def reap (spec : Spec) : Spec := { spec.doomed.foldl depart spec with doomed := [] }

def wake (spec : Spec) : Spec := { spec with stories := fun fd => spec.stories fd ++ [.wake] }

def iterate (maxConns : Nat) (spec : Spec) (batch : Batch) : Spec :=
  (batch.events.foldl (handle maxConns) spec.wake).reap

def runFrom (maxConns : Nat) (spec : Spec) (batches : List Batch) : Spec :=
  batches.foldl (fun spec batch => if spec.running then spec.iterate maxConns batch else spec) spec

def run (maxConns : Nat) (batches : List Batch) : Spec := runFrom maxConns init batches

end Spec

/-! ## Stories -/

def Obs.deed {ρ : Type} (fd : Fd) : Obs ρ → Option Deed
  | .wake => some .wake
  | .accepted other => if other = fd then some .accepted else none
  | .append other type payload => if other = fd then some (.said type payload) else none
  | .closed other => if other = fd then some .closed else none
  | _ => none

/-- What a trace shows the peers of a descriptor's connections: the frames of their streams
and their ends, by iteration. -/
def story {ρ : Type} (fd : Fd) (trace : List (Obs ρ)) : List Deed := trace.filterMap (Obs.deed fd)

end NetEngine.Epoll
