import Mathlib.Logic.Function.Basic
import NetEngine.Epoll.Protocol

/-! The event loop that both servers implement, over connections as `Client`s.
Operations on one connection are functions; whatever the containers, the kernel
or the scheduling decide is left open in the relations. Membership of a room is
what the connections say it is. -/

set_option autoImplicit false

namespace NetEngine.Epoll

open Socket

structure State (ρ : Type) where
  clients : Fd → Option (Client ρ)
  size : Nat
  doomed : List Fd
  dirty : List Fd
  running : Bool
  trace : List (Obs ρ)

variable {ρ : Type}

/-- What differs between two builds or two settings of a build. -/
structure Rules (ρ : Type) where
  batchFlush : Bool
  coalesce : Bool
  shortRead : Bool
  /-- The outcomes that `EPOLL_CTL_MOD` can have. -/
  modifies : Bool → Prop
  /-- The connection cap: connections held, and the new descriptor. -/
  full : Nat → Fd → Bool
  /-- The room behind a name, and the name as the notice repeats it. -/
  resolve : (Fd → Option (Client ρ)) → Bytes → ρ → Bytes → Prop

namespace State

def init : State ρ := ⟨fun _ => none, 0, [], [], true, []⟩

def Live (state : State ρ) (fd : Fd) : Prop := ∃ client, state.clients fd = some client

def Open (state : State ρ) (fd : Fd) : Prop :=
  ∃ client, state.clients fd = some client ∧ client.closing = false

def emit (state : State ρ) (obs : Obs ρ) : State ρ := { state with trace := state.trace ++ [obs] }

def update (state : State ρ) (fd : Fd) (change : Client ρ → Client ρ) : State ρ :=
  { state with clients := Function.update state.clients fd ((state.clients fd).map change) }

def doom (state : State ρ) (fd : Fd) : State ρ :=
  match state.clients fd with
  | none => state
  | some client =>
      if client.closing then state
      else
        { (state.update fd fun client => { client with closing := true }).emit (.doomed fd) with
          doomed := state.doomed ++ [fd] }

def enqueue (state : State ρ) (fd : Fd) (type : UInt16) (payload : Bytes) : State ρ :=
  match state.clients fd with
  | none => state
  | some client =>
      if sendCap < client.pending.length + headerSize + payload.length then
        (state.emit (.overCap fd (headerSize + payload.length))).doom fd
      else
        (state.update fd fun client =>
          { client with pending := client.pending ++ Framing.encode type payload }).emit
            (.append fd type payload)

def queueSend (type : UInt16) (payload : Bytes) (state : State ρ) (fd : Fd) : State ρ :=
  match state.clients fd with
  | none => state
  | some client =>
      if client.closing then state
      else if maxPayload < payload.length then state
      else state.enqueue fd type payload

def queueTickFrame (payload : Bytes) (state : State ρ) (fd : Fd) : State ρ :=
  match state.clients fd with
  | none => state
  | some client => if client.closing then state else state.enqueue fd sTick payload

def updateEpollMask (done : Bool) (state : State ρ) (fd : Fd) : State ρ :=
  match state.clients fd with
  | none => state
  | some client =>
      let want := decide (client.pending ≠ [])
      if want = client.armed then state
      else
        (if done then state.update fd fun client => { client with armed := want } else state).emit
          (.mask fd want done)

def flushSend (answers : List SendAnswer) (done : Bool) (state : State ρ) (fd : Fd) : State ρ :=
  match state.clients fd with
  | none => state
  | some client =>
      if client.pending = [] then state.updateEpollMask done fd
      else
        let loop := sendLoop client.pending answers
        let sent := (state.update fd fun client => { client with pending := loop.rest }).emit
          (.send fd loop.sent loop.how)
        if loop.how = .broken then sent.doom fd else sent.updateEpollMask done fd

def markDirty (state : State ρ) (fd : Fd) : State ρ :=
  match state.clients fd with
  | none => state
  | some client =>
      if client.dirty = false ∧ client.pending ≠ [] then
        { state.update fd fun client => { client with dirty := true } with
          dirty := state.dirty ++ [fd] }
      else state

def enterRoom (state : State ρ) (fd : Fd) (room : Option ρ) : State ρ :=
  state.update fd fun client => { client with room }

def setNick (state : State ρ) (fd : Fd) (nick : Bytes) : State ρ :=
  state.update fd fun client => { client with nick }

def setInput (state : State ρ) (fd : Fd) (input : Bytes) : State ρ :=
  state.update fd fun client => { client with input }

def clean (state : State ρ) (fd : Fd) : State ρ :=
  state.update fd fun client => { client with dirty := false }

def insert (state : State ρ) (fd : Fd) : State ρ :=
  { state.emit (.accepted fd) with
    clients := Function.update state.clients fd (some {})
    size := state.size + 1 }

def remove (state : State ρ) (fd : Fd) : State ρ :=
  { state.emit (.closed fd) with
    clients := Function.update state.clients fd none
    size := state.size - 1 }

/-- The end of `handle_packet`, with the mark it left on the connection. -/
def noteHandled (state : State ρ) (fd : Fd) : State ρ :=
  state.emit (.handled fd ((state.clients fd).elim false (·.closing)))

def noteParsed (state : State ρ) (fd : Fd) : State ρ :=
  state.emit (.parsed fd ((state.clients fd).elim 0 (·.input.length))
    ((state.clients fd).elim false (·.closing)))

def onAccept (rules : Rules ρ) : List AcceptAnswer → State ρ → State ρ
  | [], state => state
  | .arrived fd added :: answers, state =>
      if (state.clients fd).isSome then onAccept rules answers state
      else if rules.full state.size fd ∨ added = false then
        onAccept rules answers (state.emit (.refused fd))
      else onAccept rules answers (state.insert fd)
  | .interrupted :: answers, state | .aborted :: answers, state => onAccept rules answers state
  | .outOfFds :: _, state | .failed :: _, state | .wouldBlock :: _, state => state

end State

/-- `flush_send`, whatever the socket takes. -/
def Flushes (rules : Rules ρ) (fd : Fd) (state after : State ρ) : Prop :=
  ∃ answers done, rules.modifies done ∧ after = state.flushSend answers done fd

/-- What follows a queued frame: send inline, or leave it to the flush pass. -/
def Follows (rules : Rules ρ) (fd : Fd) (state after : State ρ) : Prop :=
  if rules.batchFlush then after = state.markDirty fd else Flushes rules fd state after

/-! ## Walks -/

/-- One frame for every open connection of the list. -/
inductive Walk (rules : Rules ρ) (put : State ρ → Fd → State ρ) :
    List Fd → State ρ → State ρ → Prop where
  | nil {state : State ρ} : Walk rules put [] state state
  | skip {fd : Fd} {fds : List Fd} {state after : State ρ} :
      ¬ state.Open fd → Walk rules put fds state after → Walk rules put (fd :: fds) state after
  | visit {fd : Fd} {fds : List Fd} {state next after : State ρ} :
      state.Open fd → Follows rules fd (put state fd) next → Walk rules put fds next after →
      Walk rules put (fd :: fds) state after

def State.InRoom (state : State ρ) (room : ρ) (fd : Fd) : Prop :=
  ∃ client, state.clients fd = some client ∧ client.room = some room

/-- A frame to every member of a room but one, in any order. -/
def Broadcast (rules : Rules ρ) (room : ρ) (type : UInt16) (payload : Bytes) (except : Option Fd)
    (state after : State ρ) : Prop :=
  ∃ members : List Fd, members.Nodup ∧
    (∀ fd, fd ∈ members ↔ some fd ≠ except ∧ state.InRoom room fd) ∧
    Walk rules (State.queueSend type payload) members state after

/-- Tick frames to open connections, whatever they hold. -/
inductive Ticks (rules : Rules ρ) : State ρ → State ρ → Prop where
  | nil {state : State ρ} : Ticks rules state state
  | visit {fd : Fd} {state next after : State ρ} (payload : Bytes) :
      state.Open fd → Follows rules fd (state.queueTickFrame payload fd) next →
      Ticks rules next after → Ticks rules state after

/-! ## handle_packet -/

def nickNotice (nick : Bytes) : Bytes := ascii "nick set to " ++ nick
def joinedNotice (room : Bytes) : Bytes := ascii "joined " ++ room
def leftNotice (nick : Bytes) : Bytes := nick ++ ascii " left"
def helloNotice (nick : Bytes) : Bytes := nick ++ ascii " joined"
def chatLine (nick payload : Bytes) : Bytes := nick ++ ascii ": " ++ payload
def nickFirst : Bytes := ascii "set a nickname first"
def roomRequired : Bytes := ascii "room name required"
def joinFirst : Bytes := ascii "join a room first"

/-- A room switch: the notice to the others, then the departure. -/
inductive Switch (rules : Rules ρ) (fd : Fd) (client : Client ρ) : State ρ → State ρ → Prop where
  | stay {state : State ρ} : client.room = none → Switch rules fd client state state
  | leave {state told : State ρ} {room : ρ} :
      client.room = some room →
      Broadcast rules room sNotice (leftNotice client.nick) (some fd) state told →
      Switch rules fd client state (told.enterRoom fd none)

inductive Packet (rules : Rules ρ) (fd : Fd) (payload : Bytes) :
    UInt16 → State ρ → State ρ → Prop where
  | setNick {state : State ρ} :
      Packet rules fd payload cSetNick state
        ((state.setNick fd (payload.take nickMax)).queueSend sNotice
          (nickNotice (payload.take nickMax)) fd)
  | nickFirst {state : State ρ} {client : Client ρ} :
      state.clients fd = some client → client.nick = [] →
      Packet rules fd payload cJoin state (state.queueSend sNotice nickFirst fd)
  | roomRequired {state : State ρ} {client : Client ρ} :
      state.clients fd = some client → client.nick ≠ [] → payload.take roomMax = [] →
      Packet rules fd payload cJoin state (state.queueSend sNotice roomRequired fd)
  | join {state left told : State ρ} {client : Client ρ} {room : ρ} {echo : Bytes} :
      state.clients fd = some client → client.nick ≠ [] → payload.take roomMax ≠ [] →
      Switch rules fd client state left →
      rules.resolve left.clients (payload.take roomMax) room echo →
      Broadcast rules room sNotice (helloNotice client.nick) (some fd)
        ((left.enterRoom fd (some room)).queueSend sNotice (joinedNotice echo) fd) told →
      Packet rules fd payload cJoin state told
  | joinFirst {state : State ρ} {client : Client ρ} :
      state.clients fd = some client → client.room = none →
      Packet rules fd payload cChat state (state.queueSend sNotice joinFirst fd)
  | record {state : State ρ} {client : Client ρ} :
      state.clients fd = some client → client.room ≠ none → rules.coalesce = true →
      Packet rules fd payload cChat state state
  | chat {state told : State ρ} {client : Client ρ} {room : ρ} :
      state.clients fd = some client → client.room = some room → rules.coalesce = false →
      Broadcast rules room sChat (chatLine client.nick payload) none state told →
      Packet rules fd payload cChat state told
  | unknown {state : State ρ} {type : UInt16} :
      type ≠ cSetNick → type ≠ cJoin → type ≠ cChat →
      Packet rules fd payload type state (state.doom fd)

/-! ## Reading -/

/-- `parse_frames`: a frame leaves the buffer before or after it is handled. -/
inductive Parse (rules : Rules ρ) (fd : Fd) : State ρ → State ρ → Prop where
  | closing {state : State ρ} : ¬ state.Open fd → Parse rules fd state state
  | more {state : State ρ} {client : Client ρ} :
      state.clients fd = some client → client.closing = false →
      Framing.next maxPayload client.input = .more → Parse rules fd state state
  | oversize {state : State ρ} {client : Client ρ} :
      state.clients fd = some client → client.closing = false →
      Framing.next maxPayload client.input = .oversize →
      Parse rules fd state ((state.emit (.oversize fd)).doom fd)
  | late {state told after : State ρ} {client : Client ρ} {type : UInt16} {payload rest : Bytes} :
      state.clients fd = some client → client.closing = false →
      Framing.next maxPayload client.input = .frame type payload rest →
      Packet rules fd payload type (state.emit (.packet state.clients fd type payload)) told →
      Parse rules fd ((told.noteHandled fd).setInput fd rest) after →
      Parse rules fd state after
  | early {state told after : State ρ} {client : Client ρ} {type : UInt16} {payload rest : Bytes} :
      state.clients fd = some client → client.closing = false →
      Framing.next maxPayload client.input = .frame type payload rest →
      Packet rules fd payload type
        ((state.emit (.packet state.clients fd type payload)).setInput fd rest) told →
      Parse rules fd (told.noteHandled fd) after →
      Parse rules fd state after

def State.receive (state : State ρ) (fd : Fd) (client : Client ρ) (chunk : Bytes) : State ρ :=
  (state.emit (.recv fd chunk)).setInput fd (client.input ++ chunk)

def pushBack (rest : Bytes) (script : List (RecvAnswer UInt8)) : List (RecvAnswer UInt8) :=
  if rest = [] then script else .data rest :: script

/-- `on_readable`: what each call takes of the bytes at hand is left open. -/
inductive Reads (rules : Rules ρ) (fd : Fd) :
    List (RecvAnswer UInt8) → State ρ → State ρ → Prop where
  | drained {state after : State ρ} {script : List (RecvAnswer UInt8)} :
      script = [] ∨ (∃ later, script = .wouldBlock :: later) →
      Follows rules fd (state.emit (.recv fd [])) after → Reads rules fd script state after
  | ended {state : State ρ} {script : List (RecvAnswer UInt8)} :
      (∃ later, script = .data [] :: later ∨ script = .eof :: later ∨ script = .failed :: later) →
      Reads rules fd script state ((state.emit (.recv fd [])).doom fd)
  | interrupted {state after : State ρ} {script : List (RecvAnswer UInt8)} :
      Reads rules fd script (state.emit (.recv fd [])) after →
      Reads rules fd (.interrupted :: script) state after
  | stopped {state told : State ρ} {client : Client ρ} {chunk rest : Bytes}
      {script : List (RecvAnswer UInt8)} :
      state.clients fd = some client → chunk ≠ [] →
      Parse rules fd (state.receive fd client chunk) told → ¬ told.Open fd →
      Reads rules fd (.data (chunk ++ rest) :: script) state (told.noteParsed fd)
  | short {state told after : State ρ} {client : Client ρ} {chunk rest : Bytes}
      {script : List (RecvAnswer UInt8)} :
      state.clients fd = some client → chunk ≠ [] → rules.shortRead = true →
      Parse rules fd (state.receive fd client chunk) told → told.Open fd →
      Follows rules fd (told.noteParsed fd) after →
      Reads rules fd (.data (chunk ++ rest) :: script) state after
  | again {state told after : State ρ} {client : Client ρ} {chunk rest : Bytes}
      {script : List (RecvAnswer UInt8)} :
      state.clients fd = some client → chunk ≠ [] →
      Parse rules fd (state.receive fd client chunk) told → told.Open fd →
      Reads rules fd (pushBack rest script) (told.noteParsed fd) after →
      Reads rules fd (.data (chunk ++ rest) :: script) state after
  | backlog {state : State ρ} {client : Client ρ} {script : List (RecvAnswer UInt8)} (taken : Bytes) :
      state.clients fd = some client → maxFrame ≤ client.input.length →
      Reads rules fd script state ((state.emit (.recv fd taken)).doom fd)

/-! ## The main loop -/

inductive Handles (rules : Rules ρ) : Event → State ρ → State ρ → Prop where
  | accept {state : State ρ} {answers : List AcceptAnswer} :
      Handles rules (.accept answers) state (state.onAccept rules answers)
  | signal {state : State ρ} : Handles rules .signal state { state with running := false }
  | gone {state : State ρ} {what : Ready} :
      ¬ state.Open what.fd → Handles rules (.ready what) state state
  | hangup {state : State ρ} {what : Ready} :
      state.Open what.fd → what.hangup = true →
      Handles rules (.ready what) state (state.doom what.fd)
  | serve {state flushed after : State ρ} {what : Ready} :
      state.Open what.fd → what.hangup = false →
      (what.writable = true ∧ Flushes rules what.fd state flushed ∨
        what.writable = false ∧ flushed = state) →
      (flushed.Open what.fd ∧ what.readable = true ∧ Reads rules what.fd what.script flushed after ∨
        ¬ (flushed.Open what.fd ∧ what.readable = true) ∧ after = flushed) →
      Handles rules (.ready what) state after

inductive Drains (rules : Rules ρ) : List Event → State ρ → State ρ → Prop where
  | nil {state : State ρ} : Drains rules [] state state
  | cons {state next after : State ρ} {event : Event} {events : List Event} :
      Handles rules event state next → Drains rules events next after →
      Drains rules (event :: events) state after

/-- `flush_dirty`, over what is left of the list. -/
inductive FlushDirty (rules : Rules ρ) : List Fd → State ρ → State ρ → Prop where
  | nil {state : State ρ} : FlushDirty rules [] state { state with dirty := [] }
  | skip {state after : State ρ} {fd : Fd} {fds : List Fd} :
      ¬ state.Open fd → FlushDirty rules fds (state.clean fd) after →
      FlushDirty rules (fd :: fds) state after
  | flush {state flushed after : State ρ} {fd : Fd} {fds : List Fd} :
      state.Open fd → Flushes rules fd (state.clean fd) flushed →
      FlushDirty rules fds flushed after → FlushDirty rules (fd :: fds) state after

/-- One departure: the room first, so that the notice cannot reach who left. -/
inductive Depart (rules : Rules ρ) (fd : Fd) (client : Client ρ) : State ρ → State ρ → Prop where
  | silent {state : State ρ} :
      client.room = none ∨ client.nick = [] →
      Depart rules fd client state (state.enterRoom fd none)
  | notice {state after : State ρ} {room : ρ} :
      client.room = some room → client.nick ≠ [] →
      Broadcast rules room sNotice (leftNotice client.nick) (some fd) (state.enterRoom fd none)
        after →
      Depart rules fd client state after

/-- `reap_doomed`, from one index of the growing list on. -/
inductive Reap (rules : Rules ρ) : Nat → State ρ → State ρ → Prop where
  | done {state : State ρ} {index : Nat} :
      state.doomed.length ≤ index → Reap rules index state { state with doomed := [] }
  | gone {state after : State ρ} {index : Nat} {fd : Fd} :
      state.doomed[index]? = some fd → ¬ state.Live fd → Reap rules (index + 1) state after →
      Reap rules index state after
  | close {state told after : State ρ} {index : Nat} {fd : Fd} {client : Client ρ} :
      state.doomed[index]? = some fd → state.clients fd = some client →
      Depart rules fd client (state.emit (.departs state.clients fd)) told →
      Reap rules (index + 1) (told.remove fd) after →
      Reap rules index state after

inductive Tail (rules : Rules ρ) : State ρ → State ρ → Prop where
  | batch {state flushed reaped after : State ρ} :
      rules.batchFlush = true → FlushDirty rules state.dirty state flushed →
      Reap rules 0 flushed reaped → FlushDirty rules reaped.dirty reaped after →
      Tail rules state after
  | immediate {state after : State ρ} :
      rules.batchFlush = false → Reap rules 0 state after → Tail rules state after

/-- One iteration of the main loop. -/
inductive Iterates (rules : Rules ρ) (batch : Batch) : State ρ → State ρ → Prop where
  | mk {state drained ticked after : State ρ} :
      Drains rules batch.events (state.emit .wake) drained →
      (rules.coalesce = true ∧ Ticks rules drained ticked ∨ ticked = drained) →
      Tail rules ticked after → Iterates rules batch state after

/-- A run of the main loop; a signal ends it after its batch. -/
inductive Runs (rules : Rules ρ) : List Batch → State ρ → State ρ → Prop where
  | nil {state : State ρ} : Runs rules [] state state
  | stop {state : State ρ} {batches : List Batch} :
      state.running = false → Runs rules batches state state
  | cons {state next after : State ρ} {batch : Batch} {batches : List Batch} :
      state.running = true → Iterates rules batch state next → Runs rules batches next after →
      Runs rules (batch :: batches) state after

end NetEngine.Epoll
