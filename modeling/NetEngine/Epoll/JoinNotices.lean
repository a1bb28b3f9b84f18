import Mathlib.Data.List.TakeWhile
import NetEngine.Epoll.ChatPackets

/-! What a join answers its own connection: the one notice, with the name as the
rules of the run repeat it. -/

set_option autoImplicit false

namespace NetEngine.Epoll

open Socket

variable {ρ : Type}

/-- A `c_join` enters a room if its sender has a nickname and it names the room. -/
def enters (clients : Table ρ) (fd : Fd) (payload : Bytes) : Bool :=
  (clients fd).elim false (fun client => client.nick ≠ []) && payload.take roomMax ≠ []

/-- A join of a run, and what was queued for its own connection until it was handled. -/
structure Join (ρ : Type) where
  clients : Table ρ
  fd : Fd
  payload : Bytes
  answers : List (UInt16 × Bytes)

def Join.name (join : Join ρ) : Bytes := join.payload.take roomMax

/-- The notice with the first bytes of the connection's own payload. -/
def ownNotice (join : Join ρ) : UInt16 × Bytes := (sNotice, joinedNotice join.name)

def Obs.ends : Obs ρ → Bool
  | .handled .. => true
  | _ => false

/-- The joins of a trace that entered a room. -/
def joins : List (Obs ρ) → List (Join ρ)
  | [] => []
  | .packet clients fd type payload :: trace =>
      if type = cJoin ∧ enters clients fd payload then
        ⟨clients, fd, payload, appendsTo fd (trace.takeWhile (!·.ends))⟩ :: joins trace
      else joins trace
  | _ :: trace => joins trace

/-- The queue of an open connection can take the frame. -/
def Fits (clients : Table ρ) (fd : Fd) (line : Bytes) : Prop :=
  line.length ≤ maxPayload ∧ ∃ client, clients fd = some client ∧ client.closing = false ∧
    client.pending.length + headerSize + line.length ≤ sendCap

def roomIn (clients : Table ρ) (fd : Fd) : Option ρ := (clients fd).bind (·.room)

/-- The room and the name that a join may end up with: it leaves its room first. -/
def Resolves (rules : Rules ρ) (clients : Table ρ) (fd : Fd) (payload : Bytes) (room : ρ)
    (echo : Bytes) : Prop :=
  ∃ left : Table ρ, roomIn left = Function.update (roomIn clients) fd none ∧
    rules.resolve left (payload.take roomMax) room echo

/-- What a packet that enters a room answers its sender. -/
def Greets (rules : Rules ρ) (clients : Table ρ) (fd : Fd) (type : UInt16) (payload : Bytes)
    (body : List (Obs ρ)) : Prop :=
  type = cJoin → enters clients fd payload = true →
    ∃ room echo, Resolves rules clients fd payload room echo ∧
      (Fits clients fd (joinedNotice echo) → appendsTo fd body = [(sNotice, joinedNotice echo)]) ∧
      (¬ Fits clients fd (joinedNotice echo) → appendsTo fd body = [])

/-! ## Rooms -/

section Rooms

variable {rules : Rules ρ} {state after : State ρ} {fd : Fd}

theorem inRoom_iff_roomIn {room : ρ} :
    state.InRoom room fd ↔ roomIn state.clients fd = some room :=
  Option.bind_eq_some_iff.symm

theorem Sends.roomIn {types : UInt16 → Prop} (sends : Sends True types state after) :
    roomIn after.clients = roomIn state.clients := by
  funext fd
  refine Option.ext fun room => ?_
  rw [← inRoom_iff_roomIn, ← inRoom_iff_roomIn]
  exact sends.inRoom_iff room fd

theorem roomIn_enterRoom {client : Client ρ} (found : state.clients fd = some client)
    (room : Option ρ) :
    roomIn (state.enterRoom fd room).clients = Function.update (roomIn state.clients) fd room := by
  funext other
  by_cases own : other = fd
  · subst own
    simp [roomIn, State.enterRoom, found]
  · simp [roomIn, State.enterRoom, own]

theorem roomIn_update (change : Client ρ → Client ρ)
    (same : ∀ client, (change client).room = client.room) :
    roomIn (state.update fd change).clients = roomIn state.clients := by
  funext other
  by_cases own : other = fd
  · subst own
    cases found : state.clients other <;> simp [roomIn, found, same]
  · simp [roomIn, own]

theorem Switch.roomIn {client : Client ρ} (found : state.clients fd = some client)
    (leaves : Switch rules fd client state after) :
    roomIn after.clients = Function.update (roomIn state.clients) fd none := by
  cases leaves with
  | stay nowhere =>
      have outside : Epoll.roomIn state.clients fd = none := by simp [Epoll.roomIn, found, nowhere]
      rw [← outside, Function.update_eq_self]
  | @leave told _ _ bye =>
      have sends : Sends True (fun _ => True) state told := bye.sends trivial
      obtain ⟨later, present, _⟩ := sends.present fd client found
      rw [roomIn_enterRoom present, sends.roomIn]

/-- A packet moves at most its sender, and only if it joins. -/
theorem Packet.roomIn {type : UInt16} {payload : Bytes}
    (packet : Packet rules fd payload type state after) :
    roomIn after.clients = roomIn state.clients ∨
      ∃ room echo, Resolves rules state.clients fd payload room echo ∧
        roomIn after.clients = Function.update (roomIn state.clients) fd (some room) := by
  have sent : ∀ {before later : State ρ}, Sends True (fun _ => True) before later →
      Epoll.roomIn later.clients = Epoll.roomIn before.clients := fun sends => sends.roomIn
  cases packet with
  | setNick =>
      refine .inl ((sent (State.queueSend_sends trivial)).trans ?_)
      exact roomIn_update _ fun _ => rfl
  | nickFirst _ _ | roomRequired _ _ _ | joinFirst _ _ =>
      exact .inl (sent (State.queueSend_sends trivial))
  | record _ _ _ => exact .inl rfl
  | chat _ _ _ told => exact .inl (sent (told.sends trivial))
  | unknown _ _ _ => exact .inl (sent State.doom_sends)
  | @join _ left _ client room echo found _ _ leaves resolve hello =>
      refine .inr ⟨room, echo, ⟨left.clients, leaves.roomIn found, resolve⟩, ?_⟩
      have every : Sends False (fun _ => True) state left := leaves.sends trivial
      obtain ⟨later, present, _⟩ := every.present fd client found
      rw [sent (hello.sends trivial), sent (State.queueSend_sends trivial),
        roomIn_enterRoom present, leaves.roomIn found, Function.update_idem]

end Rooms

/-! ## The answer -/

section Answers

variable {rules : Rules ρ} {state after : State ρ} {fd : Fd}

theorem Walk.clients_ne {type : UInt16} {payload : Bytes} {fds : List Fd}
    (walk : Walk rules (State.queueSend type payload) fds state after) (absent : fd ∉ fds) :
    after.clients fd = state.clients fd := by
  induction walk with
  | nil => rfl
  | skip _ _ ih => exact ih fun member => absent (List.mem_cons_of_mem _ member)
  | @visit visited _ _ _ _ _ follows _ ih =>
      have apart : fd ≠ visited := fun same => absent (same ▸ List.mem_cons_self)
      rw [ih fun member => absent (List.mem_cons_of_mem _ member), follows.clients_ne apart,
        State.queueSend_clients_ne apart]

/-- Who a broadcast leaves out is not told and not touched. -/
theorem Broadcast.spares {room : ρ} {type : UInt16} {payload : Bytes}
    (told : Broadcast rules room type payload (some fd) state after) :
    (∃ body, after.trace = state.trace ++ body ∧ appendsTo fd body = []) ∧
      after.clients fd = state.clients fd := by
  obtain ⟨members, nodup, member, walk⟩ := told
  have absent : fd ∉ members := fun listed => ((member fd).mp listed).1 rfl
  obtain ⟨body, grown, _, misses⟩ := walk.appends nodup
  exact ⟨⟨body, grown, misses fd fun wrong => absent wrong.1⟩, walk.clients_ne absent⟩

/-- The switch of rooms leaves everything of the connection but its room. -/
theorem Switch.spares {client : Client ρ} (found : state.clients fd = some client)
    (leaves : Switch rules fd client state after) :
    (∃ body, after.trace = state.trace ++ body ∧ appendsTo fd body = []) ∧
      after.clients fd = some { client with room := none } := by
  cases leaves with
  | stay nowhere =>
      have same : { client with room := none } = client := by rw [← nowhere]
      exact ⟨⟨[], (List.append_nil _).symm, rfl⟩, by rw [same, found]⟩
  | leave _ bye =>
      obtain ⟨silent, same⟩ := bye.spares
      exact ⟨silent, by simp [State.enterRoom, same, found]⟩

theorem queueSend_answers (type : UInt16) (line : Bytes) (opened : state.Open fd) :
    ∃ body, (state.queueSend type line fd).trace = state.trace ++ body ∧
      (Fits state.clients fd line → appendsTo fd body = [(type, line)]) ∧
      (¬ Fits state.clients fd line → appendsTo fd body = []) := by
  rcases State.queueSend_cases type line opened with
    ⟨long, same⟩ | ⟨short, takes, same⟩ | ⟨short, refuses, same⟩
  · exact ⟨[], by rw [same, List.append_nil], fun fits => absurd fits.1 (Nat.not_le.mpr long),
      fun _ => rfl⟩
  · refine ⟨[.append fd type line], by rw [same]; rfl, fun _ => ?_, fun wrong => ?_⟩
    · simp [appendsTo]
    · exact absurd ⟨short, takes⟩ wrong
  · have sends : Sends True (fun _ => False) state (state.refuse fd line) := State.refuse_sends
    obtain ⟨body, grown, silent⟩ := sends.trace
    exact ⟨body, by rw [same, grown], fun fits => absurd fits.2 refuses, fun _ => appendsTo_none silent⟩

theorem Packet.greets {type : UInt16} {payload : Bytes} {body : List (Obs ρ)} (opened : state.Open fd)
    (packet : Packet rules fd payload type state after)
    (grown : after.trace = state.trace ++ body) :
    Greets rules state.clients fd type payload body := by
  intro isJoin entering
  obtain ⟨sender, senderFound, senderOpen⟩ := opened
  simp only [enters, senderFound, Option.elim_some, Bool.and_eq_true, decide_eq_true_eq]
    at entering
  cases packet with
  | setNick | joinFirst _ _ | record _ _ _ | chat _ _ _ _ => cases isJoin
  | unknown _ notJoin _ => exact absurd isJoin notJoin
  | nickFirst found nameless =>
      rw [senderFound, Option.some.injEq] at found
      exact absurd (found ▸ nameless) entering.1
  | roomRequired _ _ empty => exact absurd empty entering.2
  | @join _ left _ client room echo found _ _ leaves resolve hello =>
      obtain ⟨⟨early, earlyGrown, earlyNone⟩, after⟩ := leaves.spares found
      obtain ⟨⟨late, lateGrown, lateNone⟩, _⟩ := hello.spares
      have seated : (left.enterRoom fd (some room)).clients fd =
          some { client with room := some room } := by simp [State.enterRoom, after]
      have closing : client.closing = false := by
        rw [found, Option.some.injEq] at senderFound
        exact senderFound ▸ senderOpen
      obtain ⟨own, ownGrown, gets, misses⟩ := @queueSend_answers ρ (left.enterRoom fd (some room)) fd
        sNotice (joinedNotice echo) ⟨_, seated, closing⟩
      have fits : Fits (left.enterRoom fd (some room)).clients fd (joinedNotice echo) ↔
          Fits state.clients fd (joinedNotice echo) := by
        simp [Fits, seated, found]
      have whole : body = early ++ own ++ late := by
        have same := lateGrown
        rw [ownGrown, show (left.enterRoom fd (some room)).trace = left.trace from rfl, earlyGrown,
          grown, List.append_assoc, List.append_assoc, List.append_cancel_left_eq] at same
        rw [same, List.append_assoc]
      refine ⟨room, echo, ⟨left.clients, leaves.roomIn found, resolve⟩, fun within => ?_,
        fun beyond => ?_⟩
      · rw [whole, appendsTo_append, appendsTo_append, earlyNone, lateNone, gets (fits.mpr within)]
        rfl
      · rw [whole, appendsTo_append, appendsTo_append, earlyNone, lateNone, misses (mt fits.mp beyond)]
        rfl

/-- Bytes that are not read yet have no say in the answer. -/
theorem Greets.unread {type : UInt16} {payload rest : Bytes} {body : List (Obs ρ)}
    (greets : Greets rules (state.setInput fd rest).clients fd type payload body) :
    Greets rules state.clients fd type payload body := by
  have rooms : roomIn (state.setInput fd rest).clients = roomIn state.clients :=
    roomIn_update _ fun _ => rfl
  have entering : enters (state.setInput fd rest).clients fd payload =
      enters state.clients fd payload := by
    cases found : state.clients fd <;> simp [enters, State.setInput, found]
  have fits : ∀ line, Fits (state.setInput fd rest).clients fd line ↔
      Fits state.clients fd line := by
    intro line
    cases found : state.clients fd <;> simp [Fits, State.setInput, found]
  simp only [Greets, Resolves, rooms, entering, fits] at greets
  exact greets

end Answers

/-! ## Runs -/

theorem joins_outside {trace : List (Obs ρ)} (outside : ∀ obs ∈ trace, obs.Outside) :
    joins trace = [] := by
  induction trace with
  | nil => rfl
  | cons obs trace ih =>
      have rest := ih fun other member => outside other (List.mem_cons_of_mem _ member)
      have first := outside obs List.mem_cons_self
      cases obs <;> first | exact rest | exact first.elim

/-- Every packet of the trace has come to its end. -/
def Ended : List (Obs ρ) → Prop
  | [] => True
  | .packet _ _ _ _ :: trace => (∃ obs ∈ trace, obs.ends = true) ∧ Ended trace
  | _ :: trace => Ended trace

theorem joins_append {trace : List (Obs ρ)} (ended : Ended trace) (more : List (Obs ρ)) :
    joins (trace ++ more) = joins trace ++ joins more := by
  induction trace with
  | nil => rfl
  | cons obs trace ih =>
      cases obs with
      | packet clients fd type payload =>
          obtain ⟨⟨last, member, ends⟩, rest⟩ := ended
          have cut : (trace ++ more).takeWhile (!·.ends) = trace.takeWhile (!·.ends) := by
            refine List.takeWhile_append.trans (if_neg fun whole => ?_)
            have all := List.takeWhile_eq_self_iff.mp
              ((List.takeWhile_prefix _).eq_of_length whole) last member
            rw [ends] at all
            cases all
          simp only [List.cons_append, joins, cut, ih rest]
          split <;> rfl
      | _ => exact ih ended

theorem Ended.append {trace more : List (Obs ρ)} (first : Ended trace) (second : Ended more) :
    Ended (trace ++ more) := by
  induction trace with
  | nil => exact second
  | cons obs trace ih =>
      cases obs with
      | packet clients fd type payload =>
          obtain ⟨⟨last, member, ends⟩, rest⟩ := first
          exact ⟨⟨last, List.mem_append_left _ member, ends⟩, ih rest⟩
      | _ => exact ih first

theorem ended_outside {trace : List (Obs ρ)} (outside : ∀ obs ∈ trace, obs.Outside) :
    Ended trace := by
  induction trace with
  | nil => trivial
  | cons obs trace ih =>
      have rest := ih fun other member => outside other (List.mem_cons_of_mem _ member)
      have first := outside obs List.mem_cons_self
      cases obs <;> first | exact rest | exact first.elim

/-- The joins of a run are packets that do what the rule says. -/
theorem Packets.joins {does : Table ρ → Fd → UInt16 → Bytes → List (Obs ρ) → Prop}
    {trace : List (Obs ρ)} (packets : Packets does trace) :
    Ended trace ∧ ∀ join ∈ joins trace, enters join.clients join.fd join.payload = true ∧
      ∃ body, join.answers = appendsTo join.fd body ∧
        does join.clients join.fd cJoin join.payload body := by
  induction packets with
  | nil => exact ⟨trivial, nofun⟩
  | @aside trace obs _ outside ih =>
      have alone : ∀ other ∈ [obs], other.Outside := by simpa using outside
      refine ⟨ih.1.append (ended_outside alone), fun join member => ?_⟩
      rw [joins_append ih.1, joins_outside alone, List.append_nil] at member
      exact ih.2 join member
  | @packet trace body clients fd type payload closing _ sending does_ ih =>
      have silent : ∀ obs ∈ body, (!obs.ends) = true := by
        intro obs member
        have outside := (sending obs member).outside
        cases obs <;> first | rfl | exact outside.elim
      have cut : (body ++ [Obs.handled fd closing]).takeWhile (!·.ends) = body := by
        rw [List.takeWhile_append_of_pos silent]
        simp [Obs.ends]
      have inner : Epoll.joins (body ++ [Obs.handled fd closing]) = [] := by
        rw [joins_append (ended_outside fun obs member => (sending obs member).outside),
          joins_outside fun obs member => (sending obs member).outside]
        rfl
      have bracket : Ended (.packet clients fd type payload :: (body ++ [.handled fd closing])) := by
        refine ⟨⟨.handled fd closing, List.mem_append_right _ List.mem_cons_self, rfl⟩, ?_⟩
        exact (ended_outside fun obs member => (sending obs member).outside).append trivial
      rw [List.append_assoc, List.cons_append]
      refine ⟨ih.1.append bracket, fun join member => ?_⟩
      rw [joins_append ih.1, List.mem_append] at member
      rcases member with before | now
      · exact ih.2 join before
      · simp only [Epoll.joins, inner, cut] at now
        split at now
        next enter =>
          obtain ⟨rfl, entering⟩ := enter
          rw [List.mem_singleton] at now
          subst now
          exact ⟨entering, body, rfl, does_⟩
        · cases now

end NetEngine.Epoll
