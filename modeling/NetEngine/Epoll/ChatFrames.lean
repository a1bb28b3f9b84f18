import Mathlib.Logic.Function.Basic
import NetEngine.Epoll.Chat

/-! What the operations of the event loop leave alone. Sending touches the send
side of connections only: names, rooms and buffered input stay, a mark to close
stays, and the trace grows by sending events. -/

set_option autoImplicit false

namespace NetEngine.Epoll

open Socket

variable {ρ : Type}

/-- The same connection, at most further along on its send side; with `names`,
also under the same name and in the same room. -/
structure Client.Carries (names : Prop) (client later : Client ρ) : Prop where
  nick : names → later.nick = client.nick
  room : names → later.room = client.room
  input : later.input = client.input
  closing : client.closing = true → later.closing = true

theorem Client.Carries.refl {names : Prop} (client : Client ρ) : client.Carries names client :=
  ⟨fun _ => rfl, fun _ => rfl, rfl, id⟩

theorem Client.Carries.trans {names : Prop} {first second third : Client ρ}
    (left : first.Carries names second) (right : second.Carries names third) :
    first.Carries names third :=
  ⟨fun named => (right.nick named).trans (left.nick named),
    fun named => (right.room named).trans (left.room named), right.input.trans left.input,
    fun closing => right.closing (left.closing closing)⟩

/-- An event of the send side; frames are of the given types. -/
def Obs.Sending (types : UInt16 → Prop) : Obs ρ → Prop
  | .append _ type _ => types type
  | .overCap .. | .send .. | .mask .. | .doomed _ => True
  | _ => False

/-- Only the send sides moved, and the doomed list grew by what was shut. -/
structure Sends (names : Prop) (types : UInt16 → Prop) (state after : State ρ) : Prop where
  absent : ∀ fd, state.clients fd = none → after.clients fd = none
  present : ∀ fd client, state.clients fd = some client →
    ∃ later, after.clients fd = some later ∧ client.Carries names later
  size : after.size = state.size
  running : after.running = state.running
  trace : ∃ more, after.trace = state.trace ++ more ∧ ∀ obs ∈ more, obs.Sending types
  doomed : ∃ more, after.doomed = state.doomed ++ more ∧ more.Nodup ∧
    ∀ fd, fd ∈ more ↔ state.Open fd ∧ ¬ after.Open fd

theorem State.open_iff {state : State ρ} {fd : Fd} {client : Client ρ}
    (found : state.clients fd = some client) : state.Open fd ↔ client.closing = false := by
  simp [Open, found]

namespace Sends

variable {names : Prop} {types : UInt16 → Prop} {state middle after : State ρ}

/-- Sends that shut nothing: the marks to close are what they were. -/
theorem of_open (absent : ∀ fd, state.clients fd = none → after.clients fd = none)
    (present : ∀ fd client, state.clients fd = some client → ∃ later,
      after.clients fd = some later ∧ client.Carries names later ∧ later.closing = client.closing)
    (size : after.size = state.size) (running : after.running = state.running)
    (trace : ∃ more, after.trace = state.trace ++ more ∧ ∀ obs ∈ more, obs.Sending types)
    (doomed : after.doomed = state.doomed) : Sends names types state after := by
  refine ⟨absent, ?_, size, running, trace, [], by rw [doomed, List.append_nil], .nil, ?_⟩
  · intro fd client found
    obtain ⟨later, laterFound, carries, _⟩ := present fd client found
    exact ⟨later, laterFound, carries⟩
  · intro fd
    constructor
    · simp
    · rintro ⟨⟨client, found, opened⟩, shut⟩
      obtain ⟨later, laterFound, _, closing⟩ := present fd client found
      exact absurd ⟨later, laterFound, closing.trans opened⟩ shut

theorem refl (state : State ρ) : Sends names types state state :=
  of_open (fun _ absent => absent) (fun _ client found => ⟨client, found, .refl client, rfl⟩) rfl
    rfl ⟨[], (List.append_nil _).symm, by simp⟩ rfl

theorem open_back (sends : Sends names types state after) {fd : Fd} (opened : after.Open fd) :
    state.Open fd := by
  obtain ⟨later, laterFound, laterOpen⟩ := opened
  cases before : state.clients fd with
  | none =>
      rw [sends.absent fd before] at laterFound
      cases laterFound
  | some client =>
      obtain ⟨other, found, carries⟩ := sends.present fd client before
      rw [laterFound, Option.some.injEq] at found
      subst found
      cases closing : client.closing with
      | false => exact ⟨client, before, closing⟩
      | true => rw [carries.closing closing] at laterOpen; cases laterOpen

theorem trans (first : Sends names types state middle) (second : Sends names types middle after) :
    Sends names types state after := by
  obtain ⟨early, earlyTrace, earlyEvents⟩ := first.trace
  obtain ⟨late, lateTrace, lateEvents⟩ := second.trace
  obtain ⟨shut, shutDoomed, shutNodup, shutMember⟩ := first.doomed
  obtain ⟨more, moreDoomed, moreNodup, moreMember⟩ := second.doomed
  constructor
  · exact fun fd absent => second.absent fd (first.absent fd absent)
  · intro fd client found
    obtain ⟨later, laterFound, left⟩ := first.present fd client found
    obtain ⟨last, lastFound, right⟩ := second.present fd later laterFound
    exact ⟨last, lastFound, left.trans right⟩
  · exact second.size.trans first.size
  · exact second.running.trans first.running
  · refine ⟨early ++ late, by rw [lateTrace, earlyTrace, List.append_assoc], ?_⟩
    intro obs member
    rcases List.mem_append.mp member with inEarly | inLate
    · exact earlyEvents obs inEarly
    · exact lateEvents obs inLate
  · refine ⟨shut ++ more, by rw [moreDoomed, shutDoomed, List.append_assoc], ?_, ?_⟩
    · refine List.nodup_append.mpr ⟨shutNodup, moreNodup, ?_⟩
      rintro fd inShut other inMore rfl
      exact ((shutMember fd).mp inShut).2 ((moreMember fd).mp inMore).1
    · intro fd
      rw [List.mem_append, shutMember, moreMember]
      constructor
      · rintro (⟨opened, closed⟩ | ⟨opened, closed⟩)
        · exact ⟨opened, fun still => closed (second.open_back still)⟩
        · exact ⟨first.open_back opened, closed⟩
      · rintro ⟨opened, closed⟩
        by_cases still : middle.Open fd
        · exact .inr ⟨still, closed⟩
        · exact .inl ⟨opened, still⟩

theorem weaken {fewer : Prop} {more : UInt16 → Prop} (named : fewer → names)
    (wider : ∀ type, types type → more type) (sends : Sends names types state after) :
    Sends fewer more state after := by
  obtain ⟨events, trace, sending⟩ := sends.trace
  refine ⟨sends.absent, ?_, sends.size, sends.running, ⟨events, trace, ?_⟩, sends.doomed⟩
  · intro fd client found
    obtain ⟨later, laterFound, carries⟩ := sends.present fd client found
    exact ⟨later, laterFound, fun few => carries.nick (named few), fun few =>
      carries.room (named few), carries.input, carries.closing⟩
  · intro obs member
    have holds := sending obs member
    cases obs <;> first | exact wider _ holds | exact holds

theorem live_iff (sends : Sends names types state after) (fd : Fd) :
    after.Live fd ↔ state.Live fd := by
  constructor
  · rintro ⟨later, found⟩
    cases before : state.clients fd with
    | none =>
        rw [sends.absent fd before] at found
        cases found
    | some client => exact ⟨client, before⟩
  · rintro ⟨client, found⟩
    obtain ⟨later, laterFound, _⟩ := sends.present fd client found
    exact ⟨later, laterFound⟩

/-- What a client after the sends was before them. -/
theorem back (sends : Sends names types state after) {fd : Fd} {later : Client ρ}
    (found : after.clients fd = some later) :
    ∃ client, state.clients fd = some client ∧ client.Carries names later := by
  obtain ⟨client, before⟩ := (sends.live_iff fd).mp ⟨later, found⟩
  obtain ⟨other, otherFound, carries⟩ := sends.present fd client before
  rw [found, Option.some.injEq] at otherFound
  subst otherFound
  exact ⟨client, before, carries⟩

theorem inRoom_iff (sends : Sends True types state after) (room : ρ) (fd : Fd) :
    after.InRoom room fd ↔ state.InRoom room fd := by
  constructor
  · rintro ⟨later, found, inside⟩
    obtain ⟨client, before, carries⟩ := sends.back found
    exact ⟨client, before, (carries.room trivial).symm.trans inside⟩
  · rintro ⟨client, found, inside⟩
    obtain ⟨later, laterFound, carries⟩ := sends.present fd client found
    exact ⟨later, laterFound, (carries.room trivial).trans inside⟩

end Sends

/-! ## Operations on one connection -/

namespace State

variable {state : State ρ} {fd other : Fd}

@[simp] theorem emit_clients (obs : Obs ρ) : (state.emit obs).clients = state.clients := rfl
@[simp] theorem emit_trace (obs : Obs ρ) : (state.emit obs).trace = state.trace ++ [obs] := rfl
@[simp] theorem emit_dirty (obs : Obs ρ) : (state.emit obs).dirty = state.dirty := rfl
@[simp] theorem emit_doomed (obs : Obs ρ) : (state.emit obs).doomed = state.doomed := rfl
@[simp] theorem emit_size (obs : Obs ρ) : (state.emit obs).size = state.size := rfl
@[simp] theorem emit_running (obs : Obs ρ) : (state.emit obs).running = state.running := rfl
@[simp] theorem update_trace (change : Client ρ → Client ρ) :
    (state.update fd change).trace = state.trace := rfl
@[simp] theorem update_dirty (change : Client ρ → Client ρ) :
    (state.update fd change).dirty = state.dirty := rfl
@[simp] theorem update_doomed (change : Client ρ → Client ρ) :
    (state.update fd change).doomed = state.doomed := rfl
@[simp] theorem update_size (change : Client ρ → Client ρ) :
    (state.update fd change).size = state.size := rfl
@[simp] theorem update_running (change : Client ρ → Client ρ) :
    (state.update fd change).running = state.running := rfl

@[simp] theorem update_clients (change : Client ρ → Client ρ) :
    (state.update fd change).clients fd = (state.clients fd).map change := by
  simp [update]

@[simp] theorem update_clients_ne (change : Client ρ → Client ρ) (apart : other ≠ fd) :
    (state.update fd change).clients other = state.clients other := by
  simp [update, apart]

theorem update_congr {client : Client ρ} {change other : Client ρ → Client ρ}
    (found : state.clients fd = some client) (same : change client = other client) :
    state.update fd change = state.update fd other := by
  simp only [update, found, Option.map_some, same]

theorem update_sends {names : Prop} {types : UInt16 → Prop} (change : Client ρ → Client ρ)
    (carries : ∀ client : Client ρ, client.Carries names (change client))
    (same : ∀ client : Client ρ, (change client).closing = client.closing) :
    Sends names types state (state.update fd change) := by
  refine .of_open ?_ ?_ rfl rfl ⟨[], (List.append_nil _).symm, by simp⟩ rfl
  · intro other absent
    by_cases own : other = fd
    · subst own
      simp [absent]
    · simp [own, absent]
  · intro other client found
    by_cases own : other = fd
    · subst own
      exact ⟨change client, by simp [found], carries client, same client⟩
    · exact ⟨client, by simp [own, found], .refl client, rfl⟩

theorem emit_sends {names : Prop} {types : UInt16 → Prop} (obs : Obs ρ)
    (sending : obs.Sending types) : Sends names types state (state.emit obs) :=
  .of_open (fun _ absent => absent) (fun _ client found => ⟨client, found, .refl client, rfl⟩) rfl
    rfl ⟨[obs], rfl, by simpa using sending⟩ rfl

theorem update_emit_sends {names : Prop} {types : UInt16 → Prop} (change : Client ρ → Client ρ)
    (carries : ∀ client : Client ρ, client.Carries names (change client))
    (same : ∀ client : Client ρ, (change client).closing = client.closing) (obs : Obs ρ)
    (sending : obs.Sending types) : Sends names types state ((state.update fd change).emit obs) :=
  (update_sends change carries same).trans (emit_sends obs sending)

/-! ### doom -/

theorem doom_open {client : Client ρ} (found : state.clients fd = some client)
    (opened : client.closing = false) :
    state.doom fd =
      { (state.update fd fun client => { client with closing := true }).emit (.doomed fd) with
        doomed := state.doomed ++ [fd] } := by
  simp [doom, found, opened]

theorem doom_not_open (shut : ¬ state.Open fd) : state.doom fd = state := by
  unfold doom
  split
  · rfl
  next client found =>
    have closing : client.closing = true := by simpa [open_iff found] using shut
    simp [closing]

theorem doom_shuts : ¬ (state.doom fd).Open fd := by
  by_cases opened : state.Open fd
  · obtain ⟨client, found, closing⟩ := opened
    rw [doom_open found closing]
    simp [Open, found]
  · rwa [doom_not_open opened]

@[simp] theorem doom_clients_ne (apart : other ≠ fd) :
    (state.doom fd).clients other = state.clients other := by
  unfold doom
  split
  · rfl
  · split <;> simp [apart]

@[simp] theorem doom_dirty : (state.doom fd).dirty = state.dirty := by
  unfold doom
  split
  · rfl
  · split <;> simp

theorem doom_sends {names : Prop} {types : UInt16 → Prop} :
    Sends names types state (state.doom fd) := by
  by_cases opened : state.Open fd
  · obtain ⟨client, found, closing⟩ := opened
    have shut : ¬ (state.doom fd).Open fd := doom_shuts
    rw [doom_open found closing] at shut ⊢
    refine ⟨?_, ?_, rfl, rfl, ⟨[.doomed fd], rfl, by simp [Obs.Sending]⟩, [fd], rfl, by simp, ?_⟩
    · intro other absent
      have apart : other ≠ fd := by
        rintro rfl
        rw [found] at absent
        cases absent
      simp [apart, absent]
    · intro other before beforeFound
      by_cases own : other = fd
      · subst own
        exact ⟨{ before with closing := true }, by simp [beforeFound],
          fun _ => rfl, fun _ => rfl, rfl, fun _ => rfl⟩
      · exact ⟨before, by simp [own, beforeFound], .refl before⟩
    · intro other
      rw [List.mem_singleton]
      constructor
      · rintro rfl
        exact ⟨⟨client, found, closing⟩, shut⟩
      · rintro ⟨otherOpen, otherShut⟩
        by_contra apart
        refine otherShut ?_
        obtain ⟨before, beforeFound, beforeOpen⟩ := otherOpen
        exact ⟨before, by simp [apart, beforeFound], beforeOpen⟩
  · rw [doom_not_open opened]
    exact .refl _

/-! ### queue_send -/

/-- Whether a frame with this payload goes onto the queue. -/
def Takes (state : State ρ) (fd : Fd) (payload : Bytes) : Prop :=
  ∃ client, state.clients fd = some client ∧ client.closing = false ∧
    client.pending.length + headerSize + payload.length ≤ sendCap

def append (state : State ρ) (fd : Fd) (type : UInt16) (payload : Bytes) : State ρ :=
  (state.update fd fun client =>
    { client with pending := client.pending ++ Framing.encode type payload }).emit
      (.append fd type payload)

def refuse (state : State ρ) (fd : Fd) (payload : Bytes) : State ρ :=
  (state.emit (.overCap fd (headerSize + payload.length))).doom fd

theorem enqueue_cases (type : UInt16) (payload : Bytes) (opened : state.Open fd) :
    state.Takes fd payload ∧ state.enqueue fd type payload = state.append fd type payload ∨
      ¬ state.Takes fd payload ∧ state.enqueue fd type payload = state.refuse fd payload := by
  obtain ⟨client, found, closing⟩ := opened
  by_cases beyond : sendCap < client.pending.length + headerSize + payload.length
  · refine .inr ⟨?_, by simp [enqueue, found, beyond, refuse]⟩
    rintro ⟨same, sameFound, _, fits⟩
    rw [found, Option.some.injEq] at sameFound
    subst sameFound
    exact absurd fits (Nat.not_le.mpr beyond)
  · exact .inl ⟨⟨client, found, closing, Nat.not_lt.mp beyond⟩, by simp [enqueue, found, beyond, append]⟩

theorem queueSend_shut {type : UInt16} {payload : Bytes} (shut : ¬ state.Open fd) :
    state.queueSend type payload fd = state := by
  unfold queueSend
  split
  · rfl
  next client found =>
    have closing : client.closing = true := by simpa [open_iff found] using shut
    simp [closing]

/-- Everything that `queue_send` can do to an open connection. -/
theorem queueSend_cases (type : UInt16) (payload : Bytes) (opened : state.Open fd) :
    maxPayload < payload.length ∧ state.queueSend type payload fd = state ∨
      payload.length ≤ maxPayload ∧ state.Takes fd payload ∧
        state.queueSend type payload fd = state.append fd type payload ∨
      payload.length ≤ maxPayload ∧ ¬ state.Takes fd payload ∧
        state.queueSend type payload fd = state.refuse fd payload := by
  obtain ⟨client, found, closing⟩ := id opened
  by_cases long : maxPayload < payload.length
  · exact .inl ⟨long, by simp [queueSend, found, closing, long]⟩
  · have same : state.queueSend type payload fd = state.enqueue fd type payload := by
      simp [queueSend, found, closing, long]
    rw [same]
    rcases enqueue_cases type payload opened with taken | refused
    · exact .inr (.inl ⟨Nat.not_lt.mp long, taken⟩)
    · exact .inr (.inr ⟨Nat.not_lt.mp long, refused⟩)

theorem queueTickFrame_cases (payload : Bytes) (opened : state.Open fd) :
    state.queueTickFrame payload fd = state.append fd sTick payload ∨
      state.queueTickFrame payload fd = state.refuse fd payload := by
  obtain ⟨client, found, closing⟩ := id opened
  have same : state.queueTickFrame payload fd = state.enqueue fd sTick payload := by
    simp [queueTickFrame, found, closing]
  rw [same]
  exact (enqueue_cases sTick payload opened).imp And.right And.right

theorem append_sends {names : Prop} {types : UInt16 → Prop} {type : UInt16} {payload : Bytes}
    (allowed : types type) : Sends names types state (state.append fd type payload) := by
  refine update_emit_sends _ ?_ ?_ _ ?_
  · exact fun _ => ⟨fun _ => rfl, fun _ => rfl, rfl, id⟩
  · exact fun _ => rfl
  · exact allowed

theorem refuse_sends {names : Prop} {types : UInt16 → Prop} {payload : Bytes} :
    Sends names types state (state.refuse fd payload) :=
  (emit_sends (.overCap fd (headerSize + payload.length)) trivial).trans doom_sends

theorem queueSend_sends {names : Prop} {types : UInt16 → Prop} {type : UInt16} {payload : Bytes}
    (allowed : types type) : Sends names types state (state.queueSend type payload fd) := by
  by_cases opened : state.Open fd
  · rcases queueSend_cases type payload opened with
      ⟨_, same⟩ | ⟨_, _, same⟩ | ⟨_, _, same⟩
    · rw [same]
      exact .refl _
    · rw [same]
      exact append_sends allowed
    · rw [same]
      exact refuse_sends
  · rw [queueSend_shut opened]
    exact .refl _

theorem queueTickFrame_sends {names : Prop} {types : UInt16 → Prop} {payload : Bytes} (allowed : types sTick)
    (opened : state.Open fd) : Sends names types state (state.queueTickFrame payload fd) := by
  rcases queueTickFrame_cases payload opened with same | same
  · rw [same]
    exact append_sends allowed
  · rw [same]
    exact refuse_sends

@[simp] theorem append_clients_ne {type : UInt16} {payload : Bytes} (apart : other ≠ fd) :
    (state.append fd type payload).clients other = state.clients other := by
  simp [append, apart]

@[simp] theorem refuse_clients_ne {payload : Bytes} (apart : other ≠ fd) :
    (state.refuse fd payload).clients other = state.clients other := by
  simp [refuse, apart]

@[simp] theorem append_dirty {type : UInt16} {payload : Bytes} :
    (state.append fd type payload).dirty = state.dirty := rfl

@[simp] theorem refuse_dirty {payload : Bytes} : (state.refuse fd payload).dirty = state.dirty := by
  simp [refuse]

@[simp] theorem queueSend_clients_ne {type : UInt16} {payload : Bytes} (apart : other ≠ fd) :
    (state.queueSend type payload fd).clients other = state.clients other := by
  by_cases opened : state.Open fd
  · rcases queueSend_cases type payload opened with
      ⟨_, same⟩ | ⟨_, _, same⟩ | ⟨_, _, same⟩ <;> simp [same, apart]
  · rw [queueSend_shut opened]

@[simp] theorem queueSend_dirty {type : UInt16} {payload : Bytes} :
    (state.queueSend type payload fd).dirty = state.dirty := by
  by_cases opened : state.Open fd
  · rcases queueSend_cases type payload opened with
      ⟨_, same⟩ | ⟨_, _, same⟩ | ⟨_, _, same⟩ <;> simp [same]
  · rw [queueSend_shut opened]

/-! ### flush_send -/

def masked (done want : Bool) (state : State ρ) (fd : Fd) : State ρ :=
  (if done then state.update fd fun client => { client with armed := want } else state).emit
    (.mask fd want done)

theorem updateEpollMask_cases (done : Bool) {client : Client ρ}
    (found : state.clients fd = some client) :
    decide (client.pending ≠ []) = client.armed ∧ state.updateEpollMask done fd = state ∨
      decide (client.pending ≠ []) ≠ client.armed ∧
        state.updateEpollMask done fd = state.masked done (decide (client.pending ≠ [])) fd := by
  by_cases same : decide (client.pending ≠ []) = client.armed
  · exact .inl ⟨same, by simp only [updateEpollMask, found, same, if_true]⟩
  · exact .inr ⟨same, by simp only [updateEpollMask, found, same, if_false, masked]⟩

theorem masked_sends {names : Prop} {types : UInt16 → Prop} {done want : Bool} :
    Sends names types state (state.masked done want fd) := by
  unfold masked
  cases done with
  | false => exact emit_sends (.mask fd want false) trivial
  | true =>
      refine update_emit_sends (fun client => { client with armed := want }) ?_
        (fun _ => rfl) _ trivial
      exact fun _ => ⟨fun _ => rfl, fun _ => rfl, rfl, id⟩

@[simp] theorem masked_clients_ne {done want : Bool} (apart : other ≠ fd) :
    (state.masked done want fd).clients other = state.clients other := by
  cases done <;> simp [masked, apart]

@[simp] theorem masked_dirty {done want : Bool} :
    (state.masked done want fd).dirty = state.dirty := by
  cases done <;> rfl

theorem updateEpollMask_sends {names : Prop} {types : UInt16 → Prop} {done : Bool} :
    Sends names types state (state.updateEpollMask done fd) := by
  cases found : state.clients fd with
  | none =>
      rw [updateEpollMask, found]
      exact .refl _
  | some client =>
      rcases updateEpollMask_cases done found with ⟨_, same⟩ | ⟨_, same⟩
      · rw [same]
        exact .refl _
      · rw [same]
        exact masked_sends

@[simp] theorem updateEpollMask_clients_ne {done : Bool} (apart : other ≠ fd) :
    (state.updateEpollMask done fd).clients other = state.clients other := by
  cases found : state.clients fd with
  | none => rw [updateEpollMask, found]
  | some client =>
      rcases updateEpollMask_cases done found with ⟨_, same⟩ | ⟨_, same⟩ <;> simp [same, apart]

@[simp] theorem updateEpollMask_dirty {done : Bool} :
    (state.updateEpollMask done fd).dirty = state.dirty := by
  cases found : state.clients fd with
  | none => rw [updateEpollMask, found]
  | some client =>
      rcases updateEpollMask_cases done found with ⟨_, same⟩ | ⟨_, same⟩ <;> simp [same]

/-- The state behind the send loop of a connection that has bytes to send. -/
def sent (state : State ρ) (fd : Fd) (loop : Sent UInt8) : State ρ :=
  (state.update fd fun client => { client with pending := loop.rest }).emit
    (.send fd loop.sent loop.how)

theorem flushSend_cases (answers : List SendAnswer) (done : Bool) {client : Client ρ}
    (found : state.clients fd = some client) :
    client.pending = [] ∧ state.flushSend answers done fd = state.updateEpollMask done fd ∨
      client.pending ≠ [] ∧ (sendLoop client.pending answers).how = .broken ∧
        state.flushSend answers done fd =
          (state.sent fd (sendLoop client.pending answers)).doom fd ∨
      client.pending ≠ [] ∧ (sendLoop client.pending answers).how ≠ .broken ∧
        state.flushSend answers done fd =
          (state.sent fd (sendLoop client.pending answers)).updateEpollMask done fd := by
  by_cases empty : client.pending = []
  · exact .inl ⟨empty, by simp [flushSend, found, empty]⟩
  · by_cases broken : (sendLoop client.pending answers).how = .broken
    · exact .inr (.inl ⟨empty, broken, by simp [flushSend, found, empty, broken, sent]⟩)
    · exact .inr (.inr ⟨empty, broken, by simp [flushSend, found, empty, broken, sent]⟩)

theorem flushSend_absent {answers : List SendAnswer} {done : Bool}
    (absent : state.clients fd = none) : state.flushSend answers done fd = state := by
  rw [flushSend, absent]

theorem sent_sends {names : Prop} {types : UInt16 → Prop} {loop : Sent UInt8} :
    Sends names types state (state.sent fd loop) := by
  refine update_emit_sends _ ?_ ?_ _ ?_
  · exact fun _ => ⟨fun _ => rfl, fun _ => rfl, rfl, id⟩
  · exact fun _ => rfl
  · trivial

@[simp] theorem sent_clients_ne {loop : Sent UInt8} (apart : other ≠ fd) :
    (state.sent fd loop).clients other = state.clients other := by
  simp [sent, apart]

@[simp] theorem sent_dirty {loop : Sent UInt8} : (state.sent fd loop).dirty = state.dirty := rfl

theorem flushSend_sends {names : Prop} {types : UInt16 → Prop} {answers : List SendAnswer} {done : Bool} :
    Sends names types state (state.flushSend answers done fd) := by
  cases found : state.clients fd with
  | none =>
      rw [flushSend_absent found]
      exact .refl _
  | some client =>
      rcases flushSend_cases answers done found with ⟨_, same⟩ | ⟨_, _, same⟩ | ⟨_, _, same⟩
      · rw [same]
        exact updateEpollMask_sends
      · rw [same]
        exact sent_sends.trans doom_sends
      · rw [same]
        exact sent_sends.trans updateEpollMask_sends

@[simp] theorem flushSend_clients_ne {answers : List SendAnswer} {done : Bool}
    (apart : other ≠ fd) : (state.flushSend answers done fd).clients other = state.clients other := by
  cases found : state.clients fd with
  | none => rw [flushSend_absent found]
  | some client =>
      rcases flushSend_cases answers done found with ⟨_, same⟩ | ⟨_, _, same⟩ | ⟨_, _, same⟩ <;>
        simp [same, apart]

@[simp] theorem flushSend_dirty {answers : List SendAnswer} {done : Bool} :
    (state.flushSend answers done fd).dirty = state.dirty := by
  cases found : state.clients fd with
  | none => rw [flushSend_absent found]
  | some client =>
      rcases flushSend_cases answers done found with ⟨_, same⟩ | ⟨_, _, same⟩ | ⟨_, _, same⟩ <;>
        simp [same]

/-! ### The dirty list -/

theorem markDirty_cases (state : State ρ) (fd : Fd) :
    (∃ client, state.clients fd = some client ∧ client.dirty = false ∧ client.pending ≠ [] ∧
      state.markDirty fd =
        { state.update fd fun client => { client with dirty := true } with
          dirty := state.dirty ++ [fd] }) ∨
      (∀ client, state.clients fd = some client → client.dirty = true ∨ client.pending = []) ∧
        state.markDirty fd = state := by
  cases found : state.clients fd with
  | none => exact .inr ⟨by simp, by rw [markDirty, found]⟩
  | some client =>
      by_cases fresh : client.dirty = false ∧ client.pending ≠ []
      · exact .inl ⟨client, rfl, fresh.1, fresh.2, by simp [markDirty, found, fresh]⟩
      · refine .inr ⟨?_, by simp only [markDirty, found, fresh, if_false]⟩
        rintro same ⟨⟩
        cases mark : client.dirty with
        | true => exact .inl rfl
        | false => exact .inr (by simpa [mark] using fresh)

theorem markDirty_sends {names : Prop} {types : UInt16 → Prop} : Sends names types state (state.markDirty fd) := by
  rcases markDirty_cases state fd with ⟨client, _, _, _, same⟩ | ⟨_, same⟩
  · have first : Sends names types state
        (state.update fd fun client => { client with dirty := true }) :=
      update_sends _ (fun _ => ⟨fun _ => rfl, fun _ => rfl, rfl, id⟩) fun _ => rfl
    rw [same]
    exact ⟨first.absent, first.present, first.size, first.running, first.trace, first.doomed⟩
  · rw [same]
    exact .refl _

@[simp] theorem markDirty_clients_ne (apart : other ≠ fd) :
    (state.markDirty fd).clients other = state.clients other := by
  rcases markDirty_cases state fd with ⟨client, _, _, _, same⟩ | ⟨_, same⟩ <;> simp [same, apart]

theorem setNick_sends {types : UInt16 → Prop} {nick : Bytes} :
    Sends False types state (state.setNick fd nick) :=
  update_sends _ (fun _ => ⟨False.elim, False.elim, rfl, id⟩) fun _ => rfl

theorem enterRoom_sends {types : UInt16 → Prop} {room : Option ρ} :
    Sends False types state (state.enterRoom fd room) :=
  update_sends _ (fun _ => ⟨False.elim, False.elim, rfl, id⟩) fun _ => rfl

theorem clean_sends {names : Prop} {types : UInt16 → Prop} : Sends names types state (state.clean fd) :=
  update_sends _ (fun _ => ⟨fun _ => rfl, fun _ => rfl, rfl, id⟩) fun _ => rfl

end State

/-! ## One connection at a time -/

/-- The connection that an event is about. -/
def Obs.About (fd : Fd) : Obs ρ → Prop
  | .wake => False
  | .accepted other | .refused other | .recv other _ | .packet _ other _ _ | .handled other _
  | .oversize other | .parsed other _ _ | .append other _ _ | .overCap other _ | .send other _ _
  | .mask other _ _ | .doomed other | .departs _ other | .closed other => other = fd

/-- Nothing but one connection moved. -/
structure Only (fd : Fd) (state after : State ρ) : Prop where
  clients : ∀ other, other ≠ fd → after.clients other = state.clients other
  trace : ∃ more, after.trace = state.trace ++ more ∧ ∀ obs ∈ more, obs.About fd

namespace Only

variable {fd : Fd} {state middle after : State ρ}

theorem refl (state : State ρ) : Only fd state state :=
  ⟨fun _ _ => rfl, [], (List.append_nil _).symm, by simp⟩

theorem trans (first : Only fd state middle) (second : Only fd middle after) :
    Only fd state after := by
  obtain ⟨early, earlyTrace, earlyEvents⟩ := first.trace
  obtain ⟨late, lateTrace, lateEvents⟩ := second.trace
  refine ⟨fun other apart => (second.clients other apart).trans (first.clients other apart),
    early ++ late, by rw [lateTrace, earlyTrace, List.append_assoc], ?_⟩
  intro obs member
  rcases List.mem_append.mp member with inEarly | inLate
  · exact earlyEvents obs inEarly
  · exact lateEvents obs inLate

end Only

namespace State

variable {state : State ρ} {fd : Fd}

theorem emit_only (obs : Obs ρ) (about : obs.About fd) : Only fd state (state.emit obs) :=
  ⟨fun _ _ => rfl, [obs], rfl, by simpa using about⟩

theorem update_only (change : Client ρ → Client ρ) : Only fd state (state.update fd change) :=
  ⟨fun _ apart => update_clients_ne change apart, [], (List.append_nil _).symm, by simp⟩

theorem doom_only : Only fd state (state.doom fd) := by
  refine ⟨fun _ => doom_clients_ne, ?_⟩
  by_cases opened : state.Open fd
  · obtain ⟨client, found, closing⟩ := opened
    rw [doom_open found closing]
    exact ⟨[.doomed fd], rfl, by simp [Obs.About]⟩
  · rw [doom_not_open opened]
    exact ⟨[], (List.append_nil _).symm, by simp⟩

theorem append_only {type : UInt16} {payload : Bytes} :
    Only fd state (state.append fd type payload) :=
  (update_only _).trans (emit_only (.append fd type payload) rfl)

theorem refuse_only {payload : Bytes} : Only fd state (state.refuse fd payload) :=
  (emit_only (.overCap fd (headerSize + payload.length)) rfl).trans doom_only

theorem queueSend_only {type : UInt16} {payload : Bytes} :
    Only fd state (state.queueSend type payload fd) := by
  by_cases opened : state.Open fd
  · rcases queueSend_cases type payload opened with ⟨_, same⟩ | ⟨_, _, same⟩ | ⟨_, _, same⟩
    · rw [same]
      exact .refl _
    · rw [same]
      exact append_only
    · rw [same]
      exact refuse_only
  · rw [queueSend_shut opened]
    exact .refl _

theorem queueTickFrame_only {payload : Bytes} (opened : state.Open fd) :
    Only fd state (state.queueTickFrame payload fd) := by
  rcases queueTickFrame_cases payload opened with same | same
  · rw [same]
    exact append_only
  · rw [same]
    exact refuse_only

theorem updateEpollMask_only {done : Bool} : Only fd state (state.updateEpollMask done fd) := by
  cases found : state.clients fd with
  | none =>
      rw [updateEpollMask, found]
      exact .refl _
  | some client =>
      rcases updateEpollMask_cases done found with ⟨_, same⟩ | ⟨_, same⟩
      · rw [same]
        exact .refl _
      · rw [same]
        cases done with
        | false => exact emit_only (.mask fd _ false) rfl
        | true => exact (update_only _).trans (emit_only (.mask fd _ true) rfl)

theorem sent_only {loop : Sent UInt8} : Only fd state (state.sent fd loop) :=
  (update_only _).trans (emit_only (.send fd loop.sent loop.how) rfl)

theorem flushSend_only {answers : List SendAnswer} {done : Bool} :
    Only fd state (state.flushSend answers done fd) := by
  cases found : state.clients fd with
  | none =>
      rw [flushSend_absent found]
      exact .refl _
  | some client =>
      rcases flushSend_cases answers done found with ⟨_, same⟩ | ⟨_, _, same⟩ | ⟨_, _, same⟩
      · rw [same]
        exact updateEpollMask_only
      · rw [same]
        exact sent_only.trans doom_only
      · rw [same]
        exact sent_only.trans updateEpollMask_only

theorem insert_only : Only fd state (state.insert fd) :=
  ⟨fun other apart => by simp [insert, apart], [.accepted fd], rfl, by simp [Obs.About]⟩

theorem remove_only : Only fd state (state.remove fd) :=
  ⟨fun other apart => by simp [remove, apart], [.closed fd], rfl, by simp [Obs.About]⟩

theorem markDirty_only : Only fd state (state.markDirty fd) := by
  refine ⟨fun _ => markDirty_clients_ne, [], ?_, by simp⟩
  rcases markDirty_cases state fd with ⟨client, _, _, _, same⟩ | ⟨_, same⟩ <;> simp [same]

/-! ### The connection itself -/

theorem doom_client : (state.doom fd).clients fd =
    (state.clients fd).map fun client => { client with closing := true } := by
  cases found : state.clients fd with
  | none => simp [doom, found]
  | some client =>
      cases closing : client.closing with
      | false => simp [doom_open found closing, found]
      | true =>
          rw [doom_not_open (by simp [open_iff found, closing]), found]
          cases client
          simp_all

theorem append_client {type : UInt16} {payload : Bytes} :
    (state.append fd type payload).clients fd = (state.clients fd).map fun client =>
      { client with pending := client.pending ++ Framing.encode type payload } := by
  simp [append]

/-- The mark of the flush pass is not the send loop's to change. -/
theorem flushSend_flag {answers : List SendAnswer} {done : Bool} {later : Client ρ}
    (found : (state.flushSend answers done fd).clients fd = some later) :
    ∃ client, state.clients fd = some client ∧ later.dirty = client.dirty := by
  have masks : ∀ {state : State ρ} {later : Client ρ},
      (state.updateEpollMask done fd).clients fd = some later →
      ∃ client, state.clients fd = some client ∧ later.dirty = client.dirty := by
    intro state later found
    cases before : state.clients fd with
    | none =>
        rw [updateEpollMask, before] at found
        simp only [before] at found
        cases found
    | some client =>
        refine ⟨client, rfl, ?_⟩
        rcases updateEpollMask_cases done before with ⟨_, same⟩ | ⟨_, same⟩
        · rw [same, before, Option.some.injEq] at found
          exact found ▸ rfl
        · rw [same] at found
          cases done with
          | false =>
              simp only [masked, Bool.false_eq_true, if_false, emit_clients, before,
                Option.some.injEq] at found
              exact found ▸ rfl
          | true =>
              simp only [masked, if_true, emit_clients, update_clients, before, Option.map_some,
                Option.some.injEq] at found
              exact found ▸ rfl
  cases before : state.clients fd with
  | none =>
      rw [flushSend_absent before, before] at found
      cases found
  | some client =>
      refine ⟨client, rfl, ?_⟩
      rcases flushSend_cases answers done before with ⟨_, same⟩ | ⟨_, _, same⟩ | ⟨_, _, same⟩
      · rw [same] at found
        obtain ⟨other, otherFound, flag⟩ := masks found
        rw [before, Option.some.injEq] at otherFound
        exact otherFound ▸ flag
      · rw [same, doom_client] at found
        simp only [sent, emit_clients, update_clients, before, Option.map_some,
          Option.some.injEq] at found
        exact found ▸ rfl
      · rw [same] at found
        obtain ⟨other, otherFound, flag⟩ := masks found
        simp only [sent, emit_clients, update_clients, before, Option.map_some,
          Option.some.injEq] at otherFound
        exact flag.trans (otherFound ▸ rfl)

end State

theorem Follows.only {rules : Rules ρ} {fd : Fd} {state after : State ρ}
    (follows : Follows rules fd state after) : Only fd state after := by
  unfold Follows at follows
  split at follows
  · exact follows ▸ State.markDirty_only
  · obtain ⟨answers, done, _, rfl⟩ := follows
    exact State.flushSend_only

/-! ## Walks -/

theorem Flushes.sends {names : Prop} {types : UInt16 → Prop} {rules : Rules ρ} {fd : Fd} {state after : State ρ}
    (flushes : Flushes rules fd state after) : Sends names types state after := by
  obtain ⟨answers, done, _, rfl⟩ := flushes
  exact State.flushSend_sends

theorem Flushes.clients_ne {rules : Rules ρ} {fd other : Fd} {state after : State ρ}
    (flushes : Flushes rules fd state after) (apart : other ≠ fd) :
    after.clients other = state.clients other := by
  obtain ⟨answers, done, _, rfl⟩ := flushes
  exact State.flushSend_clients_ne apart

theorem Follows.sends {names : Prop} {types : UInt16 → Prop} {rules : Rules ρ} {fd : Fd} {state after : State ρ}
    (follows : Follows rules fd state after) : Sends names types state after := by
  unfold Follows at follows
  split at follows
  · subst follows
    exact State.markDirty_sends
  · exact follows.sends

theorem Follows.clients_ne {rules : Rules ρ} {fd other : Fd} {state after : State ρ}
    (follows : Follows rules fd state after) (apart : other ≠ fd) :
    after.clients other = state.clients other := by
  unfold Follows at follows
  split at follows
  · subst follows
    exact State.markDirty_clients_ne apart
  · exact follows.clients_ne apart

theorem Walk.sends {names : Prop} {types : UInt16 → Prop} {rules : Rules ρ} {put : State ρ → Fd → State ρ}
    (puts : ∀ state fd, Sends names types state (put state fd)) {fds : List Fd} {state after : State ρ}
    (walk : Walk rules put fds state after) : Sends names types state after := by
  induction walk with
  | nil => exact .refl _
  | skip _ _ ih => exact ih
  | visit _ follows _ ih => exact (puts _ _).trans (follows.sends.trans ih)

theorem Broadcast.sends {names : Prop} {types : UInt16 → Prop} {rules : Rules ρ} {room : ρ} {type : UInt16}
    {payload : Bytes} {except : Option Fd} {state after : State ρ} (allowed : types type)
    (broadcast : Broadcast rules room type payload except state after) :
    Sends names types state after := by
  obtain ⟨_, _, _, walk⟩ := broadcast
  exact walk.sends fun _ _ => State.queueSend_sends allowed

theorem Ticks.sends {names : Prop} {types : UInt16 → Prop} {rules : Rules ρ} {state after : State ρ}
    (allowed : types sTick) (ticks : Ticks rules state after) : Sends names types state after := by
  induction ticks with
  | nil => exact .refl _
  | visit payload opened follows _ ih =>
      exact (State.queueTickFrame_sends allowed opened).trans (follows.sends.trans ih)

/-! ## Packets -/

theorem Switch.sends {types : UInt16 → Prop} {rules : Rules ρ} {fd : Fd} {client : Client ρ}
    {state after : State ρ} (allowed : types sNotice)
    (leaves : Switch rules fd client state after) : Sends False types state after := by
  cases leaves with
  | stay _ => exact .refl _
  | leave _ broadcast => exact (broadcast.sends allowed).trans State.enterRoom_sends

theorem Depart.sends {types : UInt16 → Prop} {rules : Rules ρ} {fd : Fd} {client : Client ρ}
    {state after : State ρ} (allowed : types sNotice)
    (departs : Depart rules fd client state after) : Sends False types state after := by
  cases departs with
  | silent _ => exact State.enterRoom_sends
  | notice _ _ broadcast => exact State.enterRoom_sends.trans (broadcast.sends allowed)

/-- A packet moves send sides, and the name and the room of its sender. -/
theorem Packet.sends {types : UInt16 → Prop} {rules : Rules ρ} {fd : Fd} {payload : Bytes}
    {type : UInt16} {state after : State ρ} (notices : types sNotice)
    (chats : type = cChat → types sChat) (packet : Packet rules fd payload type state after) :
    Sends False types state after := by
  cases packet with
  | setNick => exact State.setNick_sends.trans (State.queueSend_sends notices)
  | nickFirst _ _ | roomRequired _ _ _ | joinFirst _ _ => exact State.queueSend_sends notices
  | join _ _ _ leaves _ broadcast =>
      exact (leaves.sends notices).trans (State.enterRoom_sends.trans
        ((State.queueSend_sends notices).trans (broadcast.sends notices)))
  | record _ _ _ => exact .refl _
  | chat _ _ _ broadcast => exact broadcast.sends (chats rfl)
  | unknown _ _ _ => exact State.doom_sends

/-! ## Counting -/

namespace State

/-- The open connections of a list. -/
def opens (state : State ρ) (fds : List Fd) : List Fd :=
  fds.filter fun fd => (state.clients fd).elim false (!·.closing)

theorem mem_opens {state : State ρ} {fds : List Fd} {fd : Fd} :
    fd ∈ state.opens fds ↔ fd ∈ fds ∧ state.Open fd := by
  rw [opens, List.mem_filter]
  cases found : state.clients fd with
  | none => simp [Open, found]
  | some client => simp [Open, found]

/-- The live connections can be listed, and `size` counts them. -/
def Counted (state : State ρ) : Prop :=
  ∃ fds : List Fd, fds.Nodup ∧ (∀ fd, fd ∈ fds ↔ state.Live fd) ∧ fds.length = state.size

end State

/-- What leaves the open connections goes onto the doomed list. -/
theorem Sends.weight {names : Prop} {types : UInt16 → Prop} {state after : State ρ}
    (sends : Sends names types state after) {fds : List Fd} (nodup : fds.Nodup)
    (covers : ∀ fd, state.Open fd → fd ∈ fds) :
    (after.opens fds).length + after.doomed.length =
      (state.opens fds).length + state.doomed.length := by
  obtain ⟨more, doomed, moreNodup, member⟩ := sends.doomed
  have split : (state.opens fds).Perm (after.opens fds ++ more) := by
    have apart : (after.opens fds ++ more).Nodup := by
      refine List.nodup_append.mpr ⟨nodup.filter _, moreNodup, ?_⟩
      rintro fd inOpens other inMore rfl
      exact ((member fd).mp inMore).2 (State.mem_opens.mp inOpens).2
    refine (List.perm_ext_iff_of_nodup (nodup.filter _) apart).mpr fun fd => ?_
    rw [List.mem_append, member]
    refine State.mem_opens.trans ?_
    constructor
    · rintro ⟨listed, opened⟩
      by_cases still : after.Open fd
      · exact .inl (State.mem_opens.mpr ⟨listed, still⟩)
      · exact .inr ⟨opened, still⟩
    · rintro (still | ⟨opened, _⟩)
      · obtain ⟨listed, still⟩ := State.mem_opens.mp still
        exact ⟨listed, sends.open_back still⟩
      · exact ⟨covers fd opened, opened⟩
  rw [doomed, List.length_append, split.length_eq, List.length_append]
  omega

/-- A departure and its close: no more connections are open or doomed than before. -/
theorem Sends.remove_weight {names : Prop} {types : UInt16 → Prop} {state after : State ρ}
    (sends : Sends names types state after) {fds : List Fd} (nodup : fds.Nodup)
    (covers : ∀ fd, state.Open fd → fd ∈ fds) (fd : Fd) :
    ((after.remove fd).opens fds).length + (after.remove fd).doomed.length ≤
        (state.opens fds).length + state.doomed.length ∧
      state.doomed.length ≤ (after.remove fd).doomed.length ∧
      ∀ other, (after.remove fd).Open other → state.Open other := by
  have fewer : ∀ other, (after.remove fd).Open other → after.Open other := by
    intro other opened
    by_cases own : other = fd
    · subst own
      simp [State.Open, State.remove] at opened
    · simpa [State.Open, State.remove, own] using opened
  have shorter : ((after.remove fd).opens fds).length ≤ (after.opens fds).length := by
    refine List.Nodup.length_le_of_subset (nodup.filter _) fun other listed => ?_
    obtain ⟨inFds, opened⟩ := State.mem_opens.mp listed
    exact State.mem_opens.mpr ⟨inFds, fewer other opened⟩
  have weight := sends.weight nodup covers
  obtain ⟨more, doomed, _, _⟩ := sends.doomed
  have kept : (after.remove fd).doomed = state.doomed ++ more := doomed
  have whole := congrArg List.length doomed
  rw [kept, List.length_append]
  rw [List.length_append] at whole
  exact ⟨by omega, Nat.le_add_right _ _, fun other opened => sends.open_back (fewer other opened)⟩

/-- The same connections are held. -/
def SameFds (state after : State ρ) : Prop :=
  (∀ fd, after.Live fd ↔ state.Live fd) ∧ after.size = state.size

theorem SameFds.refl (state : State ρ) : SameFds state state := ⟨fun _ => .rfl, rfl⟩

theorem SameFds.trans {state middle after : State ρ} (first : SameFds state middle)
    (second : SameFds middle after) : SameFds state after :=
  ⟨fun fd => (second.1 fd).trans (first.1 fd), second.2.trans first.2⟩

theorem SameFds.counted {state after : State ρ} (same : SameFds state after)
    (counted : state.Counted) : after.Counted := by
  obtain ⟨fds, nodup, member, size⟩ := counted
  exact ⟨fds, nodup, fun fd => (member fd).trans (same.1 fd).symm, size.trans same.2.symm⟩

theorem State.emit_sameFds (state : State ρ) (obs : Obs ρ) : SameFds state (state.emit obs) :=
  ⟨fun _ => .rfl, rfl⟩

theorem State.update_sameFds (state : State ρ) (fd : Fd) (change : Client ρ → Client ρ) :
    SameFds state (state.update fd change) := by
  refine ⟨fun other => ?_, rfl⟩
  by_cases own : other = fd
  · subst own
    cases found : state.clients other <;> simp [Live, found]
  · simp [Live, own]

theorem Sends.sameFds {names : Prop} {types : UInt16 → Prop} {state after : State ρ}
    (sends : Sends names types state after) : SameFds state after :=
  ⟨sends.live_iff, sends.size⟩

theorem State.doom_sameFds (state : State ρ) (fd : Fd) : SameFds state (state.doom fd) := by
  have sends : Sends True (fun _ => True) state (state.doom fd) := State.doom_sends
  exact sends.sameFds

theorem Packet.sameFds {rules : Rules ρ} {fd : Fd} {payload : Bytes} {type : UInt16}
    {state after : State ρ} (packet : Packet rules fd payload type state after) :
    SameFds state after := by
  have sends : Sends False (fun _ => True) state after := packet.sends trivial fun _ => trivial
  exact sends.sameFds

theorem Parse.sameFds {rules : Rules ρ} {fd : Fd} {state after : State ρ}
    (parse : Parse rules fd state after) : SameFds state after := by
  induction parse with
  | closing _ | more _ _ _ => exact .refl _
  | oversize _ _ _ => exact (State.emit_sameFds _ _).trans (State.doom_sameFds _ _)
  | late _ _ _ packet _ ih =>
      exact (State.emit_sameFds _ _).trans (packet.sameFds.trans
        ((State.emit_sameFds _ _).trans ((State.update_sameFds _ _ _).trans ih)))
  | early _ _ _ packet _ ih =>
      exact (State.emit_sameFds _ _).trans ((State.update_sameFds _ _ _).trans
        (packet.sameFds.trans ((State.emit_sameFds _ _).trans ih)))

theorem Follows.sameFds {rules : Rules ρ} {fd : Fd} {state after : State ρ}
    (follows : Follows rules fd state after) : SameFds state after := by
  have sends : Sends True (fun _ => True) state after := follows.sends
  exact sends.sameFds

theorem Reads.sameFds {rules : Rules ρ} {fd : Fd} {script : List (RecvAnswer UInt8)}
    {state after : State ρ} (reads : Reads rules fd script state after) : SameFds state after := by
  have received : ∀ (state : State ρ) (client : Client ρ) (chunk : Bytes),
      SameFds state (state.receive fd client chunk) := fun state _ _ =>
    (State.emit_sameFds state _).trans (State.update_sameFds _ _ _)
  induction reads with
  | drained _ follows => exact (State.emit_sameFds _ _).trans follows.sameFds
  | ended _ => exact (State.emit_sameFds _ _).trans (State.doom_sameFds _ _)
  | interrupted _ ih => exact (State.emit_sameFds _ _).trans ih
  | stopped _ _ parse _ =>
      exact (received _ _ _).trans (parse.sameFds.trans (State.emit_sameFds _ _))
  | short _ _ _ parse _ follows =>
      exact (received _ _ _).trans (parse.sameFds.trans
        ((State.emit_sameFds _ _).trans follows.sameFds))
  | again _ _ parse _ _ ih =>
      exact (received _ _ _).trans (parse.sameFds.trans ((State.emit_sameFds _ _).trans ih))
  | backlog _ _ _ => exact (State.emit_sameFds _ _).trans (State.doom_sameFds _ _)

theorem pushBack_cost (rest : Bytes) (script : List (RecvAnswer UInt8)) :
    scriptCost (pushBack rest script) ≤ rest.length + 1 + scriptCost script := by
  unfold pushBack
  split
  · omega
  · exact Nat.le_refl _

theorem Flushes.sameFds {rules : Rules ρ} {fd : Fd} {state after : State ρ}
    (flushes : Flushes rules fd state after) : SameFds state after := by
  have sends : Sends True (fun _ => True) state after := flushes.sends
  exact sends.sameFds

theorem Handles.sameFds {rules : Rules ρ} {what : Ready} {state after : State ρ}
    (handles : Handles rules (.ready what) state after) : SameFds state after := by
  cases handles with
  | gone _ => exact .refl _
  | hangup _ _ => exact State.doom_sameFds _ _
  | @serve _ flushed _ _ _ _ flushes reads =>
      have first : SameFds state flushed := by
        rcases flushes with ⟨_, flushes⟩ | ⟨_, same⟩
        · exact flushes.sameFds
        · exact same ▸ .refl _
      rcases reads with ⟨_, _, reads⟩ | ⟨_, same⟩
      · exact first.trans reads.sameFds
      · exact same ▸ first

theorem Sends.counted {names : Prop} {types : UInt16 → Prop} {state after : State ρ}
    (sends : Sends names types state after) (counted : state.Counted) : after.Counted :=
  sends.sameFds.counted counted

namespace State

variable {state : State ρ} {fd : Fd}

theorem insert_counted (counted : state.Counted) (fresh : ¬ state.Live fd) :
    (state.insert fd).Counted := by
  obtain ⟨fds, nodup, member, size⟩ := counted
  refine ⟨fd :: fds, List.nodup_cons.mpr ⟨fun listed => fresh ((member fd).mp listed), nodup⟩, ?_, ?_⟩
  · intro other
    rw [List.mem_cons, member]
    by_cases same : other = fd
    · subst same
      simp [Live, insert]
    · simp [Live, insert, same]
  · simp [insert, size]

theorem remove_counted (counted : state.Counted) (live : state.Live fd) :
    (state.remove fd).Counted := by
  obtain ⟨fds, nodup, member, size⟩ := counted
  refine ⟨fds.erase fd, nodup.erase fd, ?_, ?_⟩
  · intro other
    rw [nodup.mem_erase_iff, member]
    by_cases same : other = fd
    · subst same
      simp [Live, remove]
    · simp [Live, remove, same]
  · rw [List.length_erase_of_mem ((member fd).mpr live), size]
    rfl

end State

theorem Depart.sameFds {rules : Rules ρ} {fd : Fd} {client : Client ρ} {state after : State ρ}
    (departs : Depart rules fd client state after) : SameFds state after := by
  have sends : Sends False (fun _ => True) state after := departs.sends trivial
  exact sends.sameFds

/-- Ticks put together: what follows a sequence may follow its last state. -/
theorem Ticks.trans {rules : Rules ρ} {state middle after : State ρ}
    (first : Ticks rules state middle) (second : Ticks rules middle after) :
    Ticks rules state after := by
  induction first with
  | nil => exact second
  | visit payload opened follows _ ih => exact .visit payload opened follows (ih second)

theorem FlushDirty.sends {types : UInt16 → Prop} {rules : Rules ρ} {fds : List Fd}
    {state after : State ρ} (flush : FlushDirty rules fds state after) :
    Sends True types state after := by
  induction flush with
  | @nil state =>
      have same : Sends True types state state := .refl _
      exact ⟨same.absent, same.present, same.size, same.running, same.trace, same.doomed⟩
  | skip _ _ ih => exact State.clean_sends.trans ih
  | flush _ flushes _ ih => exact State.clean_sends.trans (flushes.sends.trans ih)

end NetEngine.Epoll
