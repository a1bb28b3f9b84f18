import NetEngine.Epoll.ChatReap
import NetEngine.Epoll.ChatSpec
import NetEngine.Epoll.JoinNotices

/-! The single operations of the event loop against the chat they are for. As long as no
send fails and no queue is over its cap, sending changes nothing but what was said. -/

set_option autoImplicit false

namespace NetEngine.Epoll

open Socket

variable {ρ : Type}

/-! ## Smooth traces -/

/-- A hard error, or a frame that does not fit under the cap. -/
def Obs.rough : Obs ρ → Bool
  | .overCap .. => true
  | .send _ _ how => how = .broken
  | _ => false

def Smooth (trace : List (Obs ρ)) : Prop := ∀ obs ∈ trace, obs.rough = false

theorem Smooth.before {early late : List (Obs ρ)} (smooth : Smooth late) (grows : early <+: late) :
    Smooth early :=
  fun obs member => smooth obs (grows.subset member)

/-! ## Stories -/

theorem story_append (fd : Fd) (trace more : List (Obs ρ)) :
    story fd (trace ++ more) = story fd trace ++ story fd more :=
  List.filterMap_append

theorem story_quiet {fd : Fd} {trace : List (Obs ρ)} {obs : Obs ρ} (quiet : obs.deed fd = none) :
    story fd (trace ++ [obs]) = story fd trace := by
  rw [story_append, story, story, List.filterMap_cons_none quiet, List.filterMap_nil,
    List.append_nil]

theorem story_deed {fd : Fd} {trace : List (Obs ρ)} {obs : Obs ρ} {deed : Deed}
    (shows : obs.deed fd = some deed) : story fd (trace ++ [obs]) = story fd trace ++ [deed] := by
  rw [story_append, story, story, List.filterMap_cons_some shows, List.filterMap_nil]

def Client.core (client : Client ρ) : Core ρ where
  nick := client.nick
  room := client.room
  input := client.input
  closing := client.closing

namespace State

def core (state : State ρ) (fd : Fd) : Option (Core ρ) := (state.clients fd).map Client.core

def roomOf (state : State ρ) (fd : Fd) : Option ρ := (state.core fd).bind (·.room)

variable {state : State ρ} {fd other : Fd}

theorem core_found {client : Client ρ} (found : state.clients fd = some client) :
    state.core fd = some client.core := by
  rw [core, found, Option.map_some]

theorem roomOf_found {client : Client ρ} (found : state.clients fd = some client) :
    state.roomOf fd = client.room := by
  rw [roomOf, core_found found, Option.bind_some, Client.core]

theorem core_some {core : Core ρ} (found : state.core fd = some core) :
    ∃ client, state.clients fd = some client ∧ client.core = core :=
  Option.map_eq_some_iff.mp found

theorem open_core : state.Open fd ↔ ∃ core, state.core fd = some core ∧ core.closing = false := by
  constructor
  · rintro ⟨client, found, opened⟩
    exact ⟨client.core, core_found found, opened⟩
  · rintro ⟨core, found, opened⟩
    obtain ⟨client, present, rfl⟩ := core_some found
    exact ⟨client, present, opened⟩

theorem inRoom_roomOf {room : ρ} : state.InRoom room fd ↔ state.roomOf fd = some room := by
  rw [roomOf, Option.bind_eq_some_iff]
  constructor
  · rintro ⟨client, found, inside⟩
    exact ⟨client.core, core_found found, inside⟩
  · rintro ⟨core, found, inside⟩
    obtain ⟨client, present, rfl⟩ := core_some found
    exact ⟨client, present, inside⟩

theorem update_core (change : Client ρ → Client ρ) (coarse : Core ρ → Core ρ)
    (same : ∀ client : Client ρ, (change client).core = coarse client.core) :
    (state.update fd change).core = Function.update state.core fd ((state.core fd).map coarse) := by
  funext other
  by_cases own : other = fd
  · subst own
    cases found : state.clients other <;> simp [core, found, same]
  · simp [core, own]

theorem roomOf_put {after : State ρ} {mine : Option (Core ρ)}
    (here : after.core = Function.update state.core fd mine) :
    after.roomOf = Function.update state.roomOf fd (mine.bind (·.room)) := by
  funext other
  rw [roomOf, here]
  by_cases own : other = fd
  · rw [own, Function.update_self, Function.update_self]
  · rw [Function.update_of_ne own, Function.update_of_ne own, roomOf]

theorem roomOf_enterRoom {room : Option ρ} (apart : other ≠ fd) :
    (state.enterRoom fd room).roomOf other = state.roomOf other := by
  rw [enterRoom, roomOf_put (update_core _ (fun core => { core with room }) fun _ => rfl),
    Function.update_of_ne apart]

end State

theorem Spec.update_people (spec : Spec) (fd : Fd) (change : Core Bytes → Core Bytes) :
    (spec.update fd change).people =
      Function.update spec.people fd ((spec.people fd).map change) :=
  rfl

theorem Spec.roomOf_put {spec later : Spec} {fd : Fd} {theirs : Option (Core Bytes)}
    (there : later.people = Function.update spec.people fd theirs) :
    later.roomOf = Function.update spec.roomOf fd (theirs.bind (·.room)) := by
  funext other
  rw [roomOf, there]
  by_cases own : other = fd
  · rw [own, Function.update_self, Function.update_self]
  · rw [Function.update_of_ne own, Function.update_of_ne own, roomOf]

theorem Spec.roomOf_enter {spec : Spec} {fd other : Fd} {name : Bytes} (apart : other ≠ fd) :
    (spec.enter fd name).roomOf other = spec.roomOf other := by
  rw [roomOf_put (rfl : (spec.enter fd name).people = _), Function.update_of_ne apart]

theorem Spec.roomOf_tell {spec : Spec} {fd : Fd} {type : UInt16} {payload : Bytes} :
    (spec.tell fd type payload).roomOf = spec.roomOf :=
  rfl

theorem Spec.roomOf_known {spec : Spec} {fd : Fd} {person : Core Bytes}
    (known : spec.people fd = some person) : spec.roomOf fd = person.room := by
  rw [roomOf, known, Option.bind_some]

/-! ## Saying -/

/-- Nothing but send sides, lists of owed flushes and stories moved. -/
structure Keeps (state after : State ρ) : Prop where
  core : after.core = state.core
  size : after.size = state.size
  running : after.running = state.running
  doomed : after.doomed = state.doomed
  grows : state.trace <+: after.trace

/-- No story went on. -/
structure Still (state after : State ρ) : Prop extends Keeps state after where
  story : ∀ fd, story fd after.trace = story fd state.trace

/-- One frame was said to those who hear it. -/
structure Says (hears : Fd → Prop) (type : UInt16) (payload : Bytes) (state after : State ρ) : Prop
    extends Keeps state after where
  told : ∀ fd, hears fd → story fd after.trace = story fd state.trace ++ [.said type payload]
  rest : ∀ fd, ¬ hears fd → story fd after.trace = story fd state.trace

section Saying

variable {state middle after : State ρ} {fd : Fd} {type : UInt16} {payload : Bytes}
  {hears : Fd → Prop}

theorem Keeps.refl (state : State ρ) : Keeps state state :=
  ⟨rfl, rfl, rfl, rfl, List.prefix_refl _⟩

theorem Keeps.trans (first : Keeps state middle) (second : Keeps middle after) :
    Keeps state after :=
  ⟨second.core.trans first.core, second.size.trans first.size, second.running.trans first.running,
    second.doomed.trans first.doomed, first.grows.trans second.grows⟩

theorem Keeps.roomOf (keeps : Keeps state after) : after.roomOf = state.roomOf := by
  funext fd
  rw [State.roomOf, State.roomOf, keeps.core]

theorem Keeps.open_iff (keeps : Keeps state after) (fd : Fd) : after.Open fd ↔ state.Open fd := by
  rw [State.open_core, State.open_core, keeps.core]

theorem Still.refl (state : State ρ) : Still state state := ⟨.refl state, fun _ => rfl⟩

theorem Still.trans (first : Still state middle) (second : Still middle after) :
    Still state after :=
  ⟨first.toKeeps.trans second.toKeeps, fun fd => (second.story fd).trans (first.story fd)⟩

theorem Says.trans_still (spoken : Says hears type payload state middle)
    (still : Still middle after) : Says hears type payload state after :=
  ⟨spoken.toKeeps.trans still.toKeeps, fun fd heard => (still.story fd).trans (spoken.told fd heard),
    fun fd unheard => (still.story fd).trans (spoken.rest fd unheard)⟩

theorem Still.spoken (still : Still state after) (nobody : ∀ fd, ¬ hears fd) :
    Says hears type payload state after :=
  ⟨still.toKeeps, fun fd heard => absurd heard (nobody fd), fun fd _ => still.story fd⟩

theorem Says.congr {others : Fd → Prop} (spoken : Says hears type payload state after)
    (same : ∀ fd, others fd ↔ hears fd) : Says others type payload state after :=
  ⟨spoken.toKeeps, fun fd heard => spoken.told fd ((same fd).mp heard),
    fun fd unheard => spoken.rest fd fun heard => unheard ((same fd).mpr heard)⟩

/-- One after the other, to different connections. -/
theorem Says.then {others : Fd → Prop} (first : Says hears type payload state middle)
    (second : Says others type payload middle after) (apart : ∀ fd, hears fd → ¬ others fd) :
    Says (fun fd => hears fd ∨ others fd) type payload state after := by
  refine ⟨first.toKeeps.trans second.toKeeps, fun fd heard => ?_, fun fd unheard => ?_⟩
  · by_cases early : hears fd
    · rw [second.rest fd (apart fd early), first.told fd early]
    · rw [second.told fd (heard.resolve_left early), first.rest fd early]
  · rw [second.rest fd fun late => unheard (.inr late), first.rest fd fun early => unheard (.inl early)]

namespace State

theorem emit_still (obs : Obs ρ) (quiet : ∀ fd, obs.deed fd = none) :
    Still state (state.emit obs) :=
  ⟨⟨rfl, rfl, rfl, rfl, List.prefix_append ..⟩, fun fd => story_quiet (quiet fd)⟩

theorem update_still (change : Client ρ → Client ρ)
    (same : ∀ client : Client ρ, (change client).core = client.core) :
    Still state (state.update fd change) := by
  refine ⟨⟨?_, rfl, rfl, rfl, List.prefix_refl _⟩, fun _ => rfl⟩
  rw [update_core change id same, Option.map_id, id, Function.update_eq_self]

theorem append_spoken : Says (· = fd) type payload state (state.append fd type payload) := by
  have queued : Still state (state.update fd fun client =>
      { client with pending := client.pending ++ Framing.encode type payload }) :=
    update_still _ fun _ => rfl
  refine ⟨⟨queued.core, rfl, rfl, rfl, List.prefix_append ..⟩, fun other heard => ?_,
    fun other unheard => ?_⟩
  · exact story_deed (by simp [Obs.deed, heard])
  · exact story_quiet (by simp [Obs.deed, Ne.symm unheard])

theorem updateEpollMask_still {done : Bool} : Still state (state.updateEpollMask done fd) := by
  cases found : state.clients fd with
  | none =>
      rw [updateEpollMask, found]
      exact .refl state
  | some client =>
      rcases updateEpollMask_cases done found with ⟨_, same⟩ | ⟨_, same⟩
      · rw [same]
        exact .refl state
      · rw [same, masked]
        have noted : ∀ before : State ρ,
            Still before (before.emit (.mask fd (decide (client.pending ≠ [])) done)) :=
          fun before => emit_still _ fun _ => rfl
        cases done with
        | false => exact noted state
        | true =>
            have armed : Still state (state.update fd fun other =>
                { other with armed := decide (client.pending ≠ []) }) :=
              update_still _ fun _ => rfl
            exact armed.trans (noted _)

theorem sent_still {loop : Sent UInt8} : Still state (state.sent fd loop) := by
  have taken : Still state (state.update fd fun client => { client with pending := loop.rest }) :=
    update_still _ fun _ => rfl
  exact taken.trans (emit_still (.send fd loop.sent loop.how) fun _ => rfl)

theorem flushSend_still {answers : List SendAnswer} {done : Bool}
    (smooth : Smooth (state.flushSend answers done fd).trace) :
    Still state (state.flushSend answers done fd) := by
  cases found : state.clients fd with
  | none =>
      rw [flushSend_absent found]
      exact .refl state
  | some client =>
      rcases flushSend_cases answers done found with ⟨_, same⟩ | ⟨_, broken, same⟩ | ⟨_, _, same⟩
      · rw [same]
        exact updateEpollMask_still
      · have dooms : Sends True (fun _ => True) (state.sent fd (sendLoop client.pending answers))
            ((state.sent fd (sendLoop client.pending answers)).doom fd) := doom_sends
        have noted : .send fd (sendLoop client.pending answers).sent
            (sendLoop client.pending answers).how ∈
              (state.sent fd (sendLoop client.pending answers)).trace :=
          List.mem_append_right _ (List.mem_singleton.mpr rfl)
        have calm := smooth _ (same ▸ dooms.grows.subset noted)
        simp [Obs.rough, broken] at calm
      · rw [same]
        exact sent_still.trans updateEpollMask_still

theorem markDirty_still : Still state (state.markDirty fd) := by
  rcases markDirty_cases state fd with ⟨client, _, _, _, same⟩ | ⟨_, same⟩
  · have marked : Still state (state.update fd fun client => { client with dirty := true }) :=
      update_still _ fun _ => rfl
    rw [same]
    exact ⟨⟨marked.core, rfl, rfl, rfl, List.prefix_refl _⟩, fun _ => rfl⟩
  · rw [same]
    exact .refl state

theorem queueSend_spoken (smooth : Smooth (state.queueSend type payload fd).trace) :
    Says (fun other => payload.length ≤ maxPayload ∧ state.Open other ∧ other = fd) type payload state
      (state.queueSend type payload fd) := by
  by_cases opened : state.Open fd
  · rcases queueSend_cases type payload opened with
      ⟨long, same⟩ | ⟨short, _, same⟩ | ⟨_, _, same⟩
    · rw [same]
      exact (Still.refl state).spoken fun _ heard => absurd heard.1 (Nat.not_le.mpr long)
    · rw [same]
      refine append_spoken.congr fun other => ⟨fun heard => heard.2.2, ?_⟩
      rintro rfl
      exact ⟨short, opened, rfl⟩
    · have dooms : Sends True (fun _ => True)
          (state.emit (.overCap fd (headerSize + payload.length))) (state.refuse fd payload) :=
        doom_sends
      have noted : .overCap fd (headerSize + payload.length) ∈
          (state.emit (.overCap fd (headerSize + payload.length))).trace :=
        List.mem_append_right _ (List.mem_singleton.mpr rfl)
      have calm := smooth _ (same ▸ dooms.grows.subset noted)
      cases calm
  · rw [queueSend_shut opened]
    refine (Still.refl state).spoken ?_
    rintro other ⟨_, shut, rfl⟩
    exact opened shut

end State

theorem Flushes.still {rules : Rules ρ} (flushes : Flushes rules fd state after)
    (smooth : Smooth after.trace) : Still state after := by
  obtain ⟨answers, done, _, rfl⟩ := flushes
  exact State.flushSend_still smooth

theorem Follows.still {rules : Rules ρ} (follows : Follows rules fd state after)
    (smooth : Smooth after.trace) : Still state after := by
  unfold Follows at follows
  split at follows
  · exact follows ▸ State.markDirty_still
  · exact follows.still smooth

theorem Walk.spoken {rules : Rules ρ} {fds : List Fd}
    (walk : Walk rules (State.queueSend type payload) fds state after) (nodup : fds.Nodup)
    (smooth : Smooth after.trace) :
    Says (fun fd => payload.length ≤ maxPayload ∧ state.Open fd ∧ fd ∈ fds) type payload state
      after := by
  induction walk with
  | nil => exact (Still.refl _).spoken fun _ heard => absurd heard.2.2 List.not_mem_nil
  | @skip fd fds state after shut _ ih =>
      refine (ih (List.nodup_cons.mp nodup).2 smooth).congr fun other => ?_
      rw [List.mem_cons]
      refine and_congr_right fun _ => and_congr_right fun opened => or_iff_right ?_
      rintro rfl
      exact shut opened
  | @visit fd fds state next after opened follows walk ih =>
      obtain ⟨absent, others⟩ := List.nodup_cons.mp nodup
      have sends : Sends True (fun _ => True) next after :=
        walk.sends fun _ _ => State.queueSend_sends trivial
      have nextSmooth := smooth.before sends.grows
      have marks : Sends True (fun _ => True) (state.queueSend type payload fd) next :=
        follows.sends
      have spoken := (State.queueSend_spoken (nextSmooth.before marks.grows)).trans_still
        (follows.still nextSmooth)
      refine (spoken.then (ih others smooth) ?_).congr fun other => ?_
      · rintro other ⟨_, _, rfl⟩ ⟨_, _, listed⟩
        exact absent listed
      · rw [List.mem_cons, spoken.open_iff]
        constructor
        · rintro ⟨short, opened, rfl | listed⟩
          · exact .inl ⟨short, opened, rfl⟩
          · exact .inr ⟨short, opened, listed⟩
        · rintro (⟨short, opened, rfl⟩ | ⟨short, opened, listed⟩)
          · exact ⟨short, opened, .inl rfl⟩
          · exact ⟨short, opened, .inr listed⟩

theorem Broadcast.spoken {rules : Rules ρ} {room : ρ} {except : Option Fd}
    (broadcast : Broadcast rules room type payload except state after) (smooth : Smooth after.trace) :
    Says (fun fd => payload.length ≤ maxPayload ∧ state.Open fd ∧ some fd ≠ except ∧
      state.roomOf fd = some room) type payload state after := by
  obtain ⟨members, nodup, member, walk⟩ := broadcast
  refine (walk.spoken nodup smooth).congr fun fd => ?_
  rw [member, State.inRoom_roomOf]

theorem FlushDirty.still {rules : Rules ρ} {fds : List Fd}
    (flush : FlushDirty rules fds state after) (smooth : Smooth after.trace) :
    Still state after := by
  have cleans : ∀ (state : State ρ) (fd : Fd), Still state (state.clean fd) :=
    fun state fd => State.update_still _ fun _ => rfl
  induction flush with
  | nil => exact ⟨⟨rfl, rfl, rfl, rfl, List.prefix_refl _⟩, fun _ => rfl⟩
  | @skip state _ fd _ _ _ ih => exact (cleans state fd).trans (ih smooth)
  | @flush state flushed _ fd _ _ flushes later ih =>
      have sends : Sends True (fun _ => True) flushed _ := later.sends
      exact (cleans state fd).trans
        ((flushes.still (smooth.before sends.grows)).trans (ih smooth))

end Saying

end NetEngine.Epoll
