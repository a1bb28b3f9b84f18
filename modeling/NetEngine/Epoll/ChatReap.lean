import NetEngine.Epoll.ChatRule
import NetEngine.Library.Machine

/-! The doomed list and the walk that empties it. The list holds the connections
that are marked to close, each once, whatever dooms more of them during the walk;
behind the walk there are none. -/

set_option autoImplicit false

namespace NetEngine.Epoll

open Socket Machine

variable {ρ : Type}

/-- Held, and marked to close. -/
def State.Shut (state : State ρ) (fd : Fd) : Prop :=
  ∃ client, state.clients fd = some client ∧ client.closing = true

theorem State.shut_iff {state : State ρ} {fd : Fd} :
    state.Shut fd ↔ state.Live fd ∧ ¬ state.Open fd := by
  constructor
  · rintro ⟨client, found, closing⟩
    exact ⟨⟨client, found⟩, by simp [State.open_iff found, closing]⟩
  · rintro ⟨⟨client, found⟩, shut⟩
    exact ⟨client, found, by simpa [State.open_iff found] using shut⟩

/-- From `index` on the doomed list holds what is still marked to close. -/
structure Marked (index : Nat) (state : State ρ) : Prop where
  inside : index ≤ state.doomed.length
  nodup : (state.doomed.drop index).Nodup
  shut : ∀ fd, state.Shut fd ↔ fd ∈ state.doomed.drop index

/-- What the main loop should leave behind when it waits. -/
structure Settled (state : State ρ) : Prop where
  doomed : state.doomed = []
  none : ∀ fd, ¬ state.Shut fd

namespace Marked

variable {index : Nat} {state after : State ρ} {fd : Fd}

theorem init : Marked 0 (State.init : State ρ) :=
  ⟨Nat.le_refl _, List.nodup_nil, fun fd => by simp [State.Shut, State.init]⟩

theorem congr (marked : Marked index state) (doomed : after.doomed = state.doomed)
    (shut : ∀ fd, after.Shut fd ↔ state.Shut fd) : Marked index after :=
  ⟨doomed ▸ marked.inside, doomed ▸ marked.nodup, fun fd => by rw [shut, marked.shut, doomed]⟩

theorem update (marked : Marked index state) {change : Client ρ → Client ρ}
    (same : ∀ client : Client ρ, (change client).closing = client.closing) :
    Marked index (state.update fd change) := by
  refine marked.congr rfl fun other => ?_
  by_cases own : other = fd
  · subst own
    cases found : state.clients other with
    | none => simp [State.Shut, found]
    | some client => simp [State.Shut, found, same]
  · simp [State.Shut, own]

/-- Sends put on the list what they shut, behind all that was on it. -/
theorem sends {names : Prop} {types : UInt16 → Prop} (marked : Marked index state)
    (sends : Sends names types state after) : Marked index after := by
  obtain ⟨more, doomed, nodup, member⟩ := sends.doomed
  have split : after.doomed.drop index = state.doomed.drop index ++ more := by
    rw [doomed, List.drop_append_of_le_length marked.inside]
  refine ⟨?_, ?_, fun fd => ?_⟩
  · rw [doomed, List.length_append]
    exact Nat.le_add_right_of_le marked.inside
  · rw [split]
    refine List.nodup_append.mpr ⟨marked.nodup, nodup, ?_⟩
    rintro fd before _ added rfl
    exact (State.shut_iff.mp ((marked.shut fd).mpr before)).2 ((member fd).mp added).1
  · rw [split, List.mem_append, ← marked.shut, member, State.shut_iff, State.shut_iff,
      sends.live_iff]
    constructor
    · rintro ⟨live, shut⟩
      by_cases opened : state.Open fd
      · exact .inr ⟨opened, shut⟩
      · exact .inl ⟨live, opened⟩
    · rintro (⟨live, shut⟩ | ⟨⟨client, found, _⟩, shut⟩)
      · exact ⟨live, fun opened => shut (sends.open_back opened)⟩
      · exact ⟨⟨client, found⟩, shut⟩

end Marked

theorem Settled.marked {state : State ρ} (settled : Settled state) : Marked 0 state := by
  refine ⟨Nat.zero_le _, by simp [settled.doomed], fun fd => ?_⟩
  simp [settled.doomed, settled.none fd]

theorem marked_events (rules : Rules ρ) :
    PreservesEvents rules (Marked 0 : State ρ → Prop) where
  note _ _ _ _ _ marked := marked.congr rfl fun _ => .rfl
  refused _ _ _ marked := marked.congr rfl fun _ => .rfl
  doom state fd marked :=
    have sends : Sends True (fun _ => True) state (state.doom fd) := State.doom_sends
    marked.sends sends
  append state fd type payload _ marked :=
    have sends : Sends True (fun _ => True) state (state.append fd type payload) :=
      State.append_sends trivial
    marked.sends sends
  refuse state fd payload _ _ marked :=
    have sends : Sends True (fun _ => True) state (state.refuse fd payload) := State.refuse_sends
    marked.sends sends
  flush state after _ flushes marked :=
    have sends : Sends True (fun _ => True) state after := flushes.sends
    marked.sends sends
  mark state fd marked :=
    have sends : Sends True (fun _ => True) state (state.markDirty fd) := State.markDirty_sends
    marked.sends sends
  name _ _ _ _ marked := marked.update fun _ => rfl
  enter _ _ _ marked := marked.update fun _ => rfl
  input _ _ _ marked := marked.update fun _ => rfl
  insert state fd fresh marked := by
    refine marked.congr rfl fun other => ?_
    by_cases own : other = fd
    · subst own
      refine iff_of_false (by simp [State.Shut, State.insert]) ?_
      rintro ⟨client, found, _⟩
      exact fresh ⟨client, found⟩
    · simp [State.Shut, State.insert, own]
  stop _ marked := marked.congr rfl fun _ => .rfl

/-- Behind the walk nothing is left that is marked to close. -/
theorem Reap.settles {rules : Rules ρ} {index : Nat} {state after : State ρ}
    (reap : Reap rules index state after) (marked : Marked index state) : Settled after := by
  induction reap with
  | @done state index ended =>
      refine ⟨rfl, fun fd shut => ?_⟩
      have listed := (marked.shut fd).mp shut
      rw [List.drop_eq_nil_of_le ended] at listed
      cases listed
  | @gone state _ index fd at_index absent _ _ =>
      obtain ⟨bound, same⟩ := List.getElem?_eq_some_iff.mp at_index
      have listed : fd ∈ state.doomed.drop index := by
        rw [List.drop_eq_getElem_cons bound, same]
        exact List.mem_cons_self
      exact absurd (State.shut_iff.mp ((marked.shut fd).mpr listed)).1 absent
  | @close state told _ index fd client at_index found departs _ ih =>
      have sends : Sends False (fun _ => True) (state.emit (.departs state.clients fd)) told :=
        departs.sends trivial
      have announced : Marked index (state.emit (.departs state.clients fd)) :=
        marked.congr rfl fun _ => .rfl
      have later := announced.sends sends
      obtain ⟨more, grown, _, _⟩ := sends.doomed
      change told.doomed = state.doomed ++ more at grown
      have still : told.doomed[index]? = some fd := by
        rw [grown, List.getElem?_append_left (List.getElem?_eq_some_iff.mp at_index).1, at_index]
      obtain ⟨bound, same⟩ := List.getElem?_eq_some_iff.mp still
      have rest : told.doomed.drop index = fd :: told.doomed.drop (index + 1) := by
        rw [List.drop_eq_getElem_cons bound, same]
      have fresh := List.nodup_cons.mp (rest ▸ later.nodup)
      refine ih ⟨bound, fresh.2, fun other => ?_⟩
      change _ ↔ other ∈ told.doomed.drop (index + 1)
      by_cases own : other = fd
      · subst own
        exact iff_of_false (by simp [State.Shut, State.remove]) fresh.1
      · have kept : (told.remove fd).Shut other ↔ told.Shut other := by
          simp [State.Shut, State.remove, own]
        rw [kept, later.shut, rest, List.mem_cons]
        exact or_iff_right own

theorem Reap.empties {rules : Rules ρ} {index : Nat} {state after : State ρ}
    (reap : Reap rules index state after) : after.doomed = [] := by
  induction reap with
  | done _ => rfl
  | gone _ _ _ ih => exact ih
  | close _ _ _ _ ih => exact ih

theorem FlushDirty.marked {rules : Rules ρ} {fds : List Fd} {state after : State ρ}
    (flush : FlushDirty rules fds state after) (marked : Marked 0 state) : Marked 0 after :=
  have sends : Sends True (fun _ => True) state after := flush.sends
  marked.sends sends

/-- In immediate mode the walk is the last thing before the wait. -/
theorem Tail.settles {rules : Rules ρ} {state after : State ρ} (tail : Tail rules state after)
    (marked : Marked 0 state) : Marked 0 after ∧ (rules.batchFlush = false → Settled after) := by
  cases tail with
  | batch batch flush reap again =>
      refine ⟨again.marked (reap.settles (flush.marked marked)).marked, fun immediate => ?_⟩
      rw [batch] at immediate
      cases immediate
  | immediate _ reap => exact ⟨(reap.settles marked).marked, fun _ => reap.settles marked⟩

/-- The state that the tail of an iteration starts from. -/
theorem Iterates.marked {rules : Rules ρ} {batch : Batch} {state after : State ρ}
    (iterates : Iterates rules batch state after) (marked : Marked 0 state) :
    Marked 0 after ∧ (rules.batchFlush = false → Settled after) := by
  cases iterates with
  | mk drains ticks tail =>
      have first := (marked_events rules).drains drains (marked.congr rfl fun _ => .rfl)
      refine tail.settles ?_
      rcases ticks with ⟨_, ticks⟩ | same
      · exact (marked_events rules).ticks ticks first
      · exact same ▸ first

theorem Runs.marked {rules : Rules ρ} {batches : List Batch} {state after : State ρ}
    (runs : Runs rules batches state after) (marked : Marked 0 state) : Marked 0 after := by
  induction runs with
  | nil | stop _ => exact marked
  | cons _ iterates _ ih => exact ih (iterates.marked marked).1

end NetEngine.Epoll
