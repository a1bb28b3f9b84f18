import Mathlib.Data.List.Nodup
import NetEngine.Epoll.ChatFrames

/-! The doomed and the dirty list never hold a descriptor twice: whatever goes onto
one of them was open, or unmarked, a moment before. While closed connections are
still listed, nothing is accepted. -/

set_option autoImplicit false

namespace NetEngine.Epoll

open Socket

variable {ρ : Type}

/-- Who is there, and whether it is marked for the flush pass. -/
def State.flags (state : State ρ) (fd : Fd) : Option Bool := (state.clients fd).map (·.dirty)

namespace State

variable {state : State ρ} {fd : Fd}

theorem flags_live (found : state.flags fd ≠ none) : state.Live fd := by
  cases client : state.clients fd with
  | none => simp [flags, client] at found
  | some client' => exact ⟨client', client⟩

theorem flags_update (change : Client ρ → Client ρ)
    (same : ∀ client, (change client).dirty = client.dirty) :
    (state.update fd change).flags = state.flags := by
  funext other
  by_cases own : other = fd
  · subst own
    cases found : state.clients other <;> simp [flags, found, same]
  · simp [flags, own]

theorem flags_doom : (state.doom fd).flags = state.flags := by
  unfold doom
  split
  · rfl
  · split
    · rfl
    · exact flags_update _ fun _ => rfl

theorem flags_queueSend {type : UInt16} {payload : Bytes} :
    (state.queueSend type payload fd).flags = state.flags := by
  by_cases opened : state.Open fd
  · rcases queueSend_cases type payload opened with
      ⟨_, same⟩ | ⟨_, _, same⟩ | ⟨_, _, same⟩
    · rw [same]
    · rw [same]
      exact flags_update _ fun _ => rfl
    · rw [same]
      exact flags_doom
  · rw [queueSend_shut opened]

theorem flags_flushSend {answers : List SendAnswer} {done : Bool} :
    (state.flushSend answers done fd).flags = state.flags := by
  funext other
  by_cases own : other = fd
  · subst own
    have sends : Sends True (fun _ => True) state (state.flushSend answers done other) :=
      flushSend_sends
    cases found : state.clients other with
    | none => simp [flags, found, sends.absent other found]
    | some client =>
        obtain ⟨later, present, _⟩ := sends.present other client found
        obtain ⟨before, same, flag⟩ := flushSend_flag present
        rw [found, Option.some.injEq] at same
        simp [flags, found, present, flag, same]
  · simp [flags, own]

end State

/-- The doomed list; behind a walk over it, it may hold who is closed already. -/
structure DoomedOnce (reaping : Prop) (slots : Nat) (state : State ρ) : Prop where
  nodup : state.doomed.Nodup
  shut : ∀ fd ∈ state.doomed, ¬ state.Open fd
  inside : ∀ fd ∈ state.doomed, fd < slots
  live : ¬ reaping → ∀ fd ∈ state.doomed, state.Live fd

namespace DoomedOnce

variable {reaping : Prop} {slots : Nat} {state after : State ρ} {fd : Fd}

theorem of_empty (empty : state.doomed = []) : DoomedOnce reaping slots state := by
  refine ⟨?_, ?_, ?_, fun _ => ?_⟩ <;> simp [empty]

theorem reap (once : DoomedOnce reaping slots state) : DoomedOnce True slots state :=
  ⟨once.nodup, once.shut, once.inside, fun wrong => absurd trivial wrong⟩

theorem sends {names : Prop} {types : UInt16 → Prop} (once : DoomedOnce reaping slots state)
    (bounded : ∀ fd, state.Live fd → fd < slots) (sends : Sends names types state after) :
    DoomedOnce reaping slots after := by
  obtain ⟨more, grown, fresh, member⟩ := sends.doomed
  have opened : ∀ fd ∈ more, state.Open fd := fun fd added => ((member fd).mp added).1
  have lively : ∀ fd ∈ more, state.Live fd := fun fd added =>
    let ⟨client, found, _⟩ := opened fd added
    ⟨client, found⟩
  refine ⟨?_, fun fd listed => ?_, fun fd listed => ?_, fun calm fd listed => ?_⟩
  · rw [grown]
    refine List.nodup_append.mpr ⟨once.nodup, fresh, ?_⟩
    rintro fd before _ added rfl
    exact once.shut fd before (opened fd added)
  · rw [grown, List.mem_append] at listed
    rcases listed with before | added
    · exact fun still => once.shut fd before (sends.open_back still)
    · exact ((member fd).mp added).2
  · rw [grown, List.mem_append] at listed
    rcases listed with before | added
    · exact once.inside fd before
    · exact bounded fd (lively fd added)
  · rw [grown, List.mem_append] at listed
    rw [sends.live_iff]
    rcases listed with before | added
    · exact once.live calm fd before
    · exact lively fd added

/-- Changes that neither open nor close a connection. -/
theorem congr (once : DoomedOnce reaping slots state) (doomed : after.doomed = state.doomed)
    (opened : ∀ fd, after.Open fd → state.Open fd) (live : ∀ fd, state.Live fd → after.Live fd) :
    DoomedOnce reaping slots after := by
  refine ⟨?_, ?_, ?_, fun calm => ?_⟩
  · exact doomed ▸ once.nodup
  · rw [doomed]
    exact fun fd listed still => once.shut fd listed (opened fd still)
  · exact doomed ▸ once.inside
  · rw [doomed]
    exact fun fd listed => live fd (once.live calm fd listed)

theorem update (once : DoomedOnce reaping slots state) (change : Client ρ → Client ρ)
    (same : ∀ client, (change client).closing = client.closing) :
    DoomedOnce reaping slots (state.update fd change) := by
  refine once.congr rfl (fun other opened => ?_) fun other live => ?_
  · obtain ⟨later, found, closing⟩ := opened
    by_cases own : other = fd
    · subst own
      rw [State.update_clients, Option.map_eq_some_iff] at found
      obtain ⟨client, before, rfl⟩ := found
      exact ⟨client, before, (same client).symm.trans closing⟩
    · rw [State.update_clients_ne _ own] at found
      exact ⟨later, found, closing⟩
  · exact ((State.update_sameFds _ _ _).1 other).mpr live

theorem insert (once : DoomedOnce False slots state) (fresh : ¬ state.Live fd) :
    DoomedOnce False slots (state.insert fd) := by
  have apart : ∀ other ∈ state.doomed, other ≠ fd := by
    rintro other listed rfl
    exact fresh (once.live id other listed)
  have same : ∀ other ∈ state.doomed, (state.insert fd).clients other = state.clients other :=
    fun other listed => by simp [State.insert, apart other listed]
  refine ⟨once.nodup, fun other listed => ?_, once.inside, fun _ other listed => ?_⟩
  · rw [State.Open, same other listed]
    exact once.shut other listed
  · rw [State.Live, same other listed]
    exact once.live id other listed

theorem remove (once : DoomedOnce True slots state) : DoomedOnce True slots (state.remove fd) := by
  refine ⟨once.nodup, fun other listed opened => ?_, once.inside, fun wrong => absurd trivial wrong⟩
  refine once.shut other listed ?_
  by_cases own : other = fd
  · subst own
    simp [State.Open, State.remove] at opened
  · simpa [State.Open, State.remove, own] using opened

end DoomedOnce

/-- The dirty list holds marked connections; a closed one may be left on it. -/
structure DirtyOnce (reaping : Prop) (slots : Nat) (state : State ρ) : Prop where
  nodup : state.dirty.Nodup
  inside : ∀ fd ∈ state.dirty, fd < slots
  flagged : ∀ fd ∈ state.dirty, state.flags fd ≠ some false
  live : ¬ reaping → ∀ fd ∈ state.dirty, state.flags fd ≠ none

namespace DirtyOnce

variable {reaping : Prop} {slots : Nat} {state after : State ρ} {fd : Fd}

theorem of_empty (empty : state.dirty = []) : DirtyOnce reaping slots state := by
  refine ⟨?_, ?_, ?_, fun _ => ?_⟩ <;> simp [empty]

theorem reap (once : DirtyOnce reaping slots state) : DirtyOnce True slots state :=
  ⟨once.nodup, once.inside, once.flagged, fun wrong => absurd trivial wrong⟩

theorem congr (once : DirtyOnce reaping slots state) (dirty : after.dirty = state.dirty)
    (flags : after.flags = state.flags) : DirtyOnce reaping slots after := by
  refine ⟨?_, ?_, ?_, fun calm => ?_⟩
  · exact dirty ▸ once.nodup
  · exact dirty ▸ once.inside
  · rw [dirty, flags]
    exact once.flagged
  · rw [dirty, flags]
    exact once.live calm

theorem mark (once : DirtyOnce reaping slots state) (bounded : ∀ fd, state.Live fd → fd < slots) :
    DirtyOnce reaping slots (state.markDirty fd) := by
  rcases state.markDirty_cases fd with ⟨client, found, unmarked, _, same⟩ | ⟨_, same⟩
  · have fresh : fd ∉ state.dirty := fun listed =>
      once.flagged fd listed (by simp [State.flags, found, unmarked])
    have flags : ∀ other, (state.markDirty fd).flags other =
        if other = fd then some true else state.flags other := by
      intro other
      rw [same]
      by_cases own : other = fd
      · subst own
        simp [State.flags, State.update, found]
      · simp [State.flags, State.update, own]
    have dirty : (state.markDirty fd).dirty = state.dirty ++ [fd] := by rw [same]
    refine ⟨?_, ?_, ?_, fun calm => ?_⟩
    · rw [dirty]
      refine List.nodup_append.mpr ⟨once.nodup, List.nodup_singleton fd, ?_⟩
      rintro other listed _ added rfl
      exact fresh (List.mem_singleton.mp added ▸ listed)
    · rw [dirty]
      intro other listed
      rcases List.mem_append.mp listed with before | added
      · exact once.inside other before
      · exact List.mem_singleton.mp added ▸ bounded fd ⟨client, found⟩
    · rw [dirty]
      intro other listed
      rw [flags]
      split
      · simp
      next apart =>
        rcases List.mem_append.mp listed with before | added
        · exact once.flagged other before
        · exact absurd (List.mem_singleton.mp added) apart
    · rw [dirty]
      intro other listed
      rw [flags]
      split
      · simp
      next apart =>
        rcases List.mem_append.mp listed with before | added
        · exact once.live calm other before
        · exact absurd (List.mem_singleton.mp added) apart
  · rwa [same]

theorem insert (once : DirtyOnce False slots state) (fresh : ¬ state.Live fd) :
    DirtyOnce False slots (state.insert fd) := by
  have same : ∀ other ∈ state.dirty, (state.insert fd).flags other = state.flags other := by
    intro other listed
    have apart : other ≠ fd := by
      rintro rfl
      exact fresh (State.flags_live (once.live id other listed))
    simp [State.flags, State.insert, apart]
  refine ⟨once.nodup, once.inside, fun other listed => ?_, fun _ other listed => ?_⟩
  · rw [same other listed]
    exact once.flagged other listed
  · rw [same other listed]
    exact once.live id other listed

theorem remove (once : DirtyOnce True slots state) : DirtyOnce True slots (state.remove fd) := by
  refine ⟨once.nodup, once.inside, fun other listed => ?_, fun wrong => absurd trivial wrong⟩
  by_cases own : other = fd
  · subst own
    simp [State.flags, State.remove]
  · have same : (state.remove fd).flags other = state.flags other := by
      simp [State.flags, State.remove, own]
    rw [same]
    exact once.flagged other listed

end DirtyOnce

end NetEngine.Epoll
