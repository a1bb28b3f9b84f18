import NetEngine.Uring.ThreadCtl

/-! The lifecycle of a thread, whatever the interleaving: where the trampoline
stands says what `_state` can be, and every change of `_state` is one of four. -/

set_option autoImplicit false

namespace NetEngine.ThreadCtl

/-- The changes of `_state` that the protocol has, and who makes them. -/
inductive Moves : Writer → LifeState → LifeState → Prop where
  | promote : Moves .thread .starting .running
  | cancel : Moves .stopper .starting .draining
  | drain : Moves .stopper .running .draining
  | stop : Moves .thread .draining .stopped

/-- A stop has been asked for, and it has not been lost. -/
def Ctl.Past (ctl : Ctl) : Prop := ctl.state = .draining ∨ ctl.state = .stopped

/-- The thread has published its tid. -/
def Thread.Published (thread : Thread) : Prop := thread ≠ .idle ∧ thread ≠ .entered

/-- What `_state` and `_kernel_tid` hold while the thread stands there. -/
def Thread.Ok (guard : ThreadRole) (tid : BitVec 32) (ctl : Ctl) : Thread → Prop
  | .idle | .entered => ctl.state = .starting ∨ ctl.state = .draining
  | .published tlsRole =>
      tlsRole = guard ∧ ctl.kernelTid = tid ∧ (ctl.state = .starting ∨ ctl.state = .draining)
  | .attached => ctl.kernelTid = tid ∧ (ctl.state = .starting ∨ ctl.state = .draining)
  | .looping | .beating => ctl.kernelTid = tid ∧ (ctl.state = .running ∨ ctl.state = .draining)
  | .leaving => ctl.kernelTid = tid ∧ ctl.state = .draining
  | .refused observed => ctl.kernelTid = tid ∧ observed = .draining ∧ ctl.state = .draining
  | .returned => ctl.kernelTid = tid ∧ ctl.state = .stopped
  | .trapped => False

def Stopper.Ok (ctl : Ctl) : Stopper → Prop
  | .called => True
  | .observed value => value = .starting ∨ value = .running ∨ ctl.Past
  | .returned => ctl.Past

def Reader.Ok (tid : BitVec 32) (ctl : Ctl) (thread : Thread) : Reader → Prop
  | .called => True
  | .sawRunning => thread.Published ∧ ctl.kernelTid = tid
  | .returned value => value ≠ 0 → thread.Published ∧ value = tid

structure Inv (guard : ThreadRole) (tid : BitVec 32) (w : World) : Prop where
  thread : w.thread.Ok guard tid w.ctl
  stoppers : ∀ stopper ∈ w.stoppers, stopper.Ok w.ctl
  readers : ∀ reader ∈ w.readers, reader.Ok tid w.ctl w.thread
  writes : ∀ write ∈ w.ctl.writes, Moves write.writer write.replaced write.value
  joiner : w.joiner ≠ .trapped

/-! ## One atomic operation -/

/-- A change of the control block: `_state` is as it was, or it moved and the move was noted. -/
inductive Changes (writer : Writer) (ctl next : Ctl) : Prop where
  | none : next.state = ctl.state → next.writes = ctl.writes → Changes writer ctl next
  | moved {value : LifeState} : Moves writer ctl.state value → next.state = value →
      next.writes = ctl.writes ++ [⟨writer, ctl.state, value⟩] → Changes writer ctl next

namespace Changes

variable {writer : Writer} {ctl next : Ctl}

theorem past (changes : Changes writer ctl next) (past : ctl.Past) : next.Past := by
  cases changes with
  | none same _ => rwa [Ctl.Past, same]
  | moved moves same _ =>
      cases past with
      | inl draining =>
          rw [draining] at moves
          cases moves
          exact .inr same
      | inr stopped =>
          rw [stopped] at moves
          cases moves

theorem writes (changes : Changes writer ctl next)
    (before : ∀ write ∈ ctl.writes, Moves write.writer write.replaced write.value) :
    ∀ write ∈ next.writes, Moves write.writer write.replaced write.value := by
  cases changes with
  | none _ same => rwa [same]
  | moved moves _ same =>
      intro write member
      rw [same] at member
      cases List.mem_append.mp member with
      | inl early => exact before write early
      | inr last =>
          cases List.mem_singleton.mp last
          exact moves

theorem stoppers (changes : Changes writer ctl next) {stopper : Stopper}
    (before : stopper.Ok ctl) : stopper.Ok next := by
  cases stopper with
  | called => trivial
  | observed value => exact before.imp_right (Or.imp_right changes.past)
  | returned => exact changes.past before

end Changes

theorem compareExchange_changes {ctl : Ctl} {writer : Writer} {desired expected : LifeState}
    (moves : Moves writer expected desired) :
    Changes writer ctl (ctl.compareExchange writer desired expected).1 := by
  unfold Ctl.compareExchange
  split
  next same => exact .moved (same ▸ moves) rfl rfl
  next => exact .none rfl rfl

section Thread

variable {guard : ThreadRole} {tid : BitVec 32} {ctl : Ctl} {thread : Thread}

/-- One step of the trampoline. -/
theorem trampoline_ok (ok : thread.Ok guard tid ctl) :
    Changes .thread ctl (trampoline guard guard tid ctl thread).1 ∧
      (trampoline guard guard tid ctl thread).2.Ok guard tid
        (trampoline guard guard tid ctl thread).1 := by
  cases thread with
  | idle => exact ⟨.none rfl rfl, ok⟩
  | entered => exact ⟨.none rfl rfl, rfl, rfl, ok⟩
  | published tlsRole =>
      obtain ⟨role, published, early⟩ := ok
      simp only [trampoline, if_pos role]
      exact ⟨.none rfl rfl, published, early⟩
  | attached =>
      obtain ⟨published, early⟩ := ok
      refine ⟨compareExchange_changes .promote, ?_⟩
      cases early with
      | inl starting =>
          simp only [trampoline, Ctl.compareExchange, if_pos starting, if_true]
          exact ⟨published, .inl rfl⟩
      | inr draining =>
          have refused : ¬ ctl.state = .starting := by simp [draining]
          simp only [trampoline, Ctl.compareExchange, if_neg refused]
          exact ⟨published, draining, draining⟩
  | looping =>
      obtain ⟨published, live⟩ := ok
      refine ⟨.none rfl rfl, ?_⟩
      cases live with
      | inl running =>
          simp only [trampoline, if_pos running]
          exact ⟨published, .inl running⟩
      | inr draining =>
          have beyond : ¬ ctl.state = .running := by simp [draining]
          simp only [trampoline, if_neg beyond]
          exact ⟨published, draining⟩
  | beating => exact ⟨.none rfl rfl, ok⟩
  | leaving =>
      obtain ⟨published, draining⟩ := ok
      exact ⟨.moved (draining ▸ .stop) rfl rfl, published, rfl⟩
  | refused observed =>
      obtain ⟨published, check, draining⟩ := ok
      simp only [trampoline, if_pos check]
      exact ⟨.moved (draining ▸ .stop) rfl rfl, published, rfl⟩
  | returned => exact ⟨.none rfl rfl, ok⟩
  | trapped => exact ok.elim

/-- A published tid stays published, with its value. -/
theorem trampoline_published (published : thread.Published) :
    (trampoline guard guard tid ctl thread).2.Published ∧
      (trampoline guard guard tid ctl thread).1.kernelTid = ctl.kernelTid := by
  cases thread with
  | idle => exact absurd rfl published.1
  | entered => exact absurd rfl published.2
  | published tlsRole =>
      simp only [trampoline]
      split <;> simp [Thread.Published]
  | attached =>
      cases starting : decide (ctl.state = .starting) <;>
        simp_all [trampoline, Ctl.compareExchange, Ctl.store, Thread.Published]
  | looping =>
      simp only [trampoline]
      split <;> simp [Thread.Published]
  | refused observed =>
      simp only [trampoline]
      split <;> simp [Thread.Published, Ctl.store]
  | beating | leaving | returned | trapped => simp [trampoline, Thread.Published, Ctl.store]

/-- A stop that is written leaves the thread where the protocol has it. -/
theorem Thread.Ok.drained (ok : thread.Ok guard tid ctl)
    (live : ctl.state = .starting ∨ ctl.state = .running) :
    thread.Ok guard tid (ctl.store .stopper .draining) := by
  cases thread with
  | idle | entered => exact .inr rfl
  | published tlsRole => exact ⟨ok.1, ok.2.1, .inr rfl⟩
  | attached | looping | beating => exact ⟨ok.1, .inr rfl⟩
  | leaving => exact ⟨ok.1, rfl⟩
  | refused observed => exact ⟨ok.1, ok.2.1, rfl⟩
  | returned =>
      rw [ok.2] at live
      simp at live
  | trapped => exact ok

/-- One step of a `request_stop`. -/
theorem requestStop_ok {stopper : Stopper} (ok : stopper.Ok ctl) :
    Changes .stopper ctl (requestStop ctl stopper).1 ∧
      (requestStop ctl stopper).2.Ok (requestStop ctl stopper).1 ∧
      (requestStop ctl stopper).1.kernelTid = ctl.kernelTid ∧
      (thread.Ok guard tid ctl → thread.Ok guard tid (requestStop ctl stopper).1) := by
  cases stopper with
  | called =>
      refine ⟨.none rfl rfl, ?_, rfl, id⟩
      cases state : ctl.state with
      | starting => exact .inl state
      | running => exact .inr (.inl state)
      | draining => exact .inr (.inr (.inl state))
      | stopped => exact .inr (.inr (.inr state))
  | returned => exact ⟨.none rfl rfl, ok, rfl, id⟩
  | observed value =>
      by_cases live : value = .starting ∨ value = .running
      · have moves : Moves .stopper value .draining := by
          cases live with
          | inl starting => exact starting ▸ .cancel
          | inr running => exact running ▸ .drain
        by_cases same : ctl.state = value
        · simp only [requestStop, if_pos live, Ctl.compareExchange, if_pos same, if_true]
          exact ⟨.moved (same ▸ moves) rfl rfl, .inl rfl, rfl, fun ok => ok.drained (same ▸ live)⟩
        · simp only [requestStop, if_pos live, Ctl.compareExchange, if_neg same]
          refine ⟨.none rfl rfl, ?_, trivial, id⟩
          cases state : ctl.state with
          | starting => exact .inl rfl
          | running => exact .inr (.inl rfl)
          | draining => exact .inr (.inr (.inl state))
          | stopped => exact .inr (.inr (.inr state))
      · simp only [requestStop, if_neg live]
        refine ⟨.none rfl rfl, ?_, trivial, id⟩
        cases ok with
        | inl starting => exact absurd (.inl starting) live
        | inr rest =>
            cases rest with
            | inl running => exact absurd (.inr running) live
            | inr past => exact past

end Thread

/-! ## Runs -/

section Runs

variable {guard : ThreadRole} {tid : BitVec 32} {w : World}

theorem Inv.init : Inv guard tid {} :=
  ⟨.inl rfl, by simp, by simp, by simp, by simp⟩

theorem Inv.thread_step (inv : Inv guard tid w) :
    Inv guard tid (step (trampoline guard guard tid) w .thread) := by
  obtain ⟨changes, ok⟩ := trampoline_ok inv.thread
  refine ⟨ok, fun stopper member => changes.stoppers (inv.stoppers stopper member), ?_,
    changes.writes inv.writes, inv.joiner⟩
  intro reader member
  have before := inv.readers reader member
  cases reader with
  | called => trivial
  | sawRunning =>
      obtain ⟨published, value⟩ := before
      obtain ⟨still, same⟩ := trampoline_published published
      exact ⟨still, same.trans value⟩
  | returned value =>
      intro nonzero
      obtain ⟨published, same⟩ := before nonzero
      exact ⟨(trampoline_published published).1, same⟩

theorem Inv.stopper_step (inv : Inv guard tid w) (call : Nat) :
    Inv guard tid (step (trampoline guard guard tid) w (.stopper call)) := by
  simp only [step]
  split
  · exact inv
  next stopper found =>
    have member := List.mem_of_getElem? found
    obtain ⟨changes, ok, published, thread⟩ := @requestStop_ok guard tid w.ctl w.thread stopper
      (inv.stoppers stopper member)
    refine ⟨thread inv.thread, ?_, ?_, changes.writes inv.writes, inv.joiner⟩
    · intro other otherMember
      cases List.mem_or_eq_of_mem_set otherMember with
      | inl before => exact changes.stoppers (inv.stoppers other before)
      | inr own => exact own ▸ ok
    · intro reader readerMember
      have before := inv.readers reader readerMember
      cases reader with
      | called => trivial
      | sawRunning => exact ⟨before.1, published.trans before.2⟩
      | returned value => exact before

theorem Inv.reader_step (inv : Inv guard tid w) (call : Nat) :
    Inv guard tid (step (trampoline guard guard tid) w (.reader call)) := by
  simp only [step]
  split
  · exact inv
  next reader found =>
    have before := inv.readers reader (List.mem_of_getElem? found)
    have after : (kernelTid w.ctl reader).Ok tid w.ctl w.thread := by
      cases reader with
      | called =>
          simp only [kernelTid]
          split
          · exact fun nonzero => absurd rfl nonzero
          next running =>
            have running : w.ctl.state = .running := Decidable.of_not_not running
            have ok := inv.thread
            cases thread : w.thread <;> simp_all [Thread.Ok, Reader.Ok, Thread.Published]
      | sawRunning => exact fun _ => before
      | returned value => exact before
    refine ⟨inv.thread, inv.stoppers, fun other member => ?_, inv.writes, inv.joiner⟩
    cases List.mem_or_eq_of_mem_set member with
    | inl early => exact inv.readers other early
    | inr own => exact own ▸ after

theorem Inv.step (inv : Inv guard tid w) (action : Action) :
    Inv guard tid (step (trampoline guard guard tid) w action) := by
  cases action with
  | thread => exact inv.thread_step
  | stopper call => exact inv.stopper_step call
  | reader call => exact inv.reader_step call
  | start =>
      simp only [ThreadCtl.step]
      split
      next idle =>
        have early : w.ctl.state = .starting ∨ w.ctl.state = .draining := by
          have ok := inv.thread
          rwa [idle] at ok
        refine ⟨early, inv.stoppers, fun reader member => ?_, inv.writes, inv.joiner⟩
        have before := inv.readers reader member
        cases reader with
        | called => trivial
        | sawRunning => exact absurd idle before.1.1
        | returned value => exact fun nonzero => absurd idle (before nonzero).1.1
      · exact inv
  | requestStop =>
      refine ⟨inv.thread, fun stopper member => ?_, inv.readers, inv.writes, inv.joiner⟩
      cases List.mem_append.mp member with
      | inl early => exact inv.stoppers stopper early
      | inr last =>
          cases List.mem_singleton.mp last
          trivial
  | kernelTid =>
      refine ⟨inv.thread, inv.stoppers, fun reader member => ?_, inv.writes, inv.joiner⟩
      cases List.mem_append.mp member with
      | inl early => exact inv.readers reader early
      | inr last =>
          cases List.mem_singleton.mp last
          trivial
  | join =>
      refine ⟨inv.thread, inv.stoppers, inv.readers, inv.writes, ?_⟩
      have fine := inv.joiner
      have ok := inv.thread
      simp only [ThreadCtl.step]
      cases joiner : w.joiner with
      | waiting =>
          simp only [ThreadCtl.join]
          split
          next returned =>
            rw [returned] at ok
            simp [ok.2]
          · simp
      | passed => simp [ThreadCtl.join]
      | trapped => exact absurd joiner fine

theorem Role.entry_eq (role : Role) : ∃ guard, role.entry tid = trampoline guard guard tid := by
  cases role with
  | worker => exact ⟨.worker, rfl⟩
  | acceptor => exact ⟨.acceptor, rfl⟩

theorem run_inv (role : Role) (tid : BitVec 32) :
    ∃ guard, role.entry tid = trampoline guard guard tid ∧
      ∀ schedule, Inv guard tid (run role tid schedule) := by
  obtain ⟨guard, same⟩ := role.entry_eq
  refine ⟨guard, same, fun schedule => ?_⟩
  unfold run
  rw [same]
  exact Machine.run_keeps (fun _ action inv => inv.step action) .init schedule

/-- Every step leaves `_state` alone or makes one of the four moves. -/
theorem Inv.changes (inv : Inv guard tid w) (action : Action) :
    ∃ writer, Changes writer w.ctl (ThreadCtl.step (trampoline guard guard tid) w action).ctl := by
  cases action with
  | thread => exact ⟨.thread, (trampoline_ok inv.thread).1⟩
  | stopper call =>
      simp only [ThreadCtl.step]
      split
      · exact ⟨.stopper, .none rfl rfl⟩
      next stopper found =>
        have ok := inv.stoppers stopper (List.mem_of_getElem? found)
        exact ⟨.stopper, (@requestStop_ok guard tid w.ctl w.thread stopper ok).1⟩
  | reader call =>
      simp only [ThreadCtl.step]
      split <;> exact ⟨.thread, .none rfl rfl⟩
  | start =>
      simp only [ThreadCtl.step]
      split <;> exact ⟨.thread, .none rfl rfl⟩
  | requestStop | kernelTid | join => exact ⟨.thread, .none rfl rfl⟩

theorem Inv.past_run (inv : Inv guard tid w) (past : w.ctl.Past) (later : List Action) :
    (Machine.run (ThreadCtl.step (trampoline guard guard tid)) w later).ctl.Past := by
  have kept : ∀ w action, (Inv guard tid w ∧ w.ctl.Past) →
      Inv guard tid (ThreadCtl.step (trampoline guard guard tid) w action) ∧
        (ThreadCtl.step (trampoline guard guard tid) w action).ctl.Past := by
    rintro w action ⟨inv, past⟩
    obtain ⟨writer, changes⟩ := inv.changes action
    exact ⟨inv.step action, changes.past past⟩
  exact (Machine.run_keeps kept ⟨inv, past⟩ later).2

end Runs

/-- The lifecycle of one thread at the end of a schedule, and from there on. -/
structure Lifecycle (role : Role) (tid : BitVec 32) (schedule : List Action) : Prop where
  /-- All that was ever written over `_state`. -/
  moved : ∀ write ∈ (run role tid schedule).ctl.writes, Moves write.writer write.replaced write.value
  /-- Whatever comes next, `_state` stays or makes one of the four moves. -/
  moves : ∀ action,
    (run role tid (schedule ++ [action])).ctl.state = (run role tid schedule).ctl.state ∨
      ∃ writer, Moves writer (run role tid schedule).ctl.state
        (run role tid (schedule ++ [action])).ctl.state
  /-- Once a `request_stop` has returned, the stop is never lost. -/
  kept : .returned ∈ (run role tid schedule).stoppers → ∀ later,
    (run role tid (schedule ++ later)).ctl.Past
  /-- No check of the trampoline fires. -/
  checked : (run role tid schedule).thread ≠ .trapped
  returned : (run role tid schedule).thread = .returned →
    (run role tid schedule).ctl.state = .stopped
  joined : (run role tid schedule).joiner ≠ .trapped
  named : ∀ value, .returned value ∈ (run role tid schedule).readers → value ≠ 0 →
    (run role tid schedule).thread.Published ∧ value = tid

/-- Every interleaving of a trampoline with `request_stop`, `kernel_tid` and
`join` calls, of either role, goes through the lifecycle. -/
theorem thread_lifecycle (role : Role) (tid : BitVec 32) (schedule : List Action) :
    Lifecycle role tid schedule := by
  obtain ⟨guard, entry, always⟩ := run_inv role tid
  have inv := always schedule
  have next : ∀ later, run role tid (schedule ++ later) =
      Machine.run (step (trampoline guard guard tid)) (run role tid schedule) later := by
    intro later
    rw [run, Machine.run_append, entry]
    simp only [run, entry]
  refine ⟨inv.writes, fun action => ?_, fun stop later => ?_, fun trapped => ?_, fun returned => ?_,
    inv.joiner, fun value member => inv.readers _ member⟩
  · obtain ⟨writer, changes⟩ := inv.changes action
    rw [next]
    cases changes with
    | none same _ => exact .inl same
    | moved moves same _ => exact .inr ⟨writer, same ▸ moves⟩
  · rw [next]
    exact inv.past_run (inv.stoppers .returned stop) later
  · have ok := inv.thread
    rwa [trapped] at ok
  · have ok := inv.thread
    rw [returned] at ok
    exact ok.2

end NetEngine.ThreadCtl
