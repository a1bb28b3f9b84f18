/-! Deterministic machines over a schedule of actions. A property that the start
has and every step keeps holds of every run; a stable one, once it holds, stays. -/

set_option autoImplicit false

namespace NetEngine.Machine

variable {State Action : Type}

def run (step : State → Action → State) (state : State) (schedule : List Action) : State :=
  schedule.foldl step state

@[simp] theorem run_nil (step : State → Action → State) (state : State) :
    run step state [] = state := rfl

@[simp] theorem run_cons (step : State → Action → State) (state : State) (action : Action)
    (schedule : List Action) :
    run step state (action :: schedule) = run step (step state action) schedule := rfl

theorem run_append (step : State → Action → State) (state : State) (early late : List Action) :
    run step state (early ++ late) = run step (run step state early) late :=
  List.foldl_append

theorem run_snoc (step : State → Action → State) (state : State) (schedule : List Action)
    (action : Action) :
    run step state (schedule ++ [action]) = step (run step state schedule) action := by
  rw [run_append, run_cons, run_nil]

/-- What every step keeps, every run keeps. -/
theorem run_keeps {step : State → Action → State} {holds : State → Prop}
    (keeps : ∀ state action, holds state → holds (step state action)) {state : State}
    (before : holds state) (schedule : List Action) : holds (run step state schedule) := by
  induction schedule generalizing state with
  | nil => exact before
  | cons action schedule ih => exact ih (keeps state action before)

/-- The same with a condition on the actions of the schedule. -/
theorem run_keeps_of {step : State → Action → State} {holds : State → Prop}
    {allowed : Action → Prop}
    (keeps : ∀ state action, allowed action → holds state → holds (step state action))
    {state : State} (before : holds state) {schedule : List Action}
    (fine : ∀ action ∈ schedule, allowed action) : holds (run step state schedule) := by
  induction schedule generalizing state with
  | nil => exact before
  | cons action schedule ih =>
      exact ih (keeps state action (fine action List.mem_cons_self) before)
        fun later member => fine later (List.mem_cons_of_mem action member)

/-! ## Judged steps -/

section Each

variable {step : State → Action → State} {holds : State → Prop}
  {allowed good safe : State → Action → Prop}

/-- Every action of the schedule is judged good in the state that it meets. -/
def Each (step : State → Action → State) (good : State → Action → Prop) :
    List Action → State → Prop
  | [], _ => True
  | action :: schedule, state => good state action ∧ Each step good schedule (step state action)

theorem each_of_forall (always : ∀ state action, good state action) (schedule : List Action)
    (state : State) : Each step good schedule state := by
  induction schedule generalizing state with
  | nil => trivial
  | cons action schedule ih => exact ⟨always state action, ih _⟩

/-- Two judgements that agree as long as the safe steps keep an invariant agree on
every allowed run. -/
theorem each_iff
    (keeps : ∀ state action, holds state → allowed state action → safe state action →
      holds (step state action))
    (exact : ∀ state action, holds state → allowed state action →
      (good state action ↔ safe state action))
    {state : State} (before : holds state) {schedule : List Action}
    (fine : Each step allowed schedule state) :
    Each step good schedule state ↔ Each step safe schedule state := by
  induction schedule generalizing state with
  | nil => exact Iff.rfl
  | cons action schedule ih =>
      obtain ⟨here, later⟩ := fine
      have same := exact state action before here
      constructor
      · intro ⟨met, rest⟩
        have kept := keeps state action before here (same.mp met)
        exact ⟨same.mp met, (ih kept later).mp rest⟩
      · intro ⟨met, rest⟩
        have kept := keeps state action before here met
        exact ⟨same.mpr met, (ih kept later).mpr rest⟩

end Each

/-! ## Faults -/

/-- No action of the schedule meets a fault. -/
def Calm (step : State → Action → State) (fault : State → Action → Prop) : List Action → State → Prop
  | [], _ => True
  | action :: schedule, state =>
      ¬ fault state action ∧ Calm step fault schedule (step state action)

section Log

variable {step : State → Action → State} {fault : State → Action → Prop} {holds : State → Prop}
  {log : State → List Action}
  (keeps : ∀ state action, holds state → holds (step state action))
  (faulty : ∀ state action, holds state → fault state action →
    log (step state action) = log state ++ [action])
  (quiet : ∀ state action, holds state → ¬ fault state action → log (step state action) = log state)

include keeps faulty quiet

theorem run_log {state : State} (before : holds state) (schedule : List Action) :
    (log state).length ≤ (log (run step state schedule)).length := by
  induction schedule generalizing state with
  | nil => exact Nat.le_refl _
  | cons action schedule ih =>
      refine Nat.le_trans ?_ (ih (keeps state action before))
      by_cases met : fault state action
      · rw [faulty state action before met, List.length_append]
        exact Nat.le_add_right ..
      · exact Nat.le_of_eq (congrArg List.length (quiet state action before met)).symm

/-- A log of the faults is what it was iff none was met. -/
theorem run_log_iff {state : State} (before : holds state) (schedule : List Action) :
    log (run step state schedule) = log state ↔ Calm step fault schedule state := by
  induction schedule generalizing state with
  | nil => exact iff_of_true rfl trivial
  | cons action schedule ih =>
      have next := keeps state action before
      rw [run_cons, Calm]
      by_cases met : fault state action
      · refine iff_of_false (fun same => ?_) fun calm => calm.1 met
        have grown := run_log keeps faulty quiet next schedule
        rw [same, faulty state action before met, List.length_append] at grown
        exact absurd grown (Nat.not_le.mpr (Nat.lt_succ_self _))
      · rw [← quiet state action before met, ih next]
        exact (and_iff_right met).symm

end Log

/-! ## Traces -/

/-- Where an event of a list with one more event at its end can stand. -/
theorem split_snoc {α : Type} {front back trace : List α} {item last : α}
    (same : trace ++ [last] = front ++ item :: back) :
    (trace = front ∧ last = item ∧ back = []) ∨
      ∃ shorter, back = shorter ++ [last] ∧ trace = front ++ item :: shorter := by
  rcases List.eq_nil_or_concat back with rfl | ⟨shorter, other, rfl⟩
  · obtain ⟨rfl, rest⟩ := List.append_inj' same rfl
    exact .inl ⟨rfl, by simpa using rest, rfl⟩
  · rw [List.concat_eq_append, ← List.cons_append, ← List.append_assoc] at same
    obtain ⟨trace_eq, rest⟩ := List.append_inj' same rfl
    obtain rfl : last = other := by simpa using rest
    exact .inr ⟨shorter, List.concat_eq_append .., trace_eq⟩

/-- Where an event can stand that is before a list or in it. -/
theorem split_append {α : Type} {front back trace more : List α} {item : α}
    (same : trace ++ more = front ++ item :: back) :
    (∃ inside, trace = front ++ item :: inside ∧ back = inside ++ more) ∨
      ∃ start, front = trace ++ start ∧ more = start ++ item :: back := by
  rcases List.append_eq_append_iff.mp same with ⟨start, front_eq, more_eq⟩ | ⟨inside, trace_eq, rest⟩
  · exact .inr ⟨start, front_eq, more_eq⟩
  · cases inside with
    | nil => exact .inr ⟨[], by simpa using trace_eq.symm, rest.symm⟩
    | cons first inside =>
        obtain ⟨rfl, rfl⟩ := List.cons.inj rest
        exact .inl ⟨inside, trace_eq, rfl⟩

end NetEngine.Machine
