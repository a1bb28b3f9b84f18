import NetEngine.Library.Machine

/-! Liveness under bounded fairness: a schedule in rounds, in each of which every agent has
its turn, gets a machine done if there is always an agent that brings it closer, and the
others leave it that agent. -/

set_option autoImplicit false

namespace NetEngine.Machine

variable {State Action : Type}

/-- No action raises the rank, and the helpful one lowers it, whenever it is taken. -/
structure Progress (step : State → Action → State) (holds done : State → Prop)
    (rank : State → Nat) (helpful : State → Action) (agent : Action → Prop) : Prop where
  keeps : ∀ state action, holds state → holds (step state action)
  rests : ∀ state action, done state → done (step state action)
  falls : ∀ state action, holds state → ¬ done state → rank (step state action) ≤ rank state
  agent : ∀ state, holds state → ¬ done state → agent (helpful state)
  helps : ∀ state, holds state → ¬ done state → rank (step state (helpful state)) < rank state
  waits : ∀ state action, holds state → ¬ done state → rank (step state action) = rank state →
    helpful (step state action) = helpful state

namespace Progress

variable {step : State → Action → State} {holds done : State → Prop} {rank : State → Nat}
  {helpful : State → Action} {agent : Action → Prop}

theorem rests_run (progress : Progress step holds done rank helpful agent) {state : State}
    (finished : done state) (schedule : List Action) : done (run step state schedule) :=
  run_keeps progress.rests finished schedule

theorem falls_run (progress : Progress step holds done rank helpful agent) {state : State}
    (before : holds state) (schedule : List Action) :
    done (run step state schedule) ∨ rank (run step state schedule) ≤ rank state := by
  induction schedule generalizing state with
  | nil => exact .inr (Nat.le_refl _)
  | cons action schedule ih =>
      by_cases finished : done state
      · exact .inl (progress.rests_run finished (action :: schedule))
      · rcases ih (progress.keeps state action before) with ends | lower
        · exact .inl ends
        · exact .inr (Nat.le_trans lower (progress.falls state action before finished))

/-- A schedule that has the helpful action in it lowers the rank. -/
theorem round (progress : Progress step holds done rank helpful agent) {state : State}
    (before : holds state) (schedule : List Action) (helped : helpful state ∈ schedule) :
    done (run step state schedule) ∨ rank (run step state schedule) < rank state := by
  induction schedule generalizing state with
  | nil => cases helped
  | cons action schedule ih =>
      by_cases finished : done state
      · exact .inl (progress.rests_run finished (action :: schedule))
      have next := progress.keeps state action before
      rcases Nat.lt_or_eq_of_le (progress.falls state action before finished) with lower | same
      · rcases progress.falls_run next schedule with ends | rest
        · exact .inl ends
        · exact .inr (Nat.lt_of_le_of_lt rest lower)
      · have later : helpful state ∈ schedule := by
          rcases List.mem_cons.mp helped with own | later
          · have helps := progress.helps state before finished
            rw [own, same] at helps
            exact absurd helps (Nat.lt_irrefl _)
          · exact later
        rcases ih next (progress.waits state action before finished same ▸ later) with ends | lower
        · exact .inl ends
        · exact .inr (same ▸ lower)

/-- Enough rounds with a turn for every agent. -/
theorem rounds (progress : Progress step holds done rank helpful agent) {state : State}
    (before : holds state) (rounds : List (List Action))
    (fair : ∀ round ∈ rounds, ∀ action, agent action → action ∈ round)
    (enough : rank state < rounds.length) : done (run step state rounds.flatten) := by
  induction rounds generalizing state with
  | nil => cases enough
  | cons round rounds ih =>
      rw [List.flatten_cons, run_append]
      have next : holds (run step state round) := run_keeps progress.keeps before round
      by_cases finished : done state
      · exact progress.rests_run (progress.rests_run finished round) rounds.flatten
      · have turn := fair round List.mem_cons_self _ (progress.agent state before finished)
        rcases progress.round before round turn with ends | lower
        · exact progress.rests_run ends rounds.flatten
        · refine ih next (fun other member => fair other (List.mem_cons_of_mem _ member)) ?_
          exact Nat.lt_of_lt_of_le lower (Nat.le_of_lt_succ enough)

end Progress

end NetEngine.Machine
