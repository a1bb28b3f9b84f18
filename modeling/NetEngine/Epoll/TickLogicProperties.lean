import Mathlib.Data.Int.ConditionallyCompleteOrder
import Mathlib.Data.List.Chain
import NetEngine.Bench.HistogramProperties
import NetEngine.Epoll.TickLogic
import NetEngine.Library.Machine

/-! The rate of the ticks and the accounts of their periods, in every run of the loop. -/

set_option autoImplicit false

namespace NetEngine.Tick

open Machine

/-- Ended past the deadline by more than a period. -/
def Entry.late (period : Int) (tick : Entry) : Bool := tick.deadline + period < tick.stop

/-- The deadline of the tick after this one. -/
def Entry.next (period : Int) (tick : Entry) : Int :=
  if tick.late period then tick.stop + period else tick.deadline + period

/-- The ticks of a run, one after the other. -/
structure Ticking (period : Int) (log : List Entry) : Prop where
  started : ∀ tick ∈ log, tick.deadline ≤ tick.start ∧ tick.start ≤ tick.stop
  chained : log.IsChain fun tick later => later.deadline = tick.next period

/-- The measured intervals, split over the periods: what the ticks were given, and
what the accumulator holds. -/
def Attributed (measured given : List Int) (current : Int) : Prop :=
  ∃ (periods : List (List Int)) (open_ : List Int),
    measured = periods.flatten ++ open_ ∧ given = periods.map List.sum ∧ current = open_.sum

namespace Attributed

variable {measured given : List Int} {current : Int}

theorem init : Attributed [] [] 0 := ⟨[], [], rfl, rfl, rfl⟩

theorem measure (attributed : Attributed measured given current) (interval : Int) :
    Attributed (measured ++ [interval]) given (current + interval) := by
  obtain ⟨periods, open_, rfl, rfl, rfl⟩ := attributed
  exact ⟨periods, open_ ++ [interval], by rw [List.append_assoc], rfl, by simp⟩

theorem close (attributed : Attributed measured given current) :
    Attributed measured (given ++ [current]) 0 := by
  obtain ⟨periods, open_, rfl, rfl, rfl⟩ := attributed
  exact ⟨periods ++ [open_], [], by simp, by simp, rfl⟩

/-- Nothing is lost or counted twice. -/
theorem sum_eq (attributed : Attributed measured given current) :
    given.sum + current = measured.sum := by
  obtain ⟨periods, open_, rfl, rfl, rfl⟩ := attributed
  rw [List.sum_append, List.sum_flatten]

end Attributed

/-! ## The invariant -/

/-- What holds of the schedule between two readings of the clock. -/
structure Scheduled (clock : Nat → Int) (period : Int) (s : State) : Prop where
  enabled : s.enabled = true
  paced : s.period = period
  near : s.deadline ≤ s.now clock + period
  ticking : Ticking period s.log
  last : ∀ tick ∈ s.log.getLast?, s.deadline = tick.next period
  ticks : s.ticks = s.log.length
  overruns : s.overruns = s.log.countP (Entry.late period)
  drained : Attributed s.drains (s.log.map Entry.drain) s.drainAcc
  flushed : Attributed s.flushes (s.log.map Entry.flush) s.flushAcc
  hDrain : s.hDrain = .ofSamples (s.log.map Entry.drain)
  hFlush : s.hFlush = .ofSamples (s.log.map Entry.flush)

theorem Entry.next_le {period seen : Int} {tick : Entry} (ended : tick.stop ≤ seen)
    (started : tick.deadline ≤ seen) : tick.next period ≤ seen + period := by
  unfold next
  split <;> omega

namespace Scheduled

variable {clock : Nat → Int} {period : Int} {s : State}

theorem init (monotone : Monotone clock) {hz : Nat} (on : hz ≠ 0) :
    Scheduled clock (1000000000 / hz) (.init clock hz) := by
  have later : clock 0 ≤ clock 1 := monotone (Nat.le_succ 0)
  rw [State.init, if_neg on]
  refine ⟨rfl, rfl, ?_, ⟨by simp [State.off], .nil⟩, by simp [State.off], rfl, rfl, .init, .init,
    rfl, rfl⟩
  simp only [State.now, State.off]
  omega

theorem read (scheduled : Scheduled clock period s) (monotone : Monotone clock) :
    Scheduled clock period s.read := by
  have later : s.now clock ≤ s.read.now clock := monotone (Nat.le_succ s.reads)
  exact { scheduled with near := by have := scheduled.near; simp only [State.read] at *; omega }

theorem timeout (scheduled : Scheduled clock period s) (monotone : Monotone clock) :
    Scheduled clock period s.timeout := by
  rw [State.timeout, if_pos scheduled.enabled]
  exact scheduled.read monotone

theorem drainBegin (scheduled : Scheduled clock period s) (monotone : Monotone clock) :
    Scheduled clock period (s.drainBegin clock) := by
  rw [State.drainBegin, if_pos scheduled.enabled]
  exact { scheduled.read monotone with }

theorem drainEnd (scheduled : Scheduled clock period s) (monotone : Monotone clock) :
    Scheduled clock period (s.drainEnd clock) := by
  rw [State.drainEnd, if_pos scheduled.enabled]
  exact { scheduled.read monotone with drained := scheduled.drained.measure _ }

theorem flushBegin (scheduled : Scheduled clock period s) (monotone : Monotone clock) :
    Scheduled clock period (s.flushBegin clock) := by
  rw [State.flushBegin, if_pos scheduled.enabled]
  exact { scheduled.read monotone with }

theorem flushEnd (scheduled : Scheduled clock period s) (monotone : Monotone clock) :
    Scheduled clock period (s.flushEnd clock) := by
  rw [State.flushEnd, if_pos scheduled.enabled]
  exact { scheduled.read monotone with flushed := scheduled.flushed.measure _ }

/-- The state after a tick that ended at the last reading. -/
theorem ticked (scheduled : Scheduled clock period s) {start stop : Int}
    (due : s.deadline ≤ start) (spent : start ≤ stop) (seen : stop ≤ s.now clock) :
    Scheduled clock period ((s.account start stop).advance stop) := by
  generalize made : (⟨s.deadline, start, stop, s.drainAcc, s.flushAcc⟩ : Entry) = tick
  have log : (s.account start stop).log = s.log ++ [tick] := by rw [State.account, made]
  have deadline : tick.deadline = s.deadline := made ▸ rfl
  have ended : tick.stop = stop := made ▸ rfl
  have ticking : Ticking period (s.log ++ [tick]) := by
    refine ⟨fun other member => ?_, ?_⟩
    · rcases List.mem_append.mp member with before | own
      · exact scheduled.ticking.started other before
      · rw [List.mem_singleton.mp own, ← made]
        exact ⟨due, spent⟩
    · refine List.isChain_append.mpr ⟨scheduled.ticking.chained, .singleton tick, ?_⟩
      intro last isLast first isFirst
      obtain rfl : tick = first := by simpa using isFirst
      rw [deadline]
      exact scheduled.last last isLast
  have accounted : Scheduled clock period { s.account start stop with
      overruns := (s.log ++ [tick]).countP (Entry.late period)
      deadline := tick.next period } := by
    refine ⟨scheduled.enabled, scheduled.paced, ?_, log ▸ ticking, ?_, ?_, ?_, ?_, ?_, ?_, ?_⟩
    · exact Entry.next_le (ended ▸ seen) (deadline ▸ (due.trans spent).trans seen)
    · intro last isLast
      rw [log, List.getLast?_concat, Option.mem_some_iff] at isLast
      rw [isLast]
    · rw [log, List.length_append]
      exact congrArg (· + 1) scheduled.ticks
    · rw [log]
    · rw [log, List.map_append, ← made]
      exact scheduled.drained.close
    · rw [log, List.map_append, ← made]
      exact scheduled.flushed.close
    · rw [log, List.map_append, List.map_singleton, Bench.Histogram.ofSamples_snoc, ← scheduled.hDrain, ← made]
      rfl
    · rw [log, List.map_append, List.map_singleton, Bench.Histogram.ofSamples_snoc, ← scheduled.hFlush, ← made]
      rfl
  have late : tick.late period = decide (s.deadline + s.period < stop) := by
    rw [Entry.late, deadline, ended, scheduled.paced]
  have next : tick.next period =
      if s.deadline + s.period < stop then stop + s.period else s.deadline + s.period := by
    rw [Entry.next, late, deadline, ended, scheduled.paced]
    simp only [decide_eq_true_eq]
  have overruns : (s.log ++ [tick]).countP (Entry.late period) =
      if s.deadline + s.period < stop then s.overruns + 1 else s.overruns := by
    rw [List.countP_append, List.countP_singleton, late, ← scheduled.overruns]
    split <;> simp_all
  rw [next, overruns] at accounted
  unfold State.advance
  have same : (s.account start stop).deadline = s.deadline ∧
      (s.account start stop).period = s.period := ⟨rfl, rfl⟩
  rw [same.1, same.2]
  split
  next late =>
    simp only [late, if_true] at accounted
    exact accounted
  next onTime =>
    simp only [onTime, if_false] at accounted
    exact accounted

theorem maybeTick (scheduled : Scheduled clock period s) (monotone : Monotone clock) :
    Scheduled clock period (s.maybeTick clock) := by
  have begun := scheduled.read monotone
  rw [State.maybeTick, if_neg (by simp [scheduled.enabled])]
  simp only
  split
  · exact begun
  next due =>
    exact (begun.read monotone).ticked (Int.not_lt.mp due) (monotone (Nat.le_succ s.reads))
      (monotone (Nat.le_succ s.read.reads))

theorem iterate (scheduled : Scheduled clock period s) (monotone : Monotone clock)
    (interrupted : Bool) : Scheduled clock period (s.iterate clock interrupted) := by
  have waited := scheduled.timeout monotone
  unfold State.iterate
  simp only
  split
  · exact waited
  · exact ((((waited.drainBegin monotone).drainEnd monotone).maybeTick monotone).flushBegin
      monotone).flushEnd monotone

theorem run (monotone : Monotone clock) {hz : Nat} (on : hz ≠ 0) (waits : List Bool) :
    Scheduled clock (1000000000 / hz) (.run clock hz waits) :=
  run_keeps (fun _ interrupted scheduled => scheduled.iterate monotone interrupted)
    (init monotone on) waits

end Scheduled

/-! ## The rate -/

namespace Ticking

variable {period : Int} {log before after : List Entry} {tick later : Entry}

theorem adjacent (ticking : Ticking period log) (split : log = before ++ tick :: later :: after) :
    later.deadline = tick.next period := by
  have chained := ticking.chained
  rw [split, List.isChain_append] at chained
  exact (List.isChain_cons_cons.mp chained.2.1).1

theorem spaced (ticking : Ticking period log) (positive : 0 ≤ period)
    (split : log = before ++ tick :: later :: after) : tick.deadline + period ≤ later.deadline := by
  rw [ticking.adjacent split, Entry.next]
  split
  next late =>
    have past : tick.deadline + period < tick.stop := by simpa [Entry.late] using late
    omega
  · exact Int.le_refl _

theorem rested (ticking : Ticking period log) (split : log = before ++ tick :: later :: after)
    (late : tick.late period) : tick.stop + period ≤ later.start := by
  have started := (ticking.started later (by simp [split])).1
  rwa [ticking.adjacent split, Entry.next, if_pos late] at started

/-- A tick is not over the deadline after it by the time it starts. -/
theorem start_le (ticking : Ticking period log) (positive : 0 ≤ period)
    (split : log = before ++ tick :: later :: after) : tick.start ≤ later.deadline := by
  have ended := (ticking.started tick (by simp [split])).2
  rw [ticking.adjacent split, Entry.next]
  split
  · omega
  next onTime =>
    have within : tick.stop ≤ tick.deadline + period := by simpa [Entry.late] using onTime
    omega

theorem paced {third : Entry} (ticking : Ticking period log) (positive : 0 ≤ period)
    (split : log = before ++ tick :: later :: third :: after) :
    tick.start + period ≤ third.start := by
  have first := ticking.start_le positive split
  have tail : log = (before ++ [tick]) ++ later :: third :: after := by rw [split]; simp
  have second := ticking.spaced positive tail
  have started := (ticking.started third (by simp [split])).1
  omega

end Ticking

/-- What the main loop can rely on whenever it is about to wait. -/
structure TickSchedule (clock : Nat → Int) (period : Int) (s : State) : Prop where
  timeout : 0 ≤ s.timeoutNs clock ∧ s.timeoutNs clock ≤ period
  started : ∀ tick ∈ s.log, tick.deadline ≤ tick.start
  spaced : ∀ before tick later after, s.log = before ++ tick :: later :: after →
    tick.deadline + period ≤ later.deadline
  paced : ∀ before first second third after, s.log = before ++ first :: second :: third :: after →
    first.start + period ≤ third.start
  rested : ∀ before tick later after, s.log = before ++ tick :: later :: after →
    tick.deadline + period < tick.stop → tick.stop + period ≤ later.start
  ticks : s.ticks = s.log.length
  overruns : s.overruns = s.log.countP fun tick => tick.deadline + period < tick.stop
  drained : Attributed s.drains (s.log.map Entry.drain) s.drainAcc
  flushed : Attributed s.flushes (s.log.map Entry.flush) s.flushAcc
  sums : (s.log.map Entry.drain).sum + s.drainAcc = s.drains.sum ∧
    (s.log.map Entry.flush).sum + s.flushAcc = s.flushes.sum
  histograms : s.hDrain = .ofSamples (s.log.map Entry.drain) ∧
    s.hFlush = .ofSamples (s.log.map Entry.flush)

/-- The tick keeps its rate and its accounts, whatever the clock and the waits do. -/
theorem tick_schedule {clock : Nat → Int} (monotone : Monotone clock) {hz : Nat} (on : 1 ≤ hz)
    (waits : List Bool) : TickSchedule clock (1000000000 / hz) (.run clock hz waits) := by
  have scheduled := Scheduled.run monotone (Nat.pos_iff_ne_zero.mp on) waits
  have positive : (0 : Int) ≤ 1000000000 / hz := Int.ediv_nonneg (by decide) (Int.natCast_nonneg hz)
  generalize State.run clock hz waits = s at scheduled ⊢
  generalize (1000000000 / hz : Int) = period at scheduled positive ⊢
  refine ⟨?_, fun tick member => (scheduled.ticking.started tick member).1,
    fun _ _ _ _ split => scheduled.ticking.spaced positive split,
    fun _ _ _ _ _ split => scheduled.ticking.paced positive split,
    fun _ _ _ _ split late => scheduled.ticking.rested split (decide_eq_true late),
    scheduled.ticks, scheduled.overruns, scheduled.drained, scheduled.flushed,
    ⟨scheduled.drained.sum_eq, scheduled.flushed.sum_eq⟩, scheduled.hDrain, scheduled.hFlush⟩
  have near := scheduled.near
  rw [State.timeoutNs, if_neg (by simp [scheduled.enabled])]
  simp only
  split <;> constructor <;> omega

/-- Ten milliseconds from each look at the clock to the next. -/
def busyClock (reads : Nat) : Int := 10000000 * reads

/-- Thirty ticks a second are too many for it: two of the first three end too late. -/
theorem tick_schedule_busy :
    TickSchedule busyClock (1000000000 / 30) (.run busyClock 30 [false, false, true, false]) ∧
      (State.run busyClock 30 [false, false, true, false]).ticks = 3 ∧
      (State.run busyClock 30 [false, false, true, false]).overruns = 2 := by
  have monotone : Monotone busyClock := fun first later le => by
    unfold busyClock
    omega
  exact ⟨tick_schedule monotone (by decide : 1 ≤ 30) [false, false, true, false], rfl, by decide⟩

end NetEngine.Tick
