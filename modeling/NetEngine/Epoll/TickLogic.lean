import NetEngine.Bench.Histogram

/-! `tick_logic.h`: the schedule of the tick and the accounts of its periods. The
clock is a sequence of readings, taken in the order of the calls; the walk over the
session blocks spends time and touches nothing here. -/

set_option autoImplicit false

namespace NetEngine.Tick

/-- `tick::hist`, which repeats the code of `histogram`. -/
abbrev Hist := Bench.Histogram

namespace Hist

def init : Hist := Bench.Histogram.empty

def add (h : Hist) (ns : Int) : Hist := Bench.Histogram.add h ns

def pct (h : Hist) (p : Rat) : Nat × Bool := Bench.Histogram.pct h p

end Hist

/-- One tick, as it ran and with what it put into the histograms. -/
structure Entry where
  deadline : Int
  start : Int
  stop : Int
  drain : Int
  flush : Int

/-- What the hooks read and write. The program does not have the last four fields:
the count of clock readings, the ticks, and the intervals that were measured. -/
structure State where
  enabled : Bool
  period : Int
  deadline : Int
  drainAcc : Int
  flushAcc : Int
  wakes : Nat
  ticks : Nat
  overruns : Nat
  hDrain : Hist
  hTick : Hist
  hFlush : Hist
  hWakes : Hist
  tMark : Int
  reads : Nat
  log : List Entry
  drains : List Int
  flushes : List Int

namespace State

variable (clock : Nat → Int)

def off : State :=
  ⟨false, 0, 0, 0, 0, 0, 0, 0, .init, .init, .init, .init, 0, 0, [], [], []⟩

/-- `now_ns()`, and that it was called. -/
def now (s : State) : Int := clock s.reads

def read (s : State) : State := { s with reads := s.reads + 1 }

/-- `init`, with the frequency that `CHAT_TICK_HZ` gives. -/
def init (hz : Nat) : State :=
  if hz = 0 then off
  else
    let period : Int := 1000000000 / hz
    { off with enabled := true, period, deadline := off.now clock + period, reads := 1 }

/-- The answer of `timeout_ns`; a negative one blocks. -/
def timeoutNs (s : State) : Int :=
  if ¬ s.enabled then -1
  else
    let left := s.deadline - s.now clock
    if 0 < left then left else 0

def timeout (s : State) : State := if s.enabled then s.read else s

def drainBegin (s : State) : State :=
  if s.enabled then { s.read with tMark := s.now clock, wakes := s.wakes + 1 } else s

def drainEnd (s : State) : State :=
  if s.enabled then
    { s.read with
      drainAcc := s.drainAcc + (s.now clock - s.tMark)
      drains := s.drains ++ [s.now clock - s.tMark] }
  else s

def flushBegin (s : State) : State :=
  if s.enabled then { s.read with tMark := s.now clock } else s

def flushEnd (s : State) : State :=
  if s.enabled then
    { s.read with
      flushAcc := s.flushAcc + (s.now clock - s.tMark)
      flushes := s.flushes ++ [s.now clock - s.tMark] }
  else s

/-- The accounts of a tick that ran from `start` to `stop`. -/
def account (s : State) (start stop : Int) : State :=
  { s with
    ticks := s.ticks + 1
    hDrain := s.hDrain.add s.drainAcc
    hFlush := s.hFlush.add s.flushAcc
    hTick := s.hTick.add (stop - start)
    hWakes := s.hWakes.add (s.wakes * Bench.Histogram.bucketNs)
    drainAcc := 0
    flushAcc := 0
    wakes := 0
    log := s.log ++ [⟨s.deadline, start, stop, s.drainAcc, s.flushAcc⟩] }

/-- The next deadline: reset from now after an overrun, not caught up. -/
def advance (s : State) (stop : Int) : State :=
  if s.deadline + s.period < stop then
    { s with overruns := s.overruns + 1, deadline := stop + s.period }
  else { s with deadline := s.deadline + s.period }

def maybeTick (s : State) : State :=
  if ¬ s.enabled then s
  else
    let start := s.now clock
    let s := s.read
    if start < s.deadline then s
    else
      let stop := s.now clock
      (s.read.account start stop).advance stop

/-- One iteration of the main loop; a wait that a signal interrupts starts the next. -/
def iterate (s : State) (interrupted : Bool) : State :=
  let s := s.timeout
  if interrupted then s
  else
    (((((s.drainBegin clock).drainEnd clock).maybeTick clock).flushBegin clock).flushEnd clock)

def run (hz : Nat) (waits : List Bool) : State := waits.foldl (iterate clock) (init clock hz)

end State

end NetEngine.Tick
