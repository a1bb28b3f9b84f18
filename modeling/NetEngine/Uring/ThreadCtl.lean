import NetEngine.Library.Machine

/-! `thread_ctl`, with the trampolines of `worker_ctl` and of `acceptor_ctl`. One
step is one atomic load, compare-exchange or store, and what the caller computes
before its next one. -/

set_option autoImplicit false

namespace NetEngine.ThreadCtl

/-- `state`. -/
inductive LifeState where
  | starting
  | running
  | draining
  | stopped
  deriving DecidableEq

/-- `detail::thread_role`. -/
inductive ThreadRole where
  | none
  | worker
  | db
  | supervisor
  | acceptor
  deriving DecidableEq

inductive Writer where
  | thread
  | stopper
  deriving DecidableEq

/-- A change of `_state`: who made it, what it wrote, and over what. -/
structure Write where
  writer : Writer
  replaced : LifeState
  value : LifeState

/-- The atomics of `thread_ctl`. The program does not have `writes`. -/
structure Ctl where
  state : LifeState := .starting
  kernelTid : BitVec 32 := 0
  heartbeatSeq : BitVec 64 := 0
  writes : List Write := []

namespace Ctl

def store (ctl : Ctl) (writer : Writer) (value : LifeState) : Ctl :=
  { ctl with state := value, writes := ctl.writes ++ [⟨writer, ctl.state, value⟩] }

/-- `compare_exchange(desired, expected)`, which returns what it observed. -/
def compareExchange (ctl : Ctl) (writer : Writer) (desired expected : LifeState) :
    Ctl × LifeState :=
  if ctl.state = expected then (ctl.store writer desired, expected) else (ctl, ctl.state)

end Ctl

/-! ## The thread -/

/-- Where the trampoline stands, or the `run_loop` that it called. -/
inductive Thread where
  | idle
  | entered
  | published (tlsRole : ThreadRole)
  | attached
  | looping
  | beating
  | leaving
  | refused (observed : LifeState)
  | returned
  | trapped
  deriving DecidableEq

/-- `entry` and the `run_loop` of its engine: `installs` is the role token that
`entry` installs, `guard` the one that the `instance()` of its engine checks. -/
def trampoline (installs guard : ThreadRole) (tid : BitVec 32) (ctl : Ctl) : Thread → Ctl × Thread
  | .idle => (ctl, .idle)
  | .entered => ({ ctl with kernelTid := tid }, .published installs)
  | .published tlsRole => if tlsRole = guard then (ctl, .attached) else (ctl, .trapped)
  | .attached =>
      let (ctl, observed) := ctl.compareExchange .thread .running .starting
      (ctl, if observed = .starting then .looping else .refused observed)
  | .looping => (ctl, if ctl.state = .running then .beating else .leaving)
  | .beating => ({ ctl with heartbeatSeq := ctl.heartbeatSeq + 1 }, .looping)
  | .leaving => (ctl.store .thread .stopped, .returned)
  | .refused observed =>
      if observed = .draining then (ctl.store .thread .stopped, .returned) else (ctl, .trapped)
  | .returned => (ctl, .returned)
  | .trapped => (ctl, .trapped)

def workerEntry : BitVec 32 → Ctl → Thread → Ctl × Thread := trampoline .worker .worker

def acceptorEntry : BitVec 32 → Ctl → Thread → Ctl × Thread := trampoline .acceptor .acceptor

/-! ## The other threads -/

/-- One call of `request_stop`. -/
inductive Stopper where
  | called
  | observed (value : LifeState)
  | returned
  deriving DecidableEq

def requestStop (ctl : Ctl) : Stopper → Ctl × Stopper
  | .called => (ctl, .observed ctl.state)
  | .observed value =>
      if value = .starting ∨ value = .running then
        let (ctl, actual) := ctl.compareExchange .stopper .draining value
        (ctl, if actual = value then .returned else .observed actual)
      else (ctl, .returned)
  | .returned => (ctl, .returned)

/-- One call of `kernel_tid`. -/
inductive Reader where
  | called
  | sawRunning
  | returned (tid : BitVec 32)
  deriving DecidableEq

def kernelTid (ctl : Ctl) : Reader → Reader
  | .called => if ctl.state ≠ .running then .returned 0 else .sawRunning
  | .sawRunning => .returned ctl.kernelTid
  | .returned tid => .returned tid

/-- One call of `join`, once `pthread_join` is under way. -/
inductive Joiner where
  | waiting
  | passed
  | trapped
  deriving DecidableEq

/-- `pthread_join` returns when the thread has. -/
def join (ctl : Ctl) (thread : Thread) : Joiner → Joiner
  | .waiting =>
      if thread = .returned then if ctl.state = .stopped then .passed else .trapped else .waiting
  | .passed => .passed
  | .trapped => .trapped

/-! ## All of them -/

structure World where
  ctl : Ctl := {}
  thread : Thread := .idle
  stoppers : List Stopper := []
  readers : List Reader := []
  joiner : Joiner := .waiting

inductive Action where
  | start
  | thread
  | requestStop
  | stopper (call : Nat)
  | kernelTid
  | reader (call : Nat)
  | join

/-- Any call may begin at any time, and any that is under way may go on. -/
def step (entry : Ctl → Thread → Ctl × Thread) (w : World) : Action → World
  | .start => if w.thread = .idle then { w with thread := .entered } else w
  | .thread =>
      let (ctl, thread) := entry w.ctl w.thread
      { w with ctl, thread }
  | .requestStop => { w with stoppers := w.stoppers ++ [.called] }
  | .stopper call =>
      match w.stoppers[call]? with
      | none => w
      | some stopper =>
          let (ctl, stopper) := requestStop w.ctl stopper
          { w with ctl, stoppers := w.stoppers.set call stopper }
  | .kernelTid => { w with readers := w.readers ++ [.called] }
  | .reader call =>
      match w.readers[call]? with
      | none => w
      | some reader => { w with readers := w.readers.set call (kernelTid w.ctl reader) }
  | .join => { w with joiner := join w.ctl w.thread w.joiner }

inductive Role where
  | worker
  | acceptor

def Role.entry : Role → BitVec 32 → Ctl → Thread → Ctl × Thread
  | .worker => workerEntry
  | .acceptor => acceptorEntry

/-- A run of one control block whose thread has the kernel tid `tid`. -/
def run (role : Role) (tid : BitVec 32) (schedule : List Action) : World :=
  Machine.run (step (role.entry tid)) {} schedule

end NetEngine.ThreadCtl
