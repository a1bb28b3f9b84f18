import Mathlib.Logic.Function.Basic
import NetEngine.Uring.ThreadCtl

/-! `main` of the io_uring server, the supervisor: it wires and starts the workers, waits for
them, starts the acceptor, waits for a signal and stops them all in reverse. One step is one
atomic operation of one thread, with what its thread computes before its next one. -/

set_option autoImplicit false

namespace NetEngine.Supervisor

open ThreadCtl

/-- A control block with its thread. `joinable` is that of `_thread`, `masked` says that the
thread was created with the termination signals blocked. -/
structure Control where
  ctl : Ctl := {}
  thread : Thread := .idle
  joinable : Bool := false
  masked : Bool := false

namespace Control

/-- `_thread = lnx::thread{entry, this}`: the new thread inherits the mask of its creator. -/
def start (c : Control) (masked : Bool) : Control :=
  { c with thread := .entered, joinable := true, masked }

/-- `join`, which waits for a thread that is joinable and then looks at `_state`. -/
def join (c : Control) : Joiner :=
  if c.joinable then ThreadCtl.join c.ctl c.thread .waiting
  else if c.ctl.state = .stopped then .passed
  else .trapped

/-- The thread is there, and a termination signal can be delivered to it. -/
def exposed (c : Control) : Bool :=
  c.thread ≠ .idle && c.thread ≠ .returned && !c.masked

end Control

/-- The pipes of `main` are named by their indices. -/
structure WorkerCtl extends Control where
  fromAcceptor : Option Nat := none
  toAcceptor : Option Nat := none

structure AcceptorCtl extends Control where
  toWorker : Nat → Option Nat := fun _ => none
  fromWorker : Nat → Option Nat := fun _ => none

/-- Where `main` stands. -/
inductive Main where
  | token
  | mask
  | emplace (i : Nat)
  | install (i : Nat)
  | start (i : Nat)
  | barrier (i : Nat)
  | wire
  | startAcceptor
  | awaitAcceptor
  | sigwait
  | stopAcceptor (call : Stopper)
  | joinAcceptor
  | stop (i : Nat) (call : Stopper)
  | join (i : Nat)
  | destroy
  | returned
  | trapped
  deriving DecidableEq

/-- `workers` up to `size` is the `static_vector`. -/
structure World where
  main : Main := .token
  tlsRole : ThreadRole := .none
  masked : Bool := false
  pending : Bool := false
  killed : Bool := false
  size : Nat := 0
  workers : Nat → WorkerCtl := fun _ => {}
  acceptor : AcceptorCtl := {}

namespace World

def setWorker (w : World) (i : Nat) (c : WorkerCtl) : World :=
  { w with workers := Function.update w.workers i c }

/-- The process is gone. -/
def gone (w : World) : Bool := w.killed || w.main = .returned || w.main = .trapped

/-- Some thread does not block the termination signals. -/
def exposed (w : World) : Bool :=
  !w.masked || w.acceptor.exposed || (List.range w.size).any fun i => (w.workers i).exposed

/-- The next step of `main`, with `k` for `k_worker_count`. -/
def supervise (k : Nat) (w : World) : World :=
  match w.main with
  | .token => { w with tlsRole := .supervisor, main := .mask }
  | .mask => { w with masked := true, main := .emplace 0 }
  | .emplace i =>
      if i < k then
        if w.size < k then { w.setWorker w.size {} with size := w.size + 1, main := .install i }
        else { w with main := .trapped }
      else { w with main := .start 0 }
  | .install i =>
      if i < w.size then
        { w.setWorker i { w.workers i with fromAcceptor := some i, toAcceptor := some i } with
          main := .emplace (i + 1) }
      else { w with main := .trapped }
  | .start i =>
      if i < w.size then
        let c := w.workers i
        if c.fromAcceptor = none ∨ c.toAcceptor = none ∨ c.joinable then { w with main := .trapped }
        else
          { w.setWorker i { c with toControl := c.start w.masked } with main := .start (i + 1) }
      else { w with main := .barrier 0 }
  | .barrier i =>
      if i < w.size then
        if (w.workers i).ctl.state = .running then { w with main := .barrier (i + 1) } else w
      else { w with main := .wire }
  | .wire =>
      { w with
        acceptor :=
          { w.acceptor with
            toWorker := fun i => if i < k then some i else none
            fromWorker := fun i => if i < k then some i else none }
        main := .startAcceptor }
  | .startAcceptor =>
      let c := w.acceptor
      if ((List.range k).any fun i => c.toWorker i = none || c.fromWorker i = none) ∨ c.joinable then
        { w with main := .trapped }
      else { w with acceptor := { c with toControl := c.start w.masked }, main := .awaitAcceptor }
  | .awaitAcceptor => if w.acceptor.ctl.state = .running then { w with main := .sigwait } else w
  | .sigwait => if w.pending then { w with pending := false, main := .stopAcceptor .called } else w
  | .stopAcceptor call =>
      if call = .returned then { w with main := .joinAcceptor }
      else
        let (ctl, call) := requestStop w.acceptor.ctl call
        { w with acceptor := { w.acceptor with ctl }, main := .stopAcceptor call }
  | .joinAcceptor =>
      match w.acceptor.join with
      | .waiting => w
      | .passed => { w with acceptor := { w.acceptor with joinable := false }, main := .stop 0 .called }
      | .trapped => { w with main := .trapped }
  | .stop i call =>
      if i < w.size then
        if call = .returned then { w with main := .stop (i + 1) .called }
        else
          let (ctl, call) := requestStop (w.workers i).ctl call
          { w.setWorker i { w.workers i with ctl } with main := .stop i call }
      else { w with main := .join 0 }
  | .join i =>
      if i < w.size then
        match (w.workers i).join with
        | .waiting => w
        | .passed =>
            { w.setWorker i { w.workers i with joinable := false } with main := .join (i + 1) }
        | .trapped => { w with main := .trapped }
      else { w with main := .destroy }
  | .destroy =>
      if w.acceptor.joinable ∨ ((List.range w.size).any fun i => (w.workers i).joinable) then
        { w with main := .trapped }
      else { w with main := .returned }
  | .returned => w
  | .trapped => w

inductive Action where
  | main
  | worker (i : Nat)
  | acceptor
  | signal
  deriving DecidableEq

/-- A termination signal ends the process if any thread lets it in; otherwise it stays pending. -/
def signal (w : World) : World :=
  if w.exposed then { w with killed := true } else { w with pending := true }

/-- The kernel tids are given. -/
def step (k : Nat) (tids : Nat → BitVec 32) (tid : BitVec 32) (w : World) (action : Action) : World :=
  if w.gone then w
  else
    match action with
    | .main => w.supervise k
    | .worker i =>
        let (ctl, thread) := workerEntry (tids i) (w.workers i).ctl (w.workers i).thread
        w.setWorker i { w.workers i with ctl, thread }
    | .acceptor =>
        let (ctl, thread) := acceptorEntry tid w.acceptor.ctl w.acceptor.thread
        { w with acceptor := { w.acceptor with ctl, thread } }
    | .signal => w.signal

def run (k : Nat) (tids : Nat → BitVec 32) (tid : BitVec 32) (schedule : List Action) : World :=
  Machine.run (step k tids tid) {} schedule

end World

end NetEngine.Supervisor
