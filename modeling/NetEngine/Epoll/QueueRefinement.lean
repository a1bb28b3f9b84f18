import NetEngine.Epoll.ServerRuns
import NetEngine.Epoll.ServerSdsRuns

/-! The linear send queue of `server_sds.cpp` against the string of `server.cpp`, for
one connection and any calls of `queue_send` and `flush_send`. -/

set_option autoImplicit false

namespace NetEngine.Epoll

open Socket

/-- A call, with the kernel's answers to the system calls that it leads to. -/
inductive QueueCall where
  | queueSend (type : UInt16) (payload : Bytes)
  | flushSend (answers : List SendAnswer) (modified : Bool)

def answering (answers : List SendAnswer) (modified : Bool) : Kernel where
  send _ := answers
  modify _ := modified
  walk _ items := items
  walk_perm _ _ := .refl _

def Server.World.serve (fd : Fd) (w : Server.World) : QueueCall → Server.World
  | .queueSend type payload => w.queueSend type payload fd
  | .flushSend answers modified => w.flushSend (answering answers modified) fd

def ServerSds.World.serve (fd : Fd) (w : ServerSds.World) : QueueCall → ServerSds.World
  | .queueSend type payload => w.queueSend type payload fd
  | .flushSend answers modified => w.flushSend (answering answers modified) fd

/-- The same on the event loop's connections. -/
def State.serve (fd : Fd) (state : State Bytes) : QueueCall → State Bytes
  | .queueSend type payload => state.queueSend type payload fd
  | .flushSend answers modified => state.flushSend answers modified fd

theorem Server.World.state_serve (fd : Fd) (w : Server.World) (call : QueueCall) :
    (w.serve fd call).state = w.state.serve fd call := by
  cases call with
  | queueSend type payload => exact state_queueSend
  | flushSend answers modified =>
      obtain ⟨done, ⟨_, rfl⟩, same⟩ :=
        @state_flushSend (answering answers modified) w fd ⟨false, false, 0⟩
      exact same

theorem ServerSds.World.state_serve (fd : Fd) {w : ServerSds.World} (queues : Queues w)
    (call : QueueCall) : (w.serve fd call).state = w.state.serve fd call := by
  cases call with
  | queueSend type payload => exact state_queueSend queues
  | flushSend answers modified =>
      obtain ⟨done, ⟨_, rfl⟩, same⟩ :=
        @state_flushSend (answering answers modified) w fd ⟨false, false, 0, by decide⟩ queues
      exact same

theorem ServerSds.World.serve_queues (fd : Fd) {w : ServerSds.World} (queues : Queues w)
    (call : QueueCall) : Queues (w.serve fd call) := by
  cases call with
  | queueSend type payload =>
      have sends : Sends w (w.queueSend type payload fd) := queueSend_sends
      exact sends.queues queues
  | flushSend answers modified =>
      have sends : Sends w (w.flushSend (answering answers modified) fd) := flushSend_sends
      exact sends.queues queues

theorem State.serve_live {fd : Fd} {state : State Bytes} (live : state.Live fd) (call : QueueCall) :
    (state.serve fd call).Live fd := by
  have sends : Sends True (fun _ => True) state (state.serve fd call) := by
    cases call with
    | queueSend type payload => exact State.queueSend_sends trivial
    | flushSend answers modified => exact State.flushSend_sends
  exact (sends.live_iff fd).mpr live

/-- The two queues of one connection: they have handed over, refused and kept the same
bytes, and the linear one lies inside its region. -/
structure QueuesAgree (fd : Fd) (stl : Server.World) (sds : ServerSds.World) : Prop where
  trace : sds.trace = stl.trace
  doomed : sds.doomed = stl.doomed
  queue : ∃ c d, stl.conns fd = some c ∧ sds.conns fd = some d ∧ d.closing = c.closing ∧
    d.txHead ≤ d.txTail ∧ d.txTail ≤ ServerSds.txRegion ∧
    Region.read d.tx d.txHead (d.txTail - d.txHead) = c.out

/-- After any calls, from the empty queue of a fresh connection on. -/
theorem linear_queue_refines (cfg : ServerSds.Config) (fd : Fd) (calls : List QueueCall) :
    QueuesAgree fd (calls.foldl (Server.World.serve fd) (Server.World.init.emplace fd))
      (calls.foldl (ServerSds.World.serve fd) ((ServerSds.World.init cfg).construct fd)) := by
  have walk : ∀ (calls : List QueueCall) (stl : Server.World) (sds : ServerSds.World),
      sds.state = stl.state → ServerSds.World.Queues sds → stl.state.Live fd →
      QueuesAgree fd (calls.foldl (Server.World.serve fd) stl)
        (calls.foldl (ServerSds.World.serve fd) sds) := by
    intro calls
    induction calls with
    | nil =>
        intro stl sds same queues live
        obtain ⟨client, found⟩ := live
        obtain ⟨c, connFound, rfl⟩ : ∃ c, stl.conns fd = some c ∧ c.client = client := by
          simpa using found
        rw [← same] at found
        obtain ⟨d, slotFound, view⟩ : ∃ d, sds.conns fd = some d ∧ d.client sds.rooms = c.client := by
          simpa using found
        have queue := queues fd d slotFound
        exact ⟨congrArg State.trace same, congrArg State.doomed same, c, d, connFound, slotFound,
          congrArg Client.closing view, queue.ordered, queue.inside, congrArg Client.pending view⟩
    | cons call calls ih =>
        intro stl sds same queues live
        refine ih _ _ ?_ (ServerSds.World.serve_queues fd queues call) ?_
        · rw [ServerSds.World.state_serve fd queues, Server.World.state_serve, same]
        · rw [Server.World.state_serve]
          exact State.serve_live live call
  refine walk calls _ _ ?_ ?_ ?_
  · rw [ServerSds.World.construct_state, Server.World.emplace_state]
    rfl
  · intro other c found
    by_cases own : other = fd
    · subst own
      obtain rfl : {} = c := by simpa [ServerSds.World.construct] using found
      exact ⟨Nat.le_refl 0, Nat.zero_le _⟩
    · simp [ServerSds.World.construct, ServerSds.World.init, own] at found
  · rw [Server.World.emplace_state]
    exact ⟨{}, by simp [State.insert]⟩

end NetEngine.Epoll
