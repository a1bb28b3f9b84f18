import NetEngine.Uring.Mesh
import NetEngine.Uring.SessionTable

/-! Close-notify: the acceptor's table and one `worker_to_acceptor_pipe` for
every worker, under the rule of `mesh.h` for its callers. A pipe moves by one
shared access at a time, the acceptor's own work between two of them is one
step. `phase` is what the callers know of each session; the program has it
spread over the acceptor, the admission edges and the workers. -/

set_option autoImplicit false

namespace NetEngine.CloseNotify

open SessionTable (SessionId AccountId Slot Table)

abbrev WorkerId := UInt32

/-- What `allocate` hands out and a close names. -/
structure Session where
  id : SessionId
  generation : UInt32
  deriving DecidableEq

/-! ## message.h -/

/-- `app_msg_type::session_closed`. -/
def sessionClosed : UInt16 := 2

/-- `session_closed_msg`; `padding` is what its last four bytes happen to hold. -/
structure SessionClosedMsg where
  id : SessionId
  generation : UInt32
  worker : WorkerId
  reason : UInt32
  padding : UInt32

namespace SessionClosedMsg

def encode (msg : SessionClosedMsg) : List UInt8 :=
  LittleEndian.bytes 8 msg.id.toNat ++ LittleEndian.bytes 4 msg.generation.toNat ++
    LittleEndian.bytes 4 msg.worker.toNat ++ LittleEndian.bytes 4 msg.reason.toNat ++
    LittleEndian.bytes 4 msg.padding.toNat

/-- `sizeof(session_closed_msg)`. -/
def size : Nat := 24

@[simp] theorem encode_length (msg : SessionClosedMsg) : msg.encode.length = size := by
  simp [encode, size]

/-- The id and the generation in a received body. -/
def session (body : List UInt8) : Session :=
  ⟨UInt64.ofNat (LittleEndian.value (body.take 8)),
    UInt32.ofNat (LittleEndian.value ((body.drop 8).take 4))⟩

def message (msg : SessionClosedMsg) : Mesh.Message :=
  Mesh.postMsg sessionClosed msg.encode (by rw [encode_length]; decide)

end SessionClosedMsg

/-- `worker_to_acceptor_pipe` is `sds::pipe<16 * 1024>`. -/
def workerToAcceptorPipe : RingBuffer.Capacity := ⟨14, by decide, by decide⟩

/-! ## The callers -/

inductive Phase where
  | unborn
  /-- In the table, and not given to a worker yet. -/
  | minted
  /-- The `adopt_session` frame is on its way. -/
  | assigned (worker : WorkerId)
  | owned (worker : WorkerId)
  /-- `mesh_post` of its close runs. -/
  | closing (worker : WorkerId)
  /-- Its close waits in the pipe. -/
  | posted (worker : WorkerId)
  /-- Its close was refused. -/
  | dropped
  | removed
  deriving DecidableEq

/-- Minted, and its close not received yet. -/
def Phase.Standing (phase : Phase) : Prop := phase ≠ .unborn ∧ phase ≠ .removed

/-- Its close is not posted yet. -/
def Phase.Open : Phase → Prop
  | .minted | .assigned _ | .owned _ | .closing _ => True
  | _ => False

/-- A close that the acceptor handled, with the table around it. -/
structure Receipt where
  session : Session
  replayed : Bool
  before : Table
  after : Table

structure World where
  acceptor : SessionTable.World
  phase : Session → Phase
  edges : WorkerId → Mesh.Edge
  receipts : List Receipt

namespace World

def init : World := ⟨⟨.init, []⟩, fun _ => .unborn, fun _ => .init, []⟩

def table (w : World) : Table := w.acceptor.table

def setPhase (w : World) (session : Session) (phase : Phase) : World :=
  { w with phase := Function.update w.phase session phase }

def setEdge (w : World) (worker : WorkerId) (edge : Mesh.Edge) : World :=
  { w with edges := Function.update w.edges worker edge }

def accept (w : World) (account : AccountId) : World :=
  let acceptor := w.acceptor.step (.allocate account)
  match (w.table.allocate account).2 with
  | none => { w with acceptor }
  | some slot =>
      let record := acceptor.table.slots slot
      { w with acceptor }.setPhase ⟨record.id, record.generation⟩ .minted

def assign (w : World) (session : Session) (worker : WorkerId) : World :=
  if w.phase session = .minted then
    { w with acceptor := w.acceptor.step (.markAssigning session.id worker.toInt32) }.setPhase
      session (.assigned worker)
  else w

def adopt (w : World) (session : Session) : World :=
  match w.phase session with
  | .assigned worker => w.setPhase session (.owned worker)
  | _ => w

/-- The owner releases the session and calls `mesh_post_msg`. -/
def close (w : World) (session : Session) (reason padding : UInt32) : World :=
  match w.phase session with
  | .owned worker =>
      if (w.edges worker).posting.isNone then
        let msg : SessionClosedMsg := ⟨session.id, session.generation, worker, reason, padding⟩
        (w.setEdge worker ((w.edges worker).startPost msg.message)).setPhase session
          (.closing worker)
      else w
  | _ => w

/-- The next access of the `mesh_post` that runs on this edge; at its return the
close is in the pipe or lost. -/
def produce (w : World) (worker : WorkerId) : World :=
  let edge := (w.edges worker).postStep workerToAcceptorPipe
  match (w.edges worker).posting, edge.posting with
  | some message, none =>
      (w.setEdge worker edge).setPhase (SessionClosedMsg.session message.body)
        (if edge.posted = some true then .posted worker else .dropped)
  | _, _ => w.setEdge worker edge

/-- The acceptor's side of a close: `remove`, if the pair validates. -/
def closed (w : World) (session : Session) (replayed : Bool) : World :=
  let checked := w.acceptor.step (.validate session.id session.generation)
  let acceptor :=
    if w.table.validate session.id session.generation then checked.step (.remove session.id)
    else checked
  { w with
    acceptor
    receipts := w.receipts ++ [⟨session, replayed, w.table, acceptor.table⟩] }

def receive (w : World) (delivery : Mesh.Delivery) : World :=
  if delivery.header.type = sessionClosed then
    let session := SessionClosedMsg.session delivery.body
    (w.closed session false).setPhase session
      (if w.table.validate session.id session.generation then .removed else w.phase session)
  else w

/-- The next access of the `mesh_try_recv` that runs on this edge. -/
def consume (w : World) (worker : WorkerId) : World :=
  let edge := (w.edges worker).recvStep workerToAcceptorPipe
  match edge.received.drop (w.edges worker).received.length with
  | delivery :: _ => (w.setEdge worker edge).receive delivery
  | [] => w.setEdge worker edge

/-- A close that was handled before comes once more. -/
def replay (w : World) (session : Session) : World :=
  if w.phase session = .removed then w.closed session true else w

end World

inductive Event where
  | accept (account : AccountId)
  | assign (session : Session) (worker : WorkerId)
  | adopt (session : Session)
  | close (session : Session) (reason padding : UInt32)
  | produce (worker : WorkerId)
  | recv (worker : WorkerId)
  | consume (worker : WorkerId)
  | replay (session : Session)

/-- An event whose condition does not hold does nothing. -/
def World.step (w : World) : Event → World
  | .accept account => w.accept account
  | .assign session worker => w.assign session worker
  | .adopt session => w.adopt session
  | .close session reason padding => w.close session reason padding
  | .produce worker => w.produce worker
  | .recv worker => w.setEdge worker ((w.edges worker).startRecv Mesh.bodyMax)
  | .consume worker => w.consume worker
  | .replay session => w.replay session

def run (events : List Event) : World := Machine.run World.step .init events

end NetEngine.CloseNotify
