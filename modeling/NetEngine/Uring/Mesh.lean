import NetEngine.Engine.RingBufferSpsc
import NetEngine.Library.LittleEndian

/-! `mesh.h`: length-prefixed frames over a thread-mesh pipe. Both calls run on
the concurrent ring one shared access at a time; whatever a call computes
between two accesses belongs to the step that starts the next one. -/

set_option autoImplicit false

namespace NetEngine.Mesh

open RingBuffer

/-- `app_msg_header`. -/
structure Header where
  size : UInt16
  type : UInt16
  deriving DecidableEq

def headerSize : Nat := 4

def frameSize (bodyLen : Nat) : Nat := headerSize + bodyLen

def Header.encode (header : Header) : Bytes :=
  LittleEndian.encode header.size ++ LittleEndian.encode header.type

def Header.decode (bytes : Bytes) : Header :=
  ⟨LittleEndian.read bytes, LittleEndian.read (bytes.drop 2)⟩

/-- One `mesh_post` argument list; `body_len` is a `u16`. -/
structure Message where
  type : UInt16
  body : Bytes
  fits : body.length < 2 ^ 16

def Message.header (message : Message) : Header := ⟨UInt16.ofNat message.body.length, message.type⟩

def Message.frame (message : Message) : Bytes := message.header.encode ++ message.body

def bodyMax : Nat := 1024

/-- `mesh_post_msg`: a POD struct that passed its `static_assert`. -/
def postMsg (type : UInt16) (pod : Bytes) (small : pod.length ≤ bodyMax) : Message :=
  ⟨type, pod, Nat.lt_of_le_of_lt small (by decide)⟩

/-- What `mesh_try_recv` hands out. -/
structure Delivery where
  header : Header
  body : Bytes
  deriving DecidableEq

def Message.delivery (message : Message) : Delivery := ⟨message.header, message.body⟩

/-- Where `mesh_try_recv` stands: the ring call it made last, with the header
once it is known. -/
inductive Stage where
  | returned (value : Option Bool)
  | sizing
  | peeking
  | confirming (header : Header)
  | dropping (header : Header)
  | draining (header : Header)
  | trapped

/-- The argument of the running `mesh_try_recv`, and the state it started from. -/
structure Recv where
  bodyCap : Nat
  taken : Bytes
  published : Nat
  received : Nat

structure Edge where
  pipe : Spsc.Config
  posting : Option Message
  posted : Option Bool
  accepted : List Message
  stage : Stage
  recv : Recv
  received : List Delivery

def Edge.init : Edge := ⟨.init, none, none, [], .returned none, ⟨0, [], 0, 0⟩, []⟩

namespace Edge

def startPost (edge : Edge) (message : Message) : Edge :=
  match edge.posting with
  | none =>
      { edge with
        pipe := edge.pipe.startProducer (.enqueue2 message.header.encode message.body)
        posting := some message, posted := none }
  | some _ => edge

/-- The producer's next access; `mesh_post` returns with `enqueue2`. -/
def postStep (cap : Capacity) (edge : Edge) : Edge :=
  let pipe := edge.pipe.producerStep cap
  match edge.posting, pipe.producer with
  | some message, .idle (some stored) =>
      let done := stored == frameSize message.body.length
      { edge with
        pipe, posting := none, posted := some done
        accepted := if done then edge.accepted ++ [message] else edge.accepted }
  | _, _ => { edge with pipe }

def startRecv (edge : Edge) (bodyCap : Nat) : Edge :=
  match edge.stage with
  | .returned _ =>
      { edge with
        pipe := edge.pipe.startConsumer .usedSize
        stage := .sizing
        recv := ⟨bodyCap, edge.pipe.taken, edge.pipe.published.length, edge.received.length⟩ }
  | _ => edge

def ask (edge : Edge) (stage : Stage) (op : Spsc.ConsumerOp) : Edge :=
  { edge with pipe := edge.pipe.startConsumer op, stage }

/-- What `mesh_try_recv` does with the value of the ring call that returned. -/
def advance (edge : Edge) (result : Spsc.Result) : Edge :=
  match edge.stage, result with
  | .sizing, .size used =>
      if used < headerSize then { edge with stage := .returned (some false) }
      else edge.ask .peeking (.peek headerSize)
  | .peeking, .peeked data =>
      if data.length = headerSize then edge.ask (.confirming (Header.decode data)) .usedSize
      else { edge with stage := .trapped }
  | .confirming header, .size used =>
      if used < frameSize header.size.toNat then { edge with stage := .returned (some false) }
      else if header.size.toNat ≤ edge.recv.bodyCap then
        edge.ask (.dropping header) (.dequeue headerSize)
      else { edge with stage := .trapped }
  | .dropping header, .released _ =>
      if header.size.toNat = 0 then
        { edge with
          stage := .returned (some true)
          received := edge.received ++ [⟨header, []⟩] }
      else edge.ask (.draining header) (.dequeue header.size.toNat)
  | .draining header, .released body =>
      { edge with
        stage := .returned (some true)
        received := edge.received ++ [⟨header, body⟩] }
  | _, _ => edge

/-- The consumer's next access: inside the ring call, or the start of the next one. -/
def recvStep (cap : Capacity) (edge : Edge) : Edge :=
  match edge.stage, edge.pipe.consumer with
  | .returned _, _ => edge
  | _, .idle (some result) => edge.advance result
  | _, _ => { edge with pipe := edge.pipe.consumerStep cap }

end Edge

inductive Event where
  | post (message : Message)
  | produce
  | recv (bodyCap : Nat)
  | consume

def Edge.step (cap : Capacity) (edge : Edge) : Event → Edge
  | .post message => edge.startPost message
  | .produce => edge.postStep cap
  | .recv bodyCap => edge.startRecv bodyCap
  | .consume => edge.recvStep cap

def Edge.run (cap : Capacity) (edge : Edge) (schedule : List Event) : Edge :=
  schedule.foldl (Edge.step cap) edge

def Edge.returned (edge : Edge) (value : Bool) : Prop := edge.stage = .returned (some value)

/-! ## Frames as bytes -/

@[simp] theorem Header.encode_length (header : Header) : header.encode.length = headerSize := rfl

@[simp] theorem Header.decode_encode (header : Header) : Header.decode header.encode = header := by
  have low : LittleEndian.read header.encode = header.size := LittleEndian.read_encode _ _
  have high : LittleEndian.read (header.encode.drop 2) = header.type :=
    LittleEndian.read_encode header.type []
  rw [Header.decode, low, high]

@[simp] theorem Message.header_size (message : Message) :
    message.header.size.toNat = message.body.length := by
  rw [Message.header, UInt16.toNat_ofNat', Nat.mod_eq_of_lt message.fits]

theorem Message.frame_length (message : Message) :
    message.frame.length = frameSize message.body.length := by
  rw [Message.frame, List.length_append, Header.encode_length, frameSize]

theorem Message.frame_short (message : Message) : message.frame.length < 2 ^ 63 := by
  have short := message.fits
  rw [message.frame_length, frameSize, headerSize]
  omega

theorem Message.headerSize_le (message : Message) : headerSize ≤ message.frame.length := by
  rw [message.frame_length, frameSize]
  omega

def frames (messages : List Message) : Bytes := (messages.map Message.frame).flatten

@[simp] theorem frames_nil : frames [] = [] := rfl

@[simp] theorem frames_cons (message : Message) (messages : List Message) :
    frames (message :: messages) = message.frame ++ frames messages := by
  simp [frames]

@[simp] theorem frames_append (left right : List Message) :
    frames (left ++ right) = frames left ++ frames right := by
  simp [frames]

theorem frames_take_drop (messages : List Message) (n : Nat) :
    frames (messages.take n) ++ frames (messages.drop n) = frames messages := by
  rw [← frames_append, List.take_append_drop]

end NetEngine.Mesh
