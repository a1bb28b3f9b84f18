import Mathlib.Data.List.TakeWhile
import NetEngine.Engine.CstrHashMap
import NetEngine.Engine.RingBuffer
import NetEngine.Epoll.Chat

/-! `server_sds.cpp`: the chat server on the engine's primitives. A slot of the
slab is there while its connection lives. A failed `LNX_CHECK` or allocation and
a touch of a dead slot, which would end the program, set `faulted` instead. -/

set_option autoImplicit false

namespace NetEngine.Epoll.ServerSds

open Socket RingBuffer

/-- `k_rx_ring`. -/
def rxRing : Capacity := ⟨15, by decide, by decide⟩

/-- `k_tx_region`: the cap and one frame. -/
def txRegion : Nat := sendCap + maxFrame

/-- `in` is `input`; a null room or link is none. `tx` holds the queue from
`txHead` to `txTail`. -/
structure Conn where
  armedWrite : Bool := false
  closing : Bool := false
  dirty : Bool := false
  nick : Bytes := []
  room : Option Nat := none
  roomPrev : Option Fd := none
  roomNext : Option Fd := none
  input : Ring := .empty
  txHead : Nat := 0
  txTail : Nat := 0
  tx : Nat → UInt8 := fun _ => 0

structure Room where
  name : Bytes
  head : Option Fd
  count : Nat
  nextFree : Option Nat
  live : Bool

/-- `CHAT_FLUSH=batch`, `CHAT_SHORT_READ=1` and `CHAT_MAX_CONNS`; `make_slab` fails
long before the slots outgrow a room index. -/
structure Config where
  batchFlush : Bool
  shortRead : Bool
  maxConns : Nat
  indexable : maxConns + 64 < 2 ^ 32

/-- `g_slots`. -/
def Config.slots (cfg : Config) : Nat := cfg.maxConns + 64

structure World where
  conns : Fd → Option Conn
  totalLive : Nat
  rooms : Nat → Room
  roomFree : Option Nat
  roomIndex : CstrHashMap.Map Nat
  doomed : List Fd
  dirty : List Fd
  faulted : Bool
  running : Bool
  clock : Nat
  trace : List (Obs Bytes)

/-- The C string in a buffer. -/
def text (buffer : Bytes) : CstrHashMap.Text :=
  ⟨buffer.takeWhile (· ≠ 0), fun member => by simpa using List.mem_takeWhile_imp member⟩

theorem heap_addressable {count : Nat} (granted : decide (8 * count < 2 ^ 64) = true) :
    8 * count < 2 ^ 64 :=
  of_decide_eq_true granted

/-- Memory is there for every array of pointers that can be addressed. -/
def heap : CstrHashMap.Heap where
  array count := decide (8 * count < 2 ^ 64)
  node := true
  addressable _ := heap_addressable

namespace Conn

def used (c : Conn) : Nat := c.txTail - c.txHead

def out (c : Conn) : Bytes := Region.read c.tx c.txHead c.used

/-- The move to the start of the region, when a frame does not fit behind the tail. -/
def compact (c : Conn) (frame : Nat) : Conn :=
  if txRegion < c.txTail + frame then
    { c with tx := Region.write c.tx 0 c.out, txHead := 0, txTail := c.used }
  else c

def put (c : Conn) (bytes : Bytes) : Conn :=
  { c with tx := Region.write c.tx c.txTail bytes, txTail := c.txTail + bytes.length }

/-- The queue after the kernel has taken some of it; a drained one starts over. -/
def sent (c : Conn) (count : Nat) : Conn :=
  if c.txHead + count = c.txTail then { c with txHead := 0, txTail := 0 }
  else { c with txHead := c.txHead + count }

def client (rooms : Nat → Room) (c : Conn) : Client Bytes where
  nick := c.nick
  room := c.room.map fun idx => (rooms idx).name
  input := c.input.peek rxRing c.input.usedSize
  pending := c.out
  armed := c.armedWrite
  closing := c.closing
  dirty := c.dirty

end Conn

namespace World

/-- The rooms are threaded onto the free list. -/
def init (cfg : Config) : World where
  conns _ := none
  totalLive := 0
  rooms idx := ⟨List.replicate (roomMax + 1) 0, none, 0,
    if idx + 1 < cfg.slots then some (idx + 1) else none, false⟩
  roomFree := some 0
  roomIndex := (CstrHashMap.Map.construct heap 1024).getD .vacant
  doomed := []
  dirty := []
  faulted := false
  running := true
  clock := 0
  trace := []

def clients (w : World) (fd : Fd) : Option (Client Bytes) :=
  (w.conns fd).map (Conn.client w.rooms)

def emit (w : World) (obs : Obs Bytes) : World := { w with trace := w.trace ++ [obs] }

def asked (w : World) : World := { w with clock := w.clock + 1 }

def fault (w : World) : World := { w with faulted := true }

def update (w : World) (fd : Fd) (change : Conn → Conn) : World :=
  { w with conns := Function.update w.conns fd ((w.conns fd).map change) }

/-- A write to a slot through a link. -/
def touch (w : World) (link : Option Fd) (change : Conn → Conn) : World :=
  match link with
  | none => w
  | some fd => if (w.conns fd).isSome then w.update fd change else w.fault

def updateRoom (w : World) (idx : Nat) (change : Room → Room) : World :=
  { w with rooms := Function.update w.rooms idx (change (w.rooms idx)) }

/-! ## Sending -/

def updateEpollMask (k : Kernel) (w : World) (fd : Fd) : World :=
  match w.conns fd with
  | none => w
  | some c =>
      let wantWrite := decide (c.txHead < c.txTail)
      if wantWrite = c.armedWrite then w
      else
        let done := k.modify w.clock
        (if done then w.asked.update fd fun c => { c with armedWrite := wantWrite }
          else w.asked).emit (.mask fd wantWrite done)

def doom (w : World) (fd : Fd) : World :=
  match w.conns fd with
  | none => w
  | some c =>
      if c.closing then w
      else
        { (w.update fd fun c => { c with closing := true }).emit (.doomed fd) with
          doomed := w.doomed ++ [fd] }

def queueSend (type : UInt16) (payload : Bytes) (w : World) (fd : Fd) : World :=
  match w.conns fd with
  | none => w
  | some c =>
      if c.closing then w
      else if maxPayload < payload.length then w
      else
        let frame := headerSize + payload.length
        if sendCap < c.used + frame then (w.emit (.overCap fd frame)).doom fd
        else
          (w.update fd fun c => (c.compact frame).put (Framing.encode type payload)).emit
            (.append fd type payload)

def flushSend (k : Kernel) (w : World) (fd : Fd) : World :=
  match w.conns fd with
  | none => w
  | some c =>
      if c.txHead < c.txTail then
        let loop := sendLoop c.out (k.send w.clock)
        let after := (w.asked.update fd fun c => c.sent loop.sent.length).emit
          (.send fd loop.sent loop.how)
        if loop.how = .broken then after.doom fd else after.updateEpollMask k fd
      else w.updateEpollMask k fd

def markDirty (w : World) (fd : Fd) : World :=
  match w.conns fd with
  | none => w
  | some c =>
      if c.dirty = false ∧ c.txHead < c.txTail then
        { w.update fd fun c => { c with dirty := true } with dirty := w.dirty ++ [fd] }
      else w

/-- The choice of LESSON 8, at its two places. -/
def afterQueue (k : Kernel) (cfg : Config) (w : World) (fd : Fd) : World :=
  if cfg.batchFlush then w.markDirty fd else w.flushSend k fd

/-- The walk of `broadcast`, from one member on; the first argument bounds it. -/
def walkRoom (k : Kernel) (cfg : Config) (type : UInt16) (payload : Bytes) (exceptFd : Option Fd) :
    Nat → Option Fd → World → World
  | _, none, w => w
  | 0, some _, w => w.fault
  | fuel + 1, some fd, w =>
      match w.conns fd with
      | none => w.fault
      | some r =>
          let told :=
            if some fd = exceptFd ∨ r.closing then w
            else (w.queueSend type payload fd).afterQueue k cfg fd
          walkRoom k cfg type payload exceptFd fuel ((told.conns fd).bind (·.roomNext)) told

def broadcast (k : Kernel) (cfg : Config) (room : Option Nat) (type : UInt16) (payload : Bytes)
    (exceptFd : Option Fd) (w : World) : World :=
  match room with
  | none => w
  | some idx =>
      if (w.rooms idx).live then
        walkRoom k cfg type payload exceptFd cfg.slots (w.rooms idx).head w
      else w

/-! ## Rooms -/

/-- What the borrowed keys stand for: a room's address is its index, and the name
scratch lies behind the rooms. -/
def memory (cfg : Config) (w : World) (scratch : Bytes) : CstrHashMap.Memory := fun address =>
  text (if address = cfg.slots then scratch else (w.rooms address).name)

/-- `memcpy` of a name into its room, and the terminator. -/
def writeName (buffer name : Bytes) : Bytes := name ++ 0 :: buffer.drop (name.length + 1)

/-- The part of `room_acquire` behind its check. -/
def roomCreate (cfg : Config) (w : World) (name : Bytes) (idx : Nat) : World :=
  let named := { w.updateRoom idx fun r =>
      { r with name := writeName r.name name, head := none, count := 0, live := true } with
    roomFree := (w.rooms idx).nextFree }
  match named.roomIndex.insert (named.memory cfg name) heap idx idx with
  | some index => { named with roomIndex := index }
  | none => named.fault

def roomAcquire (cfg : Config) (w : World) (name : Bytes) : World × Nat :=
  match (w.roomIndex.find (w.memory cfg name) cfg.slots).chain with
  | node :: _ => (w, node.value)
  | [] =>
      match w.roomFree with
      | none => (w.fault, 0)
      | some idx => (w.roomCreate cfg name idx, idx)

def roomRelease (cfg : Config) (w : World) (idx : Nat) : World :=
  { w.updateRoom idx fun r =>
      { r with live := false, head := none, nextFree := w.roomFree } with
    roomIndex := w.roomIndex.erase (w.memory cfg []) idx
    roomFree := some idx }

def joinRoom (w : World) (fd : Fd) (idx : Nat) : World :=
  let head := (w.rooms idx).head
  ((w.update fd fun c => { c with room := some idx, roomPrev := none, roomNext := head }).touch head
    fun c => { c with roomPrev := some fd }).updateRoom idx fun r =>
      { r with head := some fd, count := r.count + 1 }

/-- The links around a member are closed, and its own cleared. -/
def unlink (w : World) (fd : Fd) (c : Conn) (idx : Nat) : World :=
  let behind :=
    match c.roomPrev with
    | none => w.updateRoom idx fun r => { r with head := c.roomNext }
    | some before => w.touch (some before) fun b => { b with roomNext := c.roomNext }
  ((behind.touch c.roomNext fun b => { b with roomPrev := c.roomPrev }).update fd fun c =>
    { c with roomPrev := none, roomNext := none }).updateRoom idx fun r =>
      { r with count := r.count - 1 }

def leaveRoom (cfg : Config) (w : World) (fd : Fd) : World :=
  match w.conns fd with
  | none => w
  | some c =>
      match c.room with
      | none => w
      | some idx =>
          let unlinked := w.unlink fd c idx
          (if (unlinked.rooms idx).count = 0 then unlinked.roomRelease cfg idx
            else unlinked).update fd fun c => { c with room := none }

/-! ## Packets -/

def joinPacket (k : Kernel) (cfg : Config) (w : World) (fd : Fd) (c : Conn) (payload : Bytes) :
    World :=
  if c.nick = [] then w.queueSend sNotice nickFirst fd
  else
    let joined := payload.take roomMax
    if joined = [] then w.queueSend sNotice roomRequired fd
    else
      let left :=
        if c.room = none then w
        else (w.broadcast k cfg c.room sNotice (leftNotice c.nick) (some fd)).leaveRoom cfg fd
      let (acquired, idx) := left.roomAcquire cfg joined
      let entered := acquired.joinRoom fd idx
      let echo := (entered.rooms idx).name.take joined.length
      (entered.queueSend sNotice (joinedNotice echo) fd).broadcast k cfg (some idx) sNotice
        (helloNotice c.nick) (some fd)

def chatPacket (k : Kernel) (cfg : Config) (w : World) (fd : Fd) (c : Conn) (payload : Bytes) :
    World :=
  if c.room = none then w.queueSend sNotice joinFirst fd
  else w.broadcast k cfg c.room sChat (chatLine c.nick payload) none

def handlePacket (k : Kernel) (cfg : Config) (w : World) (fd : Fd) (type : UInt16)
    (payload : Bytes) : World :=
  match w.conns fd with
  | none => w
  | some c =>
      if type = cSetNick then
        let nick := payload.take nickMax
        (w.update fd fun c => { c with nick }).queueSend sNotice (nickNotice nick) fd
      else if type = cJoin then w.joinPacket k cfg fd c payload
      else if type = cChat then w.chatPacket k cfg fd c payload
      else w.doom fd

/-! ## Reading -/

def noteHandled (w : World) (fd : Fd) : World :=
  w.emit (.handled fd ((w.conns fd).elim false (·.closing)))

def noteParsed (w : World) (fd : Fd) : World :=
  w.emit (.parsed fd ((w.conns fd).elim 0 (·.input.usedSize)) ((w.conns fd).elim false (·.closing)))

/-- A frame that lies contiguously, handled in place and committed behind that. -/
def handleDirect (k : Kernel) (cfg : Config) (w : World) (fd : Fd) (c : Conn) (type : UInt16)
    (frame : Nat) : World :=
  let payload := (c.input.direct rxRing frame).drop headerSize
  (((w.emit (.packet w.clients fd type payload)).handlePacket k cfg fd type payload).noteHandled
    fd).update fd fun c => { c with input := c.input.commitDequeue frame }

/-- A frame that straddles the wrap, dequeued into a scratch before it is handled. -/
def handleScratch (k : Kernel) (cfg : Config) (w : World) (fd : Fd) (c : Conn) (type : UInt16)
    (frame : Nat) : World :=
  let (ring, scratch) := c.input.pop rxRing frame
  let payload := scratch.drop headerSize
  (((w.emit (.packet w.clients fd type payload)).update fd fun c =>
    { c with input := ring }).handlePacket k cfg fd type payload).noteHandled fd

/-- The loop of `parse_frames`; the first argument bounds the frames. -/
def parseLoop (k : Kernel) (cfg : Config) (fd : Fd) : Nat → World → World
  | 0, w => w
  | fuel + 1, w =>
      match w.conns fd with
      | none => w
      | some c =>
          if c.closing ∨ c.input.usedSize < headerSize then w
          else
            let header := c.input.peek rxRing headerSize
            let len := (LittleEndian.read header).toNat
            let type := LittleEndian.read (header.drop 2)
            if maxPayload < len then (w.emit (.oversize fd)).doom fd
            else
              let frame := headerSize + len
              if c.input.usedSize < frame then w
              else if frame ≤ directDequeueSize rxRing c.input.dequeue c.input.enqueue then
                parseLoop k cfg fd fuel (w.handleDirect k cfg fd c type frame)
              else parseLoop k cfg fd fuel (w.handleScratch k cfg fd c type frame)

def parseFrames (k : Kernel) (cfg : Config) (w : World) (fd : Fd) : World :=
  (parseLoop k cfg fd ((w.conns fd).elim 0 (·.input.usedSize)) w).noteParsed fd

/-- The check on `enqueue`, which takes all or nothing. -/
def enqueueInput (w : World) (fd : Fd) (c : Conn) (chunk : Bytes) : World :=
  let (ring, count) := c.input.push rxRing chunk
  let taken := w.update fd fun c => { c with input := ring }
  if count = chunk.length then taken else taken.fault

/-- `on_readable` against a script; the first argument bounds the calls. -/
def onReadable (k : Kernel) (cfg : Config) (fd : Fd) : Nat → List (RecvAnswer UInt8) → World → World
  | 0, _, w => w
  | fuel + 1, script, w =>
      match w.conns fd with
      | none => w
      | some c =>
          let want := min (c.input.freeSize rxRing) recvSize
          if want = 0 then w.doom fd
          else
            match script with
            | [] | .wouldBlock :: _ => (w.emit (.recv fd [])).afterQueue k cfg fd
            | .eof :: _ | .failed :: _ => (w.emit (.recv fd [])).doom fd
            | .interrupted :: script => onReadable k cfg fd fuel script (w.emit (.recv fd []))
            | .data bytes :: script =>
                let chunk := bytes.take want
                if chunk = [] then (w.emit (.recv fd [])).doom fd
                else
                  let parsed :=
                    ((w.emit (.recv fd chunk)).enqueueInput fd c chunk).parseFrames k cfg fd
                  if (parsed.conns fd).elim true (·.closing) then parsed
                  else if cfg.shortRead ∧ chunk.length < want then parsed.afterQueue k cfg fd
                  else onReadable k cfg fd fuel (pushBack (bytes.drop want) script) parsed

/-! ## The main loop -/

def flushDirtyOne (k : Kernel) (w : World) (fd : Fd) : World :=
  match w.conns fd with
  | none => w
  | some c =>
      let clean := w.update fd fun c => { c with dirty := false }
      if c.closing then clean else clean.flushSend k fd

/-- The list does not grow while it is walked: `flush_send` never marks. -/
def flushDirty (k : Kernel) (w : World) : World :=
  { w.dirty.foldl (flushDirtyOne k) w with dirty := [] }

/-- `::close`, and the end of what the slot held. -/
def close (w : World) (fd : Fd) : World :=
  { w.emit (.closed fd) with
    conns := Function.update w.conns fd none
    totalLive := w.totalLive - 1 }

/-- The slot is constructed; its queue is left as the mapping has it. -/
def construct (w : World) (fd : Fd) : World :=
  { w.emit (.accepted fd) with
    conns := Function.update w.conns fd (some {})
    totalLive := w.totalLive + 1 }

/-- `accept4` never answers with a descriptor that is still open. -/
def onAccept (cfg : Config) : List AcceptAnswer → World → World
  | [], w => w
  | .arrived fd added :: answers, w =>
      if (w.conns fd).isSome then onAccept cfg answers w
      else if cfg.maxConns ≤ w.totalLive ∨ cfg.slots ≤ fd then
        onAccept cfg answers (w.emit (.refused fd))
      else if added = false then onAccept cfg answers (w.emit (.refused fd))
      else onAccept cfg answers (w.construct fd)
  | .interrupted :: answers, w | .aborted :: answers, w => onAccept cfg answers w
  | .outOfFds :: _, w | .failed :: _, w | .wouldBlock :: _, w => w

/-- What `reap_doomed` does to a doomed connection before it closes it. -/
def depart (k : Kernel) (cfg : Config) (w : World) (fd : Fd) (c : Conn) : World :=
  if c.room ≠ none ∧ c.nick ≠ [] then
    (w.leaveRoom cfg fd).broadcast k cfg c.room sNotice (leftNotice c.nick) (some fd)
  else w.leaveRoom cfg fd

/-- The index loop of `reap_doomed`, which reads the size again each time. -/
def reapLoop (k : Kernel) (cfg : Config) : Nat → Nat → World → World
  | 0, _, w => w
  | fuel + 1, index, w =>
      match w.doomed[index]? with
      | none => { w with doomed := [] }
      | some fd =>
          match w.conns fd with
          | none => reapLoop k cfg fuel (index + 1) w
          | some c =>
              reapLoop k cfg fuel (index + 1)
                (((w.emit (.departs w.clients fd)).depart k cfg fd c).close fd)

def reapDoomed (k : Kernel) (cfg : Config) (w : World) : World :=
  reapLoop k cfg (w.doomed.length + w.totalLive + 1) 0 w

def handleReady (k : Kernel) (cfg : Config) (w : World) (what : Ready) : World :=
  match w.conns what.fd with
  | none => w
  | some c =>
      if c.closing then w
      else if what.hangup then w.doom what.fd
      else
        let flushed := if what.writable then w.flushSend k what.fd else w
        if (flushed.conns what.fd).elim true (·.closing) = false ∧ what.readable then
          onReadable k cfg what.fd (scriptCost what.script) what.script flushed
        else flushed

def handleEvent (k : Kernel) (cfg : Config) (w : World) : Event → World
  | .accept answers => onAccept cfg answers w
  | .signal => { w with running := false }
  | .ready what => w.handleReady k cfg what

def tail (k : Kernel) (cfg : Config) (w : World) : World :=
  if cfg.batchFlush then ((w.flushDirty k).reapDoomed k cfg).flushDirty k
  else w.reapDoomed k cfg

/-- One iteration of the main loop, from the return of `epoll_wait` to the next call. -/
def iterate (k : Kernel) (cfg : Config) (w : World) (batch : Batch) : World :=
  (batch.events.foldl (handleEvent k cfg) (w.emit .wake)).tail k cfg

def run (k : Kernel) (cfg : Config) (batches : List Batch) : World :=
  batches.foldl (fun w batch => if w.running then w.iterate k cfg batch else w) (init cfg)

end World

end NetEngine.Epoll.ServerSds
