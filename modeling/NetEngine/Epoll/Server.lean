import NetEngine.Epoll.Chat

/-! `server.cpp`: the chat server on standard containers. A connection is kept
under its descriptor, so `conn::fd` is the key. The clock counts the questions
put to the kernel; with the trace it is all that the program does not have. -/

set_option autoImplicit false

namespace NetEngine.Epoll.Server

open Socket

/-- `in` is `input`. -/
structure Conn where
  nick : Bytes := []
  room : Bytes := []
  input : Bytes := []
  out : Bytes := []
  armedWrite : Bool := false
  closing : Bool := false
  dirty : Bool := false

/-- `CHAT_FLUSH=batch`, `CHAT_TICK_MODE=coalesce` and `CHAT_MAX_CONNS`. -/
structure Config where
  batchFlush : Bool
  coalesce : Bool
  maxConns : Nat

def tickCap : Nat := 32 * 1024

structure World where
  conns : Fd → Option Conn
  size : Nat
  rooms : Bytes → Option (List Fd)
  doomed : List Fd
  dirty : List Fd
  tickBuf : List (Bytes × Bytes)
  tickFrames : Nat
  tickDropped : Nat
  running : Bool
  clock : Nat
  trace : List (Obs Bytes)

def Conn.client (c : Conn) : Client Bytes where
  nick := c.nick
  room := if c.room = [] then none else some c.room
  input := c.input
  pending := c.out
  armed := c.armedWrite
  closing := c.closing
  dirty := c.dirty

namespace World

def init : World := ⟨fun _ => none, 0, fun _ => none, [], [], [], 0, 0, true, 0, []⟩

def clients (w : World) (fd : Fd) : Option (Client Bytes) := (w.conns fd).map Conn.client

def emit (w : World) (obs : Obs Bytes) : World := { w with trace := w.trace ++ [obs] }

def asked (w : World) : World := { w with clock := w.clock + 1 }

def update (w : World) (fd : Fd) (change : Conn → Conn) : World :=
  { w with conns := Function.update w.conns fd ((w.conns fd).map change) }

/-! ## Sending -/

def updateEpollMask (k : Kernel) (w : World) (fd : Fd) : World :=
  match w.conns fd with
  | none => w
  | some c =>
      let wantWrite := decide (c.out ≠ [])
      if wantWrite = c.armedWrite then w
      else
        let done := k.modify w.clock
        (if done then w.asked.update fd fun c => { c with armedWrite := wantWrite }
          else w.asked).emit (.mask fd wantWrite done)

def doom (w : World) (fd : Fd) : World :=
  match w.conns fd with
  | none => w
  | some c =>
      if c.closing then w
      else
        { (w.update fd fun c => { c with closing := true }).emit (.doomed fd) with
          doomed := w.doomed ++ [fd] }

/-- The cap test and the copy, as in `queue_send` and in `queue_tick_frame`. -/
def enqueue (w : World) (fd : Fd) (type : UInt16) (payload : Bytes) : World :=
  match w.conns fd with
  | none => w
  | some c =>
      if sendCap < c.out.length + headerSize + payload.length then
        (w.emit (.overCap fd (headerSize + payload.length))).doom fd
      else
        (w.update fd fun c => { c with out := c.out ++ Framing.encode type payload }).emit
          (.append fd type payload)

def queueSend (type : UInt16) (payload : Bytes) (w : World) (fd : Fd) : World :=
  match w.conns fd with
  | none => w
  | some c =>
      if c.closing then w
      else if maxPayload < payload.length then w
      else w.enqueue fd type payload

def queueTickFrame (payload : Bytes) (w : World) (fd : Fd) : World :=
  match w.conns fd with
  | none => w
  | some c => if c.closing then w else w.enqueue fd sTick payload

def flushSend (k : Kernel) (w : World) (fd : Fd) : World :=
  match w.conns fd with
  | none => w
  | some c =>
      if c.out = [] then w.updateEpollMask k fd
      else
        let loop := sendLoop c.out (k.send w.clock)
        let sent := (w.asked.update fd fun c => { c with out := loop.rest }).emit
          (.send fd loop.sent loop.how)
        if loop.how = .broken then sent.doom fd else sent.updateEpollMask k fd

def markDirty (w : World) (fd : Fd) : World :=
  match w.conns fd with
  | none => w
  | some c =>
      if c.dirty = false ∧ c.out ≠ [] then
        { w.update fd fun c => { c with dirty := true } with dirty := w.dirty ++ [fd] }
      else w

/-- The choice of LESSON 8, at its three places. -/
def afterQueue (k : Kernel) (cfg : Config) (w : World) (fd : Fd) : World :=
  if cfg.batchFlush then w.markDirty fd else w.flushSend k fd

/-- The body of a walk over members, for one of them. -/
def deliver (k : Kernel) (cfg : Config) (put : World → Fd → World) (w : World) (fd : Fd) : World :=
  match w.conns fd with
  | none => w
  | some c => if c.closing then w else (put w fd).afterQueue k cfg fd

def broadcast (k : Kernel) (cfg : Config) (room : Bytes) (type : UInt16) (payload : Bytes)
    (exceptFd : Option Fd) (w : World) : World :=
  match w.rooms room with
  | none => w
  | some members =>
      (k.walk w.clock members).foldl
        (fun w fd => if some fd = exceptFd then w else w.deliver k cfg (queueSend type payload) fd)
        w.asked

/-! ## Rooms -/

/-- The member goes, and with the last one the room and its tick buffer. -/
def dropMember (cfg : Config) (w : World) (room : Bytes) (fd : Fd) : World :=
  match w.rooms room with
  | none => w
  | some members =>
      if members.erase fd = [] then
        { w with
          rooms := Function.update w.rooms room none
          tickBuf :=
            if cfg.coalesce then w.tickBuf.filter fun entry => entry.1 ≠ room else w.tickBuf }
      else { w with rooms := Function.update w.rooms room (some (members.erase fd)) }

def leaveRoom (cfg : Config) (w : World) (fd : Fd) : World :=
  match w.conns fd with
  | none => w
  | some c =>
      if c.room = [] then w
      else (w.dropMember cfg c.room fd).update fd fun c => { c with room := [] }

/-- `c.room = joined` and `g_rooms[c.room].insert(c.fd)`. -/
def enterRoom (w : World) (fd : Fd) (joined : Bytes) : World :=
  { w.update fd fun c => { c with room := joined } with
    rooms := Function.update w.rooms joined (some (((w.rooms joined).getD []).insert fd)) }

def tickEntry (bufs : List (Bytes × Bytes)) (room : Bytes) : Bytes := (bufs.lookup room).getD []

/-- `g_tick_buf[room] = buf`, which makes the entry when there is none. -/
def setTickEntry (bufs : List (Bytes × Bytes)) (room buf : Bytes) : List (Bytes × Bytes) :=
  if bufs.any fun entry => entry.1 = room then
    bufs.map fun entry => if entry.1 = room then (room, buf) else entry
  else bufs ++ [(room, buf)]

/-- Stage C: the line goes onto the room's tick buffer, or is dropped at its cap. -/
def record (w : World) (room line : Bytes) : World :=
  let buf := tickEntry w.tickBuf room
  if tickCap < buf.length + 2 + line.length then
    { w with tickBuf := setTickEntry w.tickBuf room buf, tickDropped := w.tickDropped + 1 }
  else
    { w with
      tickBuf := setTickEntry w.tickBuf room
        (buf ++ LittleEndian.encode (UInt16.ofNat line.length) ++ line) }

def deliverTick (k : Kernel) (cfg : Config) (buf : Bytes) (w : World) (fd : Fd) : World :=
  match w.conns fd with
  | none => w
  | some c =>
      if c.closing then w
      else
        ({ w.queueTickFrame buf fd with tickFrames := w.tickFrames + 1 } : World).afterQueue k cfg fd

/-- One entry of `flush_tick_rooms`' walk. -/
def flushTickRoom (k : Kernel) (cfg : Config) (w : World) (entry : Bytes × Bytes) : World :=
  if entry.2 = [] then w
  else
    let told := match w.rooms entry.1 with
      | none => w
      | some members =>
          (k.walk w.clock members).foldl (fun w fd => w.deliverTick k cfg entry.2 fd) w.asked
    { told with tickBuf := setTickEntry told.tickBuf entry.1 [] }

def flushTickRooms (k : Kernel) (cfg : Config) (w : World) : World :=
  (k.walk w.clock w.tickBuf).foldl (flushTickRoom k cfg) w.asked

/-! ## Packets -/

def joinPacket (k : Kernel) (cfg : Config) (w : World) (fd : Fd) (c : Conn) (payload : Bytes) :
    World :=
  if c.nick = [] then w.queueSend sNotice nickFirst fd
  else
    let joined := payload.take roomMax
    if joined = [] then w.queueSend sNotice roomRequired fd
    else
      let left :=
        if c.room = [] then w
        else (w.broadcast k cfg c.room sNotice (leftNotice c.nick) (some fd)).leaveRoom cfg fd
      ((left.enterRoom fd joined).queueSend sNotice (joinedNotice joined) fd).broadcast k cfg joined
        sNotice (helloNotice c.nick) (some fd)

def chatPacket (k : Kernel) (cfg : Config) (w : World) (fd : Fd) (c : Conn) (payload : Bytes) :
    World :=
  if c.room = [] then w.queueSend sNotice joinFirst fd
  else
    let line := chatLine c.nick payload
    if cfg.coalesce then w.record c.room line else w.broadcast k cfg c.room sChat line none

def handlePacket (k : Kernel) (cfg : Config) (w : World) (fd : Fd) (type : UInt16)
    (payload : Bytes) : World :=
  match w.conns fd with
  | none => w
  | some c =>
      if type = cSetNick then
        let nick := payload.take nickMax
        (w.update fd fun c => { c with nick }).queueSend sNotice (nickNotice nick) fd
      else if type = cJoin then w.joinPacket k cfg fd c payload
      else if type = cChat then w.chatPacket k cfg fd c payload
      else w.doom fd

/-! ## Reading -/

def noteHandled (w : World) (fd : Fd) : World :=
  w.emit (.handled fd ((w.conns fd).elim false (·.closing)))

def noteParsed (w : World) (fd : Fd) : World :=
  w.emit (.parsed fd ((w.conns fd).elim 0 (·.input.length)) ((w.conns fd).elim false (·.closing)))

/-- `c.in.erase(0, size)`. -/
def eraseInput (w : World) (fd : Fd) (size : Nat) : World :=
  w.update fd fun c => { c with input := c.input.drop size }

/-- `c.in.append(buf, n)`. -/
def appendInput (w : World) (fd : Fd) (chunk : Bytes) : World :=
  w.update fd fun c => { c with input := c.input ++ chunk }

/-- The loop body of `parse_frames` for a complete frame. -/
def handleFrame (k : Kernel) (cfg : Config) (w : World) (fd : Fd) (type : UInt16) (payload : Bytes)
    (frameSize : Nat) : World :=
  (((w.emit (.packet w.clients fd type payload)).handlePacket k cfg fd type payload).noteHandled
    fd).eraseInput fd frameSize

/-- The loop of `parse_frames`; the first argument bounds the frames. -/
def parseLoop (k : Kernel) (cfg : Config) (fd : Fd) : Nat → World → World
  | 0, w => w
  | fuel + 1, w =>
      match w.conns fd with
      | none => w
      | some c =>
          if c.closing ∨ c.input.length < headerSize then w
          else
            let len := (LittleEndian.read c.input).toNat
            if maxPayload < len then (w.emit (.oversize fd)).doom fd
            else if c.input.length < headerSize + len then w
            else
              parseLoop k cfg fd fuel
                (w.handleFrame k cfg fd (LittleEndian.read (c.input.drop 2))
                  ((c.input.drop headerSize).take len) (headerSize + len))

def parseFrames (k : Kernel) (cfg : Config) (w : World) (fd : Fd) : World :=
  (parseLoop k cfg fd ((w.conns fd).elim 0 (·.input.length)) w).noteParsed fd

/-- `on_readable` against a script; the first argument bounds the calls. -/
def onReadable (k : Kernel) (cfg : Config) (fd : Fd) : Nat → List (RecvAnswer UInt8) → World → World
  | 0, _, w => w
  | _ + 1, [], w => (w.emit (.recv fd [])).afterQueue k cfg fd
  | fuel + 1, answer :: script, w =>
      match answer with
      | .data bytes =>
          let chunk := bytes.take recvSize
          match w.conns fd with
          | none => w
          | some c =>
              if chunk = [] then (w.emit (.recv fd [])).doom fd
              else if maxPayload + headerSize + 65536 < c.input.length + chunk.length then
                (w.emit (.recv fd chunk)).doom fd
              else
                let parsed := ((w.emit (.recv fd chunk)).appendInput fd chunk).parseFrames k cfg fd
                if (parsed.conns fd).elim true (·.closing) then parsed
                else onReadable k cfg fd fuel (pushBack (bytes.drop recvSize) script) parsed
      | .eof => (w.emit (.recv fd [])).doom fd
      | .wouldBlock => (w.emit (.recv fd [])).afterQueue k cfg fd
      | .interrupted => onReadable k cfg fd fuel script (w.emit (.recv fd []))
      | .failed => (w.emit (.recv fd [])).doom fd

/-! ## The main loop -/

def flushDirtyOne (k : Kernel) (w : World) (fd : Fd) : World :=
  match w.conns fd with
  | none => w
  | some c =>
      let clean := w.update fd fun c => { c with dirty := false }
      if c.closing then clean else clean.flushSend k fd

/-- The list does not grow while it is walked: `flush_send` never marks. -/
def flushDirty (k : Kernel) (w : World) : World :=
  { w.dirty.foldl (flushDirtyOne k) w with dirty := [] }

/-- `::close` and `g_conns.erase`. -/
def close (w : World) (fd : Fd) : World :=
  { w.emit (.closed fd) with conns := Function.update w.conns fd none, size := w.size - 1 }

/-- `g_conns.emplace`. -/
def emplace (w : World) (fd : Fd) : World :=
  { w.emit (.accepted fd) with
    conns := Function.update w.conns fd (some {})
    size := w.size + 1 }

/-- `accept4` never answers with a descriptor that is still open. -/
def onAccept (cfg : Config) : List AcceptAnswer → World → World
  | [], w => w
  | .arrived fd added :: answers, w =>
      if (w.conns fd).isSome then onAccept cfg answers w
      else if cfg.maxConns ≤ w.size then onAccept cfg answers (w.emit (.refused fd))
      else if added = false then onAccept cfg answers (w.emit (.refused fd))
      else onAccept cfg answers (w.emplace fd)
  | .interrupted :: answers, w | .aborted :: answers, w => onAccept cfg answers w
  | .outOfFds :: _, w | .failed :: _, w | .wouldBlock :: _, w => w

/-- What `reap_doomed` does to a doomed connection before it closes it. -/
def depart (k : Kernel) (cfg : Config) (w : World) (fd : Fd) (c : Conn) : World :=
  if c.room ≠ [] ∧ c.nick ≠ [] then
    (w.leaveRoom cfg fd).broadcast k cfg c.room sNotice (leftNotice c.nick) (some fd)
  else w.leaveRoom cfg fd

/-- The index loop of `reap_doomed`, which reads the size again each time. -/
def reapLoop (k : Kernel) (cfg : Config) : Nat → Nat → World → World
  | 0, _, w => w
  | fuel + 1, index, w =>
      match w.doomed[index]? with
      | none => { w with doomed := [] }
      | some fd =>
          match w.conns fd with
          | none => reapLoop k cfg fuel (index + 1) w
          | some c =>
              reapLoop k cfg fuel (index + 1)
                (((w.emit (.departs w.clients fd)).depart k cfg fd c).close fd)

def reapDoomed (k : Kernel) (cfg : Config) (w : World) : World :=
  reapLoop k cfg (w.doomed.length + w.size + 1) 0 w

def handleReady (k : Kernel) (cfg : Config) (w : World) (what : Ready) : World :=
  match w.conns what.fd with
  | none => w
  | some c =>
      if c.closing then w
      else if what.hangup then w.doom what.fd
      else
        let flushed := if what.writable then w.flushSend k what.fd else w
        if (flushed.conns what.fd).elim true (·.closing) = false ∧ what.readable then
          onReadable k cfg what.fd (scriptCost what.script) what.script flushed
        else flushed

def handleEvent (k : Kernel) (cfg : Config) (w : World) : Event → World
  | .accept answers => onAccept cfg answers w
  | .signal => { w with running := false }
  | .ready what => w.handleReady k cfg what

def tail (k : Kernel) (cfg : Config) (w : World) : World :=
  if cfg.batchFlush then ((w.flushDirty k).reapDoomed k cfg).flushDirty k
  else w.reapDoomed k cfg

/-- One iteration of the main loop, from the return of `epoll_wait` to the next call. -/
def iterate (k : Kernel) (cfg : Config) (w : World) (batch : Batch) : World :=
  let drained := batch.events.foldl (handleEvent k cfg) (w.emit .wake)
  let ticked := if cfg.coalesce ∧ batch.tickDue then drained.flushTickRooms k cfg else drained
  ticked.tail k cfg

def run (k : Kernel) (cfg : Config) (batches : List Batch) : World :=
  batches.foldl (fun w batch => if w.running then w.iterate k cfg batch else w) init

end World

end NetEngine.Epoll.Server
