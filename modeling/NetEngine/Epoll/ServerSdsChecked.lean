import NetEngine.Epoll.ServerSds

/-! `server_sds.cpp` with the sizes of its arrays. Each copy states the cells that it
writes, and each `LNX_CHECK` what it asks for; one that does not hold ends the
program, and so does the branch for a ring without room. What a call does when all
of them hold is what it does in `ServerSds`. -/

set_option autoImplicit false

namespace NetEngine.Epoll.ServerSds.Checked

open Socket RingBuffer

/-- `g_line`. -/
def lineSize : Nat := nickMax + 2 + maxPayload

def check (holds : Prop) [Decidable holds] : Option Unit := if holds then some () else none

/-- The cells `start, …, start + count - 1` are cells of an array of `size`. -/
def within (size start count : Nat) : Option Unit := check (start + count ≤ size)

/-- The parts of a text, copied behind each other to the start of `g_line`. -/
def line (text : Bytes) : Option Unit := within lineSize 0 text.length

/-- `push_checked`: the capacity is what `make_slab` reserved. A descriptor is on a
list once. -/
def pushChecked (cfg : Config) (list : List Fd) (fd : Fd) : Option Unit := do
  check (fd ∉ list)
  check (list.length < cfg.slots)

/-- `g_total_live` is the number of slots that are there. -/
def audit (cfg : Config) (w : World) : Option World := do
  check ((List.range cfg.slots).countP (fun fd => (w.conns fd).isSome) = w.totalLive)
  check (w.totalLive ≤ cfg.maxConns)
  return w

/-! ## Sending -/

def doom (cfg : Config) (w : World) (fd : Fd) : Option World :=
  match w.conns fd with
  | none => some w
  | some c =>
      if c.closing then some w
      else do
        pushChecked cfg w.doomed fd
        return w.doom fd

/-- The `memmove` of a queue that does not fit behind its tail. -/
def compact (c : Conn) (frame : Nat) : Option Unit :=
  if txRegion < c.txTail + frame then do
    within txRegion c.txHead c.used
    within txRegion 0 c.used
  else some ()

def queueSend (cfg : Config) (type : UInt16) (payload : Bytes) (w : World) (fd : Fd) :
    Option World :=
  match w.conns fd with
  | none => some w
  | some c =>
      if c.closing then some w
      else if maxPayload < payload.length then some w
      else
        let frame := headerSize + payload.length
        if sendCap < c.used + frame then doom cfg (w.emit (.overCap fd frame)) fd
        else do
          compact c frame
          within txRegion (c.compact frame).txTail headerSize
          within txRegion ((c.compact frame).txTail + headerSize) payload.length
          return World.queueSend type payload w fd

def flushSend (k : Kernel) (cfg : Config) (w : World) (fd : Fd) : Option World :=
  match w.conns fd with
  | none => some w
  | some c =>
      if c.txHead < c.txTail then do
        within txRegion c.txHead c.used
        let loop := sendLoop c.out (k.send w.clock)
        let after := (w.asked.update fd fun c => c.sent loop.sent.length).emit
          (.send fd loop.sent loop.how)
        if loop.how = .broken then doom cfg after fd else return after.updateEpollMask k fd
      else some (w.updateEpollMask k fd)

def markDirty (cfg : Config) (w : World) (fd : Fd) : Option World :=
  match w.conns fd with
  | none => some w
  | some c =>
      if c.dirty = false ∧ c.txHead < c.txTail then do
        pushChecked cfg w.dirty fd
        return w.markDirty fd
      else some w

def afterQueue (k : Kernel) (cfg : Config) (w : World) (fd : Fd) : Option World :=
  if cfg.batchFlush then markDirty cfg w fd else flushSend k cfg w fd

def walkRoom (k : Kernel) (cfg : Config) (type : UInt16) (payload : Bytes) (exceptFd : Option Fd) :
    Nat → Option Fd → World → Option World
  | _, none, w => some w
  | 0, some _, _ => none
  | fuel + 1, some fd, w =>
      match w.conns fd with
      | none => none
      | some r => do
          let told ←
            if some fd = exceptFd ∨ r.closing then some w
            else (queueSend cfg type payload w fd).bind fun queued => afterQueue k cfg queued fd
          walkRoom k cfg type payload exceptFd fuel ((told.conns fd).bind (·.roomNext)) told

def broadcast (k : Kernel) (cfg : Config) (room : Option Nat) (type : UInt16) (payload : Bytes)
    (exceptFd : Option Fd) (w : World) : Option World :=
  match room with
  | none => some w
  | some idx =>
      if (w.rooms idx).live then
        walkRoom k cfg type payload exceptFd cfg.slots (w.rooms idx).head w
      else some w

/-! ## Packets -/

/-- The name goes to its room with a terminator. -/
def roomAcquire (cfg : Config) (w : World) (name : Bytes) : Option (World × Nat) :=
  match (w.roomIndex.find (w.memory cfg name) cfg.slots).chain with
  | node :: _ => some (w, node.value)
  | [] =>
      match w.roomFree with
      | none => none
      | some idx => do
          within (roomMax + 1) 0 (name.length + 1)
          return (w.roomCreate cfg name idx, idx)

def switchRoom (k : Kernel) (cfg : Config) (w : World) (fd : Fd) (c : Conn) : Option World :=
  if c.room = none then some w
  else do
    line (leftNotice c.nick)
    let told ← broadcast k cfg c.room sNotice (leftNotice c.nick) (some fd) w
    return told.leaveRoom cfg fd

/-- The notice is copied out of the room's name, as long as the joiner's. -/
def greet (k : Kernel) (cfg : Config) (w : World) (fd : Fd) (nick : Bytes) (size idx : Nat) :
    Option World := do
  within (roomMax + 1) 0 size
  within lineSize 0 ((ascii "joined ").length + size)
  let queued ← queueSend cfg sNotice (joinedNotice ((w.rooms idx).name.take size)) w fd
  line (helloNotice nick)
  broadcast k cfg (some idx) sNotice (helloNotice nick) (some fd) queued

def joinPacket (k : Kernel) (cfg : Config) (w : World) (fd : Fd) (c : Conn) (payload : Bytes) :
    Option World :=
  if c.nick = [] then queueSend cfg sNotice nickFirst w fd
  else
    let joined := payload.take roomMax
    do
      within (roomMax + 1) 0 (joined.length + 1)
      if joined = [] then queueSend cfg sNotice roomRequired w fd
      else
        let left ← switchRoom k cfg w fd c
        let acquired ← roomAcquire cfg left joined
        greet k cfg (acquired.1.joinRoom fd acquired.2) fd c.nick joined.length acquired.2

def chatPacket (k : Kernel) (cfg : Config) (w : World) (fd : Fd) (c : Conn) (payload : Bytes) :
    Option World :=
  if c.room = none then queueSend cfg sNotice joinFirst w fd
  else do
    line (chatLine c.nick payload)
    broadcast k cfg c.room sChat (chatLine c.nick payload) none w

def handlePacket (k : Kernel) (cfg : Config) (w : World) (fd : Fd) (type : UInt16)
    (payload : Bytes) : Option World :=
  match w.conns fd with
  | none => some w
  | some c =>
      if type = cSetNick then do
        let nick := payload.take nickMax
        within (nickMax + 1) 0 (nick.length + 1)
        line (nickNotice nick)
        queueSend cfg sNotice (nickNotice nick) (w.update fd fun c => { c with nick }) fd
      else if type = cJoin then joinPacket k cfg w fd c payload
      else if type = cChat then chatPacket k cfg w fd c payload
      else doom cfg w fd

/-! ## Reading -/

def handleDirect (k : Kernel) (cfg : Config) (w : World) (fd : Fd) (c : Conn) (type : UInt16)
    (frame : Nat) : Option World := do
  let payload := (c.input.direct rxRing frame).drop headerSize
  let handled ← handlePacket k cfg (w.emit (.packet w.clients fd type payload)) fd type payload
  return (handled.noteHandled fd).update fd fun c => { c with input := c.input.commitDequeue frame }

/-- The scratch of `parse_frames` is an array of `k_max_frame`. -/
def handleScratch (k : Kernel) (cfg : Config) (w : World) (fd : Fd) (c : Conn) (type : UInt16)
    (frame : Nat) : Option World := do
  within maxFrame 0 frame
  let (ring, scratch) := c.input.pop rxRing frame
  let payload := scratch.drop headerSize
  let handled ← handlePacket k cfg ((w.emit (.packet w.clients fd type payload)).update fd fun c =>
    { c with input := ring }) fd type payload
  return handled.noteHandled fd

def parseLoop (k : Kernel) (cfg : Config) (fd : Fd) : Nat → World → Option World
  | 0, w => some w
  | fuel + 1, w =>
      match w.conns fd with
      | none => some w
      | some c =>
          if c.closing ∨ c.input.usedSize < headerSize then some w
          else
            let header := c.input.peek rxRing headerSize
            let len := (LittleEndian.read header).toNat
            let type := LittleEndian.read (header.drop 2)
            if maxPayload < len then doom cfg (w.emit (.oversize fd)) fd
            else
              let frame := headerSize + len
              if c.input.usedSize < frame then some w
              else if frame ≤ directDequeueSize rxRing c.input.dequeue c.input.enqueue then
                (handleDirect k cfg w fd c type frame).bind (parseLoop k cfg fd fuel)
              else (handleScratch k cfg w fd c type frame).bind (parseLoop k cfg fd fuel)

def parseFrames (k : Kernel) (cfg : Config) (w : World) (fd : Fd) : Option World := do
  let parsed ← parseLoop k cfg fd ((w.conns fd).elim 0 (·.input.usedSize)) w
  return parsed.noteParsed fd

/-- The two copies of `enqueue` and the check on what it took. -/
def enqueueInput (w : World) (fd : Fd) (c : Conn) (chunk : Bytes) : Option World := do
  check (∀ copy ∈ writeAt rxRing c.input.enqueue chunk, copy.offset + copy.data.length ≤ rxRing.size)
  check ((c.input.push rxRing chunk).2 = chunk.length)
  return w.enqueueInput fd c chunk

def onReadable (k : Kernel) (cfg : Config) (fd : Fd) :
    Nat → List (RecvAnswer UInt8) → World → Option World
  | 0, _, w => some w
  | fuel + 1, script, w =>
      match w.conns fd with
      | none => some w
      | some c =>
          let want := min (c.input.freeSize rxRing) recvSize
          if want = 0 then none
          else
            match script with
            | [] | .wouldBlock :: _ => afterQueue k cfg (w.emit (.recv fd [])) fd
            | .eof :: _ | .failed :: _ => doom cfg (w.emit (.recv fd [])) fd
            | .interrupted :: script => onReadable k cfg fd fuel script (w.emit (.recv fd []))
            | .data bytes :: script =>
                let chunk := bytes.take want
                if chunk = [] then doom cfg (w.emit (.recv fd [])) fd
                else do
                  let taken ← enqueueInput (w.emit (.recv fd chunk)) fd c chunk
                  let parsed ← parseFrames k cfg taken fd
                  if (parsed.conns fd).elim true (·.closing) then some parsed
                  else if cfg.shortRead ∧ chunk.length < want then afterQueue k cfg parsed fd
                  else onReadable k cfg fd fuel (pushBack (bytes.drop want) script) parsed

/-! ## The main loop -/

def flushDirtyOne (k : Kernel) (cfg : Config) (w : World) (fd : Fd) : Option World :=
  match w.conns fd with
  | none => some w
  | some c =>
      let clean := w.update fd fun c => { c with dirty := false }
      if c.closing then some clean else flushSend k cfg clean fd

def flushDirty (k : Kernel) (cfg : Config) (w : World) : Option World := do
  let flushed ← w.dirty.foldlM (flushDirtyOne k cfg) w
  return { flushed with dirty := [] }

def close (cfg : Config) (w : World) (fd : Fd) : Option World := do
  check (0 < w.totalLive)
  audit cfg (w.close fd)

/-- The index into `g_live`, and `LNX_CHECK(!g_live[fd])`. -/
def construct (cfg : Config) (w : World) (fd : Fd) : Option World := do
  check (fd < cfg.slots)
  check (w.conns fd = none)
  audit cfg (w.construct fd)

def onAccept (cfg : Config) : List AcceptAnswer → World → Option World
  | [], w => some w
  | .arrived fd added :: answers, w =>
      if cfg.maxConns ≤ w.totalLive ∨ cfg.slots ≤ fd then
        onAccept cfg answers (w.emit (.refused fd))
      else if added = false then onAccept cfg answers (w.emit (.refused fd))
      else (construct cfg w fd).bind (onAccept cfg answers)
  | .interrupted :: answers, w | .aborted :: answers, w => onAccept cfg answers w
  | .outOfFds :: _, w | .failed :: _, w | .wouldBlock :: _, w => some w

def depart (k : Kernel) (cfg : Config) (w : World) (fd : Fd) (c : Conn) : Option World :=
  if c.room ≠ none ∧ c.nick ≠ [] then do
    line (leftNotice c.nick)
    broadcast k cfg c.room sNotice (leftNotice c.nick) (some fd) (w.leaveRoom cfg fd)
  else some (w.leaveRoom cfg fd)

def reapLoop (k : Kernel) (cfg : Config) : Nat → Nat → World → Option World
  | 0, _, w => some w
  | fuel + 1, index, w =>
      match w.doomed[index]? with
      | none => some { w with doomed := [] }
      | some fd =>
          match w.conns fd with
          | none => reapLoop k cfg fuel (index + 1) w
          | some c => do
              let told ← depart k cfg (w.emit (.departs w.clients fd)) fd c
              let closed ← close cfg told fd
              reapLoop k cfg fuel (index + 1) closed

def reapDoomed (k : Kernel) (cfg : Config) (w : World) : Option World :=
  reapLoop k cfg (w.doomed.length + w.totalLive + 1) 0 w

def handleReady (k : Kernel) (cfg : Config) (w : World) (what : Ready) : Option World :=
  match w.conns what.fd with
  | none => some w
  | some c =>
      if c.closing then some w
      else if what.hangup then doom cfg w what.fd
      else do
        let flushed ← if what.writable then flushSend k cfg w what.fd else some w
        if (flushed.conns what.fd).elim true (·.closing) = false ∧ what.readable then
          onReadable k cfg what.fd (scriptCost what.script) what.script flushed
        else some flushed

def handleEvent (k : Kernel) (cfg : Config) (w : World) : Event → Option World
  | .accept answers => onAccept cfg answers w
  | .signal => some { w with running := false }
  | .ready what => handleReady k cfg w what

def tail (k : Kernel) (cfg : Config) (w : World) : Option World :=
  if cfg.batchFlush then do
    let flushed ← flushDirty k cfg w
    let reaped ← reapDoomed k cfg flushed
    flushDirty k cfg reaped
  else reapDoomed k cfg w

def iterate (k : Kernel) (cfg : Config) (w : World) (batch : Batch) : Option World := do
  let drained ← batch.events.foldlM (handleEvent k cfg) (w.emit .wake)
  tail k cfg drained

def run (k : Kernel) (cfg : Config) (batches : List Batch) : Option World :=
  batches.foldlM (fun w batch => if w.running then iterate k cfg w batch else some w)
    (World.init cfg)

/-! ## What accept answers -/

/-- Every descriptor that `accept4` answers with is not open when it does. -/
def FreshAnswers (cfg : Config) : List AcceptAnswer → World → Prop
  | [], _ => True
  | .arrived fd added :: answers, w =>
      w.conns fd = none ∧ FreshAnswers cfg answers (World.onAccept cfg [.arrived fd added] w)
  | .interrupted :: answers, w | .aborted :: answers, w => FreshAnswers cfg answers w
  | .outOfFds :: _, _ | .failed :: _, _ | .wouldBlock :: _, _ => True

def FreshEvents (k : Kernel) (cfg : Config) : List Event → World → Prop
  | [], _ => True
  | event :: events, w =>
      (match event with
        | .accept answers => FreshAnswers cfg answers w
        | _ => True) ∧ FreshEvents k cfg events (w.handleEvent k cfg event)

def FreshRun (k : Kernel) (cfg : Config) : List Batch → World → Prop
  | [], _ => True
  | batch :: batches, w =>
      w.running = true →
        FreshEvents k cfg batch.events (w.emit .wake) ∧
          FreshRun k cfg batches (w.iterate k cfg batch)

end NetEngine.Epoll.ServerSds.Checked
