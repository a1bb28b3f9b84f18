import Mathlib.Data.Rat.Floor
import NetEngine.Bench.Histogram
import NetEngine.Bench.Wire
import NetEngine.Library.Socket

/-! `run_traffic`: the open-loop send schedule, the socket service between two
bursts, and the drain tail. Clock readings, kernel answers and the stop flag
come from a script; `issued` is the only field that the program does not have. -/

set_option autoImplicit false

namespace NetEngine.Bench

open Socket

inductive ConnState where
  | none
  | connecting
  | ready
  | dead
  deriving DecidableEq

/-- `rx` is the buffered part of the receive slot, `rx_len` its length. -/
structure Conn where
  state : ConnState := .none
  index : Int := -1
  seq : UInt32 := 0
  pending : Bytes := []
  rx : Bytes := []

def rxCap : Nat := 64 * 1024

structure Config where
  conns : Int
  perRoom : Int
  rate : Rat
  duration : Int
  size : Nat
  sizeMix : Bool
  node : UInt32
  useCorpus : Bool
  /-- The lines that `corpus::build` made at startup. -/
  lines : List Bytes

def sizeClasses : List Nat := [16, 32, 256, 1000]

structure Stats where
  latency : Histogram := .empty
  selfLag : Histogram := .empty
  sent : Nat := 0
  framesIn : Nat := 0
  bytesIn : Nat := 0
  samplesBad : Nat := 0
  foreign : Nat := 0
  backpressed : Nat := 0
  lostConns : Nat := 0

structure Interest where
  out : Bool
  deriving DecidableEq

/-- One call of `send_frame` from the burst loop, as it is about to be made for message `m`. -/
structure Issue where
  m : Nat
  fd : Nat
  offered : Nat
  answers : List SendAnswer

structure Traffic where
  conns : List Conn
  live : List Nat
  epoll : Nat → Option Interest
  closed : List Nat
  stats : Stats
  m : Nat
  classCursor : Nat
  corpusCursor : Nat
  issued : List Issue
  /-- The messages that a full send queue held back. -/
  held : List Nat

/-! ## netutil.cpp -/

/-- The unsent tail after the loop, and whether the socket is still usable. -/
def flushPending (pending : Bytes) (answers : List SendAnswer) : Bytes × Bool :=
  let loop := sendLoop pending answers
  (loop.rest, loop.how ≠ .broken)

/-- `pending` after the call, and whether the socket is still usable. -/
def sendFrame (pending frame : Bytes) (answers : List SendAnswer) : Bytes × Bool :=
  if pending ≠ [] then flushPending (pending ++ frame) answers
  else
    let loop := sendLoop frame answers
    match loop.how with
    | .drained => ([], true)
    | .blocked => (loop.rest, true)
    | .broken => ([], false)

/-- `rx` after the loop, the byte counter, and whether the socket is still usable.
A full slot is a frame that never completes. -/
def readAvailable (rx : Bytes) (bytesIn : Nat) : List (RecvAnswer UInt8) → Bytes × Nat × Bool
  | [] => (rx, bytesIn, rxCap - rx.length ≠ 0)
  | answer :: answers =>
      let room := rxCap - rx.length
      if room = 0 then (rx, bytesIn, false)
      else match answer with
        | .data bytes =>
            let got := bytes.take room
            if got = [] then (rx, bytesIn, false)
            else if got.length < room then (rx ++ got, bytesIn + got.length, true)
            else readAvailable (rx ++ got) (bytesIn + got.length) answers
        | .eof => (rx, bytesIn, false)
        | .wouldBlock => (rx, bytesIn, true)
        | .interrupted => readAvailable rx bytesIn answers
        | .failed => (rx, bytesIn, false)

/-! ## consume_frames -/

def signed64 (n : Nat) : Int := if n < 2 ^ 63 then n else n - 2 ^ 64

/-- One chat payload, one delivery sample. -/
def sample (recvTs : Int) (node : UInt32) (stats : Stats) (payload : Bytes) : Stats :=
  if payload.length < blobHeader then { stats with samplesBad := stats.samplesBad + 1 }
  else match payload.findIdx? (· == 58) with
    | none => { stats with samplesBad := stats.samplesBad + 1 }
    | some sep =>
        if payload.length < sep + 2 then { stats with samplesBad := stats.samplesBad + 1 }
        else
          let blob := payload.drop (sep + 2)
          if blob.length < blobHeader then { stats with samplesBad := stats.samplesBad + 1 }
          else if LittleEndian.value ((blob.drop 12).take 4) ≠ node.toNat then
            { stats with foreign := stats.foreign + 1 }
          else
            { stats with
              latency := stats.latency.add
                (recvTs - signed64 (LittleEndian.value (blob.take 8))) }

/-- The entries of a tick frame; the first argument bounds their number. -/
def tickEntries (recvTs : Int) (node : UInt32) : Nat → Stats → Bytes → Stats
  | 0, stats, _ => stats
  | fuel + 1, stats, payload =>
      if payload.length < 2 then stats
      else
        let elen := (LittleEndian.read payload).toNat
        let entries := payload.drop 2
        if entries.length < elen then { stats with samplesBad := stats.samplesBad + 1 }
        else
          let stats := { stats with framesIn := stats.framesIn + 1 }
          tickEntries recvTs node fuel (sample recvTs node stats (entries.take elen))
            (entries.drop elen)

def handleFrame (proto : Proto) (recvTs : Int) (node : UInt32) (stats : Stats) (type : UInt16)
    (payload : Bytes) : Stats :=
  if type = proto.idTickOut then tickEntries recvTs node payload.length stats payload
  else
    let stats := { stats with framesIn := stats.framesIn + 1 }
    if type ≠ proto.idChatOut ∨ payload.length < blobHeader then stats
    else sample recvTs node stats payload

/-- What is left in the slot, and the counters; the first argument bounds the frames. -/
def consumeFrames (proto : Proto) (recvTs : Int) (node : UInt32) :
    Nat → Stats → Bytes → Bytes × Stats
  | 0, stats, rx => (rx, stats)
  | fuel + 1, stats, rx =>
      if rx.length < headerSize then (rx, stats)
      else match payloadLen proto (LittleEndian.read rx) with
        | none => ([], { stats with samplesBad := stats.samplesBad + 1 })
        | some len =>
            if rx.length < headerSize + len then (rx, stats)
            else
              let payload := (rx.drop headerSize).take len
              consumeFrames proto recvTs node fuel
                (handleFrame proto recvTs node stats (LittleEndian.read (rx.drop 2)) payload)
                (rx.drop (headerSize + len))

/-! ## Run -/

namespace Traffic

def conn (traffic : Traffic) (fd : Nat) : Conn := traffic.conns.getD fd {}

def setConn (traffic : Traffic) (fd : Nat) (c : Conn) : Traffic :=
  { traffic with conns := traffic.conns.set fd c }

/-- `EPOLL_CTL_MOD`, which fails on an fd that is not registered. -/
def epollMod (traffic : Traffic) (fd : Nat) (interest : Interest) : Traffic :=
  { traffic with
    epoll := fun other =>
      if other = fd then (traffic.epoll fd).map fun _ => interest else traffic.epoll other }

/-- A loss: state, count, `EPOLL_CTL_DEL` and `close`. -/
def lose (traffic : Traffic) (fd : Nat) : Traffic :=
  { traffic.setConn fd { traffic.conn fd with state := .dead } with
    epoll := fun other => if other = fd then none else traffic.epoll other
    closed := traffic.closed ++ [fd]
    stats := { traffic.stats with lostConns := traffic.stats.lostConns + 1 } }

/-- `slot`, the distance between two due times. -/
def slot (cfg : Config) (n : Nat) : Int := (1000000000 / (n * cfg.rate)).floor

/-- The blob's text, with the cursors that its sources advance. -/
def body (cfg : Config) (traffic : Traffic) : Bytes × Nat × Nat :=
  if cfg.useCorpus then
    let next := traffic.corpusCursor + 1
    (cfg.lines.getD traffic.corpusCursor [], traffic.classCursor,
      if next = cfg.lines.length then 0 else next)
  else
    let fill := if cfg.sizeMix then sizeClasses.getD (traffic.classCursor % 4) 0 else cfg.size
    ((List.range (min fill (maxBlob - blobHeader))).map fun i => UInt8.ofNat (97 + i % 26),
      if cfg.sizeMix then traffic.classCursor + 1 else traffic.classCursor, traffic.corpusCursor)

def blob (cfg : Config) (due : Int) (c : Conn) (text : Bytes) : Bytes :=
  LittleEndian.bytes 8 (due % 2 ^ 64).toNat ++ LittleEndian.bytes 4 c.seq.toNat ++
    LittleEndian.bytes 4 cfg.node.toNat ++ LittleEndian.bytes 4 (c.index % 2 ^ 32).toNat ++ text

/-- One turn of the burst loop, for the message that is due. -/
def issue (proto : Proto) (cfg : Config) (loopTs due : Int) (answers : List SendAnswer)
    (traffic : Traffic) : Traffic :=
  let m := traffic.m
  let fd := traffic.live.getD (m % traffic.live.length) 0
  let c := traffic.conn fd
  let traffic := { traffic with m := m + 1 }
  if c.state ≠ .ready then traffic
  else
    let traffic := { traffic with
      stats := { traffic.stats with selfLag := traffic.stats.selfLag.add (loopTs - due) } }
    if 64 * 1024 < c.pending.length then
      { traffic with
        stats := { traffic.stats with backpressed := traffic.stats.backpressed + 1 }
        held := traffic.held ++ [m] }
    else
      let (text, classCursor, corpusCursor) := traffic.body cfg
      let data := blob cfg due c text
      let frame := putHeader proto proto.idChat data.length ++ data
      let waiting := c.pending.length
      let (pending, usable) := sendFrame c.pending frame answers
      let c := { c with seq := c.seq + 1, pending }
      let traffic := { traffic with
        classCursor, corpusCursor
        stats := { traffic.stats with sent := traffic.stats.sent + 1 }
        issued := traffic.issued ++ [Issue.mk m fd (waiting + frame.length) answers] }
      -- the state changes here, and nothing else does
      if ¬ usable then traffic.setConn fd { c with state := .dead }
      else if pending ≠ [] then (traffic.setConn fd c).epollMod fd ⟨true⟩
      else traffic.setConn fd c

/-- The burst loop; the first argument is what is left of `max_burst`. -/
def burst (proto : Proto) (cfg : Config) (start loopTs : Int) (answers : Nat → List SendAnswer) :
    Nat → Traffic → Traffic
  | 0, traffic => traffic
  | left + 1, traffic =>
      let due := start + traffic.m * slot cfg traffic.live.length
      if loopTs < due then traffic
      else burst proto cfg start loopTs answers left
        (traffic.issue proto cfg loopTs due (answers traffic.m))

end Traffic

/-- One entry of an `epoll_wait` result, with the answers to the calls it leads
to and the clock reading before `consume_frames`. -/
structure Ready where
  fd : Nat
  readable : Bool
  writable : Bool
  hangup : Bool
  sends : List SendAnswer
  recvs : List (RecvAnswer UInt8)
  stamp : Int

inductive Poll where
  | interrupted
  | failed
  | ready (events : List Ready)

structure Turn where
  stop : Bool
  now : Int
  sends : Nat → List SendAnswer
  poll : Poll

structure Script where
  start : Int
  turns : List Turn
  drainFrom : Int
  drain : List Turn

namespace Traffic

/-- `read_available`, then `consume_frames` whatever it returned. -/
def receive (proto : Proto) (cfg : Config) (event : Ready) (traffic : Traffic) : Traffic × Bool :=
  let c := traffic.conn event.fd
  let (rx, bytesIn, usable) := readAvailable c.rx traffic.stats.bytesIn event.recvs
  let (rx, stats) := consumeFrames proto event.stamp cfg.node rx.length
    { traffic.stats with bytesIn } rx
  ({ traffic.setConn event.fd { c with rx } with stats }, usable)

def flush (event : Ready) (traffic : Traffic) : Traffic × Bool :=
  let c := traffic.conn event.fd
  let (pending, usable) := flushPending c.pending event.sends
  let traffic := traffic.setConn event.fd { c with pending }
  (if usable ∧ pending = [] then traffic.epollMod event.fd ⟨false⟩ else traffic, usable)

/-- One ready socket of the main loop. -/
def service (proto : Proto) (cfg : Config) (traffic : Traffic) (event : Ready) : Traffic :=
  if (traffic.conn event.fd).state ≠ .ready then traffic
  else
    let (traffic, alive) := if event.writable then traffic.flush event else (traffic, true)
    let (traffic, alive) :=
      if alive ∧ event.readable then traffic.receive proto cfg event else (traffic, alive)
    if ¬ alive ∨ event.hangup then traffic.lose event.fd else traffic

def mainLoop (proto : Proto) (cfg : Config) (start : Int) : List Turn → Traffic → Traffic
  | [], traffic => traffic
  | turn :: turns, traffic =>
      if turn.stop ∨ start + cfg.duration * 1000000000 ≤ turn.now then traffic
      else
        let traffic := traffic.burst proto cfg start turn.now turn.sends
          (max 1024 (traffic.live.length / 8))
        match turn.poll with
        | .interrupted => mainLoop proto cfg start turns traffic
        | .failed => traffic
        | .ready events =>
            mainLoop proto cfg start turns (events.foldl (service proto cfg) traffic)

/-- One ready socket of the drain tail: a dead socket's bytes are not parsed here. -/
def drainService (proto : Proto) (cfg : Config) (traffic : Traffic) (event : Ready) : Traffic :=
  if (traffic.conn event.fd).state ≠ .ready then traffic
  else if ¬ event.readable then traffic
  else
    let c := traffic.conn event.fd
    let (rx, bytesIn, usable) := readAvailable c.rx traffic.stats.bytesIn event.recvs
    let traffic := { traffic.setConn event.fd { c with rx } with
      stats := { traffic.stats with bytesIn } }
    if ¬ usable then traffic.lose event.fd
    else
      let (rx, stats) := consumeFrames proto event.stamp cfg.node rx.length traffic.stats rx
      { traffic.setConn event.fd { c with rx } with stats }

def drainLoop (proto : Proto) (cfg : Config) (deadline : Int) : List Turn → Traffic → Traffic
  | [], traffic => traffic
  | turn :: turns, traffic =>
      if turn.stop ∨ deadline ≤ turn.now then traffic
      else match turn.poll with
        | .interrupted => drainLoop proto cfg deadline turns traffic
        | .failed => traffic
        | .ready events =>
            drainLoop proto cfg deadline turns (events.foldl (drainService proto cfg) traffic)

/-- What `main` hands to `run_traffic`: the connections of the connect phase and
fresh counters. -/
def begin (conns : List Conn) (live : List Nat) (epoll : Nat → Option Interest) : Traffic :=
  ⟨conns, live, epoll, [], {}, 0, 0, 0, [], []⟩

def run (proto : Proto) (cfg : Config) (script : Script) (traffic : Traffic) : Traffic :=
  if cfg.rate ≤ 0 ∨ cfg.duration ≤ 0 ∨ traffic.live = [] then traffic
  else
    let traffic := traffic.mainLoop proto cfg script.start script.turns
    traffic.drainLoop proto cfg (script.drainFrom + 1000000000) script.drain

end Traffic

end NetEngine.Bench
