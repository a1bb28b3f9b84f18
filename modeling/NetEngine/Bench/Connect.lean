import Mathlib.Logic.Function.Basic
import Mathlib.Logic.Relation
import NetEngine.Bench.DumpText
import NetEngine.Bench.Setup
import NetEngine.Library.Inet

/-! The connect phase: `start_connect` of `netutil.cpp` and `run_connect` of
`connect.cpp`, one step for each turn of a loop. What the kernel answers is free,
except that a new descriptor is not one that is open. -/

set_option autoImplicit false

namespace NetEngine.Bench

open Socket

def ECONNRESET : Int := 104

def EINPROGRESS : Int := 115

/-! ## netutil.cpp -/

/-- What the calls of one `start_connect` answer. `stale` is what `errno` holds when
`inet_pton` refuses the text, which does not set it. -/
structure Dial where
  socket : Except Int Nat
  stale : Int
  bind : Except Int Unit
  connect : Except Int Unit

/-- The address that the socket is bound to, if it is bound at all. -/
def bindSource (cfg : Settings) (index : Int) (dial : Dial) : Except Int (Option Inet.Addr) :=
  if cfg.srcIps ≤ 1 then .ok none
  else
    let ip := Epoll.ascii "127.0.0." ++ printInt (cfg.srcIpBase + index.tmod cfg.srcIps)
    match Inet.pton ip with
    | none => .error dial.stale
    | some source =>
        match dial.bind with
        | .error err => .error err
        | .ok () => .ok (some source)

structure Dialled where
  fd : Nat
  source : Option Inet.Addr

def startConnect (cfg : Settings) (index : Int) (dial : Dial) : Except Int Dialled :=
  match dial.socket with
  | .error err => .error err
  | .ok fd =>
      match bindSource cfg index dial with
      | .error err => .error err
      | .ok source =>
          match dial.connect with
          | .ok () => .ok ⟨fd, source⟩
          | .error err => if err = EINPROGRESS then .ok ⟨fd, source⟩ else .error err

theorem startConnect_ok {cfg : Settings} {index : Int} {dial : Dial} {dialled : Dialled}
    (connected : startConnect cfg index dial = .ok dialled) :
    dial.socket = .ok dialled.fd ∧ bindSource cfg index dial = .ok dialled.source := by
  unfold startConnect at connected
  cases socket : dial.socket with
  | error err => simp [socket] at connected
  | ok fd =>
      simp only [socket] at connected
      cases source : bindSource cfg index dial with
      | error err => simp [source] at connected
      | ok bound =>
          simp only [source] at connected
          split at connected
          · cases connected
            exact ⟨rfl, rfl⟩
          · split at connected
            · cases connected
              exact ⟨rfl, rfl⟩
            · cases connected

/-! ## run_connect -/

def idSetNick : UInt16 := 1

def idJoin : UInt16 := 2

def putFrame (proto : Proto) (type : UInt16) (payload : Bytes) : Bytes :=
  putHeader proto type payload.length ++ payload

def roomName (cfg : Settings) (index : Int) : Bytes :=
  tag cfg.node ++ Epoll.ascii "r" ++ printInt (index.tdiv cfg.perRoom)

/-- `++fail_reasons[err]` on a `std::map`. -/
def bump (err : Int) : List (Int × Nat) → List (Int × Nat)
  | [] => [(err, 1)]
  | (key, count) :: rest =>
      if err < key then (err, 1) :: (key, count) :: rest
      else if err = key then (key, count + 1) :: rest
      else (key, count) :: bump err rest

/-- What a descriptor is registered for. -/
structure Armed where
  readable : Bool
  writable : Bool
  deriving DecidableEq

/-- One entry of an `epoll_wait` result, with the answers to the calls that it leads
to. `hangup` is `EPOLLERR` or `EPOLLHUP`; `errno` is what a failed call leaves. -/
structure Event where
  fd : Nat
  readable : Bool
  writable : Bool
  hangup : Bool
  soerr : Int
  sends : List SendAnswer
  recvs : List (RecvAnswer UInt8)
  errno : Int

inductive Exit where
  /-- The condition of the outer loop is false. -/
  | counted
  /-- Nothing to wait for and nothing left to start. -/
  | settled
  /-- `g_stop`. -/
  | stopped
  /-- `epoll_wait` failed. -/
  | broken
  deriving DecidableEq

inductive Point where
  | head
  | fill
  | wait
  | serve (events : List Event)
  | left (how : Exit)

/-- The locals of `run_connect`, and which descriptors the kernel holds open. -/
structure Connect where
  started : Int
  established : Int
  failed : Int
  inflight : Int
  failReasons : List (Int × Nat)
  conns : List Conn
  live : List Nat
  epoll : Nat → Option Armed
  opened : List Nat
  point : Point

namespace Connect

/-- What `main` calls it with. -/
def begin (size : Nat) : Connect :=
  ⟨0, 0, 0, 0, [], List.replicate size {}, [], fun _ => none, [], .head⟩

def conn (state : Connect) (fd : Nat) : Conn := state.conns.getD fd {}

def setConn (state : Connect) (fd : Nat) (c : Conn) : Connect :=
  { state with conns := state.conns.set fd c }

def fail (state : Connect) (err : Int) : Connect :=
  { state with failed := state.failed + 1, failReasons := bump err state.failReasons }

/-- `EPOLL_CTL_DEL`, `c = conn{}` and `close`. -/
def drop (state : Connect) (fd : Nat) : Connect :=
  { state.setConn fd {} with
    epoll := Function.update state.epoll fd none
    opened := state.opened.erase fd }

/-- `EPOLL_CTL_MOD`. -/
def rearm (state : Connect) (fd : Nat) (armed : Armed) : Connect :=
  { state with epoll := Function.update state.epoll fd ((state.epoll fd).map fun _ => armed) }

/-- `conns.resize` when the descriptor is past the end. -/
def grow (state : Connect) (fd : Nat) : Connect :=
  if state.conns.length ≤ fd then
    { state with
      conns := state.conns ++ List.replicate (fd + 1024 - state.conns.length) {} }
  else state

/-- One turn of the inner loop; `added` is how `EPOLL_CTL_ADD` ended. -/
def start (cfg : Settings) (dial : Dial) (added : Except Int Unit) (state : Connect) : Connect :=
  match startConnect cfg state.started dial with
  | .error err =>
      let state := state.fail err
      { state with started := state.started + 1 }
  | .ok dialled =>
      let fd := dialled.fd
      let state := { state with opened := fd :: state.opened }.grow fd
      let state := state.setConn fd
        { state.conn fd with state := .connecting, index := state.started }
      match added with
      | .error err =>
          let state := (state.fail err).drop fd
          { state with started := state.started + 1 }
      | .ok () =>
          { state with
            epoll := Function.update state.epoll fd (some ⟨false, true⟩)
            inflight := state.inflight + 1
            started := state.started + 1 }

/-- A connect that has resolved. -/
def resolve (proto : Proto) (cfg : Settings) (event : Event) (state : Connect) : Connect :=
  let fd := event.fd
  if event.soerr ≠ 0 ∨ event.hangup then
    let state := state.fail (if event.soerr ≠ 0 then event.soerr else ECONNRESET)
    { state with inflight := state.inflight - 1 }.drop fd
  else
    let c := state.conn fd
    let pending := c.pending ++ putFrame proto idSetNick (nickOf cfg.node c.index) ++
      putFrame proto idJoin (roomName cfg c.index)
    let state := { state with
      inflight := state.inflight - 1
      established := state.established + 1
      live := state.live ++ [fd] }
    let (pending, usable) := flushPending pending event.sends
    let state := state.setConn fd { c with state := .ready, pending }
    if ¬ usable then
      let state := { state with failed := state.failed + 1, established := state.established - 1 }
      let state := { state with failReasons := bump event.errno state.failReasons }
      { state with live := state.live.dropLast }.drop fd
    else state.rearm fd ⟨true, pending ≠ []⟩

def flush (event : Event) (state : Connect) : Connect × Bool :=
  let c := state.conn event.fd
  let (pending, usable) := flushPending c.pending event.sends
  let state := state.setConn event.fd { c with pending }
  (if usable ∧ pending = [] then state.rearm event.fd ⟨true, false⟩ else state, usable)

/-- `read_available`, and `rx_len = 0` after it. -/
def discard (event : Event) (state : Connect) : Connect × Bool :=
  let c := state.conn event.fd
  let (_, _, usable) := readAvailable c.rx 0 event.recvs
  (state.setConn event.fd { c with rx := [] }, usable)

/-- A connection that is established: only its death matters here. -/
def service (event : Event) (state : Connect) : Connect :=
  let (state, alive) := if event.writable then state.flush event else (state, true)
  let (state, alive) := if alive ∧ event.readable then state.discard event else (state, alive)
  if ¬ alive ∨ event.hangup then
    let state := { state with established := state.established - 1 }
    let state := state.fail (if event.errno ≠ 0 then event.errno else ECONNRESET)
    { state with live := state.live.erase event.fd }.drop event.fd
  else state

def handle (proto : Proto) (cfg : Settings) (event : Event) (state : Connect) : Connect :=
  match (state.conn event.fd).state with
  | .connecting => state.resolve proto cfg event
  | .ready => state.service event
  | .none | .dead => state

/-- Past the loop: what the join notices left buffered goes. -/
def leave (how : Exit) (state : Connect) : Connect :=
  { state.live.foldl (fun state fd => state.setConn fd { state.conn fd with rx := [] }) state with
    point := .left how }

end Connect

/-- One step of `run_connect`. -/
inductive Connect.Step (proto : Proto) (cfg : Settings) : Connect → Connect → Prop where
  /-- `g_stop` is read before every turn of the outer loop. -/
  | stopped {state} : state.point = .head → Step proto cfg state (state.leave .stopped)
  | counted {state} : state.point = .head → ¬ state.established + state.failed < cfg.conns →
      Step proto cfg state (state.leave .counted)
  | turn {state} : state.point = .head → state.established + state.failed < cfg.conns →
      Step proto cfg state { state with point := .fill }
  | start {state} (dial : Dial) (added : Except Int Unit) : state.point = .fill →
      state.inflight < cfg.inflight → state.started < cfg.conns →
      (∀ fd, dial.socket = .ok fd → fd ∉ state.opened) →
      Step proto cfg state (state.start cfg dial added)
  | filled {state} : state.point = .fill →
      ¬ (state.inflight < cfg.inflight ∧ state.started < cfg.conns) →
      Step proto cfg state { state with point := .wait }
  | interrupted {state} : state.point = .wait → Step proto cfg state { state with point := .head }
  | broken {state} : state.point = .wait → Step proto cfg state (state.leave .broken)
  | settled {state} : state.point = .wait → state.inflight = 0 → cfg.conns ≤ state.started →
      Step proto cfg state (state.leave .settled)
  | woken {state} (events : List Event) : state.point = .wait →
      ¬ (events = [] ∧ state.inflight = 0 ∧ cfg.conns ≤ state.started) →
      (∀ event ∈ events, (state.epoll event.fd).isSome) →
      Step proto cfg state { state with point := .serve events }
  | event {state event events} : state.point = .serve (event :: events) →
      Step proto cfg state { state.handle proto cfg event with point := .serve events }
  | served {state} : state.point = .serve [] → Step proto cfg state { state with point := .head }

/-- What a call of `run_connect` on a fresh table can come to. -/
def Connect.Reached (proto : Proto) (cfg : Settings) (size : Nat) : Connect → Prop :=
  Relation.ReflTransGen (Connect.Step proto cfg) (.begin size)

end NetEngine.Bench
