import NetEngine.Epoll.Server
import NetEngine.Library.Bitmap

/-! The sessions of the tick: the bitmap and the arena of `tick_logic.h`, and
`server.cpp` with the hooks where it calls them. Spinning is left out: it touches no
session. -/

set_option autoImplicit false

namespace NetEngine.Tick

abbrev Word := BitVec 64

/-- `tick::state`, as far as the sessions go. The arena is read in words, each under
its byte offset. The last two fields are not in the program: the slots that were
touched, and the offset of every access to the arena, eight bytes each. -/
structure Sessions where
  enabled : Bool
  w : Nat
  slots : Nat
  live : List Word
  liveN : Word
  msgs : Word
  arena : Nat → Word
  touched : List Nat
  accesses : List Nat

/-- `(slots + 63) / 64` in `size_t`. -/
def words (slots : Nat) : Nat := (slots + 63) % 2 ^ 64 / 64

/-- The offsets of the lines of a block. -/
def lines (w : Nat) : List Nat := (List.range ((w + 63) / 64)).map (64 * ·)

namespace Sessions

/-- What `init` leaves: an empty bitmap, and a byte set in every page of the arena. -/
def start (slots w : Nat) : Sessions :=
  ⟨true, w, slots, List.replicate (words slots) 0, 0, 0, fun offset => if offset % 4096 = 0 then 1 else 0,
    [], []⟩

/-- `init` with a tick rate, which refuses a block that is not made of lines. -/
def init (maxConns w : Nat) : Option Sessions :=
  if w < 64 ∨ w % 64 ≠ 0 then none else some (start (maxConns + 64) w)

def sessionAdd (s : Sessions) (fd : Int) : Sessions :=
  if s.enabled = false ∨ fd < 0 ∨ s.slots ≤ fd then s
  else
    let slot := fd.toNat
    if s.live.getD (slot / 64) 0 &&& Bitmap.mask 64 (slot % 64) = 0 then
      { s with live := Bitmap.insert s.live slot, liveN := s.liveN + 1 }
    else s

def sessionRemove (s : Sessions) (fd : Int) : Sessions :=
  if s.enabled = false ∨ fd < 0 ∨ s.slots ≤ fd then s
  else
    let slot := fd.toNat
    if s.live.getD (slot / 64) 0 &&& Bitmap.mask 64 (slot % 64) ≠ 0 then
      { s with live := Bitmap.erase s.live slot, liveN := s.liveN - 1 }
    else s

def load (s : Sessions) (offset : Nat) : Sessions := { s with accesses := s.accesses ++ [offset] }

def store (s : Sessions) (offset : Nat) (word : Word) : Sessions :=
  { s with
    arena := Function.update s.arena offset word
    accesses := s.accesses ++ [offset] }

/-- One line of a block: load, fold, store. -/
def touchLine (block : Nat) (walk : Sessions × Word) (offset : Nat) : Sessions × Word :=
  let (s, acc) := walk
  let acc := acc + s.arena (block + offset)
  ((s.load (block + offset)).store (block + offset) (acc ^^^ 0xA5A5A5A5A5A5A5A5#64), acc)

def touchBlock (s : Sessions) (slot : Nat) : Sessions :=
  let block := slot * s.w % 2 ^ 64
  let (walked, acc) := (lines s.w).foldl (touchLine block) (s.load block, s.arena block)
  { walked.store block acc with touched := s.touched ++ [slot] }

def onMsg (s : Sessions) (fd : Int) : Sessions :=
  if s.enabled = false ∨ fd < 0 ∨ s.slots ≤ fd then s
  else { s with msgs := s.msgs + 1 }.touchBlock fd.toNat

/-- The loop over the bits of one word; the first argument bounds them. -/
def sweep (wi : Nat) : Nat → Word → Sessions → Sessions
  | 0, _, s => s
  | fuel + 1, bits, s =>
      if bits = 0 then s
      else sweep wi fuel (Bitmap.dropLowest bits) (s.touchBlock (wi * 64 + bits.ctz.toNat))

def runTick (s : Sessions) : Sessions :=
  (List.range (words s.slots)).foldl (fun s wi => sweep wi 64 (s.live.getD wi 0) s) s

end Sessions

/-- The hooks of a server. -/
inductive Hook where
  | add (fd : Int)
  | remove (fd : Int)
  | msg (fd : Int)
  | tick

namespace Sessions

def call (s : Sessions) : Hook → Sessions
  | .add fd => s.sessionAdd fd
  | .remove fd => s.sessionRemove fd
  | .msg fd => s.onMsg fd
  | .tick => s.runTick

def run (slots w : Nat) (hooks : List Hook) : Sessions := hooks.foldl call (start slots w)

end Sessions

end NetEngine.Tick

namespace NetEngine.Epoll.Server

open Tick (Sessions)

/-- `server.cpp` with a tick. The last field is not in the program: for every tick,
the server as the tick found it and the slots that were touched. -/
structure Ticking where
  world : World
  sessions : Sessions
  walks : List (World × List Nat)

namespace Ticking

def start (slots w : Nat) : Ticking := ⟨.init, .start slots w, []⟩

def onAccept (cfg : Config) : List AcceptAnswer → Ticking → Ticking
  | [], t => t
  | .arrived fd added :: answers, t =>
      if (t.world.conns fd).isSome then onAccept cfg answers t
      else if cfg.maxConns ≤ t.world.size then
        onAccept cfg answers { t with world := t.world.emit (.refused fd) }
      else if added = false then
        onAccept cfg answers { t with world := t.world.emit (.refused fd) }
      else
        onAccept cfg answers
          { t with world := t.world.emplace fd, sessions := t.sessions.sessionAdd fd }
  | .interrupted :: answers, t | .aborted :: answers, t => onAccept cfg answers t
  | .outOfFds :: _, t | .failed :: _, t | .wouldBlock :: _, t => t

/-- `on_msg` for a chat frame from a room. -/
def hear (sessions : Sessions) : Obs Bytes → Sessions
  | .packet clients fd type _ =>
      if type = cChat ∧ ((clients fd).bind Client.room).isSome then sessions.onMsg fd else sessions
  | _ => sessions

/-- A ready connection: the server serves it, and the tick hears the frames it sent. -/
def handleReady (k : Kernel) (cfg : Config) (t : Ticking) (what : Ready) : Ticking :=
  let world := t.world.handleReady k cfg what
  { t with world, sessions := (world.trace.drop t.world.trace.length).foldl hear t.sessions }

def handleEvent (k : Kernel) (cfg : Config) (t : Ticking) : Event → Ticking
  | .accept answers => onAccept cfg answers t
  | .signal => { t with world := { t.world with running := false } }
  | .ready what => t.handleReady k cfg what

def reapLoop (k : Kernel) (cfg : Config) : Nat → Nat → Ticking → Ticking
  | 0, _, t => t
  | fuel + 1, index, t =>
      match t.world.doomed[index]? with
      | none => { t with world := { t.world with doomed := [] } }
      | some fd =>
          match t.world.conns fd with
          | none => reapLoop k cfg fuel (index + 1) t
          | some c =>
              reapLoop k cfg fuel (index + 1)
                { t with
                  world := ((t.world.emit (.departs t.world.clients fd)).depart k cfg fd c).close fd
                  sessions := t.sessions.sessionRemove fd }

def reapDoomed (k : Kernel) (cfg : Config) (t : Ticking) : Ticking :=
  reapLoop k cfg (t.world.doomed.length + t.world.size + 1) 0 t

def flushDirty (k : Kernel) (t : Ticking) : Ticking := { t with world := t.world.flushDirty k }

def tail (k : Kernel) (cfg : Config) (t : Ticking) : Ticking :=
  if cfg.batchFlush then ((t.flushDirty k).reapDoomed k cfg).flushDirty k else t.reapDoomed k cfg

/-- A tick that is due: `run_tick`, and the callback that delivers the tick frames. -/
def tick (k : Kernel) (cfg : Config) (t : Ticking) : Ticking where
  world := if cfg.coalesce then t.world.flushTickRooms k cfg else t.world
  sessions := t.sessions.runTick
  walks := t.walks ++ [(t.world, t.sessions.runTick.touched.drop t.sessions.touched.length)]

def iterate (k : Kernel) (cfg : Config) (t : Ticking) (batch : Batch) : Ticking :=
  let drained := batch.events.foldl (handleEvent k cfg) { t with world := t.world.emit .wake }
  let ticked := if batch.tickDue then drained.tick k cfg else drained
  ticked.tail k cfg

def run (k : Kernel) (cfg : Config) (slots w : Nat) (batches : List Batch) : Ticking :=
  batches.foldl (fun t batch => if t.world.running then t.iterate k cfg batch else t) (start slots w)

end Ticking

end NetEngine.Epoll.Server
