import NetEngine.Epoll.ChatDepartures
import NetEngine.Epoll.ChatLedger
import NetEngine.Epoll.ChatLife
import NetEngine.Epoll.ChatReap
import NetEngine.Epoll.ChatSettled
import NetEngine.Epoll.ServerProperties
import NetEngine.Epoll.ServerSdsProperties

/-! What holds of `server.cpp` and of `server_sds.cpp` because it holds of every
run of the event loop. -/

set_option autoImplicit false

namespace NetEngine.Epoll

/-! ## Wake-ups -/

/-- Whenever the loop is about to wait, `EPOLLOUT` is armed for exactly the queues with
bytes, and no flush is owed. -/
structure Watched {ρ : Type} (state : State ρ) : Prop where
  armed : ∀ fd client, state.clients fd = some client → client.closing = false →
    (client.armed = true ↔ client.pending ≠ [])
  clean : ∀ fd client, state.clients fd = some client → client.dirty = false
  dirty : state.dirty = []

theorem Runs.watched {ρ : Type} {rules : Rules ρ} {batches : List Batch} {state : State ρ}
    (succeeds : ∀ done, rules.modifies done → done = true)
    (runs : Runs rules batches State.init state) : Watched state := by
  have rested : Rested wakeups rules state := runs.rested (wakeups_fair succeeds) .init
  refine ⟨fun fd client found opened => ?_, rested.clean, rested.dirty⟩
  constructor
  · intro armed empty
    obtain ⟨same, sameFound, disarmed⟩ := rested.kept.calm fd client found opened empty
    rw [found, Option.some.injEq] at sameFound
    rw [← sameFound, armed] at disarmed
    cases disarmed
  · intro waiting
    obtain ⟨same, sameFound, armed⟩ := rested.kept.busy fd client found opened
      (rested.clean fd client found) List.not_mem_nil waiting
    rw [found, Option.some.injEq] at sameFound
    exact sameFound ▸ armed

/-- The same for the connections of `server.cpp`. -/
def Server.World.Watched (w : Server.World) : Prop :=
  w.dirty = [] ∧ ∀ fd c, w.conns fd = some c → c.closing = false →
    c.dirty = false ∧ (c.out ≠ [] → c.armedWrite = true) ∧ (c.out = [] → c.armedWrite = false)

/-- The same for the slots of `server_sds.cpp`. -/
def ServerSds.World.Watched (w : ServerSds.World) : Prop :=
  w.dirty = [] ∧ ∀ fd c, w.conns fd = some c → c.closing = false →
    c.dirty = false ∧ (c.txHead < c.txTail → c.armedWrite = true) ∧
      (c.txHead = c.txTail → c.armedWrite = false)

/-- No wake-up is lost, in either server, in any mode. -/
theorem no_lost_wakeup (k : Kernel) (succeeds : ∀ clock, k.modify clock = true)
    (batches : List Batch) :
    (∀ cfg : Server.Config, (Server.World.run k cfg batches).Watched) ∧
      ∀ cfg : ServerSds.Config, (ServerSds.World.run k cfg batches).Watched := by
  constructor
  · intro cfg
    have modifies : ∀ done, (Server.rules k cfg).modifies done → done = true := by
      rintro done ⟨clock, rfl⟩
      exact succeeds clock
    have watched : Epoll.Watched (Server.World.run k cfg batches).state :=
      (Server.World.run_runs k cfg batches).watched modifies
    refine ⟨watched.dirty, fun fd c found opened => ?_⟩
    have client : (Server.World.run k cfg batches).state.clients fd = some c.client := by
      simp [found]
    have armed := watched.armed fd _ client opened
    refine ⟨watched.clean fd _ client, armed.mpr, fun empty => ?_⟩
    exact Bool.eq_false_iff.mpr fun on => armed.mp on empty
  · intro cfg
    obtain ⟨runs, sound⟩ := ServerSds.World.run_sound k cfg batches
    have modifies : ∀ done, (ServerSds.rules k cfg).modifies done → done = true := by
      rintro done ⟨clock, rfl⟩
      exact succeeds clock
    have watched : Epoll.Watched (ServerSds.World.run k cfg batches).state := runs.watched modifies
    refine ⟨watched.dirty, fun fd c found opened => ?_⟩
    have client : (ServerSds.World.run k cfg batches).state.clients fd =
        some (c.client (ServerSds.World.run k cfg batches).rooms) := by
      simp [found]
    have armed := watched.armed fd _ client opened
    have waiting : (c.client (ServerSds.World.run k cfg batches).rooms).pending ≠ [] ↔
        c.txHead < c.txTail := ServerSds.Conn.out_nonempty (sound.queues fd c found)
    refine ⟨watched.clean fd _ client, fun some => armed.mpr (waiting.mpr some), fun empty => ?_⟩
    refine Bool.eq_false_iff.mpr fun on => ?_
    exact Nat.lt_irrefl _ (empty ▸ waiting.mp (armed.mp on))

/-- Two members of a room that read nothing: what waits for the first of them is watched. -/
theorem no_lost_wakeup_talk :
    ((Server.World.run Server.World.drip ⟨true, false, 2⟩ [Server.World.talkBatch]).Watched ∧
      (ServerSds.World.run Server.World.drip ⟨true, false, 2, by decide⟩
        [Server.World.talkBatch]).Watched) ∧
      ((Server.World.run Server.World.drip ⟨true, false, 2⟩ [Server.World.talkBatch]).conns 5).map
        (fun c => (c.out.length, c.armedWrite)) = some (35, true) := by
  obtain ⟨stl, sds⟩ := no_lost_wakeup Server.World.drip (fun _ => rfl) [Server.World.talkBatch]
  exact ⟨⟨stl ⟨true, false, 2⟩, sds ⟨true, false, 2, by decide⟩⟩, by decide⟩

/-! ## Deferred closing -/

/-- What a trace shows of it: nothing is doomed or closed twice or touched after its
close, and each departure is told to the rest of the room. -/
structure ClosedOnce {ρ : Type} (trace : List (Obs ρ)) : Prop where
  lawful : Lawful trace
  departures : DeparturesTold trace
  closes : ClosesTold trace

theorem Runs.closedOnce {ρ : Type} {rules : Rules ρ} {batches : List Batch} {batch : Batch}
    {state after : State ρ} (runs : Runs rules batches State.init state)
    (iterates : Iterates rules batch state after) : ClosedOnce after.trace := by
  have lives : Lives state := runs.lives .init
  have woken : Lives (state.emit .wake) := fun fd => by
    rw [State.emit_trace, life_snoc]
    exact lives fd
  have farewells : Farewells state := runs.farewells .init
  have left : Farewells after := (farewells_preserves rules).iterates iterates
    ⟨farewells.departures.aside trivial, farewells.short⟩
  exact ⟨((lives_preserves rules).iterates iterates woken).lawful, left.departures.told,
    left.departures.closed⟩

theorem Drains.continues {ρ : Type} {rules : Rules ρ} {events : List Event} {fd : Fd}
    {state after : State ρ} (drains : Drains rules events (state.emit .wake) after)
    (live : state.Live fd) : Continues fd state.trace after :=
  (continues_events rules fd state.trace).drains drains
    ((Continues.refl live).emit ⟨by simp, by simp⟩)

/-- The point of an iteration at which `reap_doomed` is called. -/
def Server.World.beforeReap (k : Kernel) (cfg : Server.Config) (w : Server.World) (batch : Batch) :
    Server.World :=
  let drained := batch.events.foldl (handleEvent k cfg) (w.emit .wake)
  let ticked := if cfg.coalesce ∧ batch.tickDue then drained.flushTickRooms k cfg else drained
  if cfg.batchFlush then ticked.flushDirty k else ticked

def ServerSds.World.beforeReap (k : Kernel) (cfg : ServerSds.Config) (w : ServerSds.World)
    (batch : Batch) : ServerSds.World :=
  let drained := batch.events.foldl (handleEvent k cfg) (w.emit .wake)
  if cfg.batchFlush then drained.flushDirty k else drained

/-- One iteration from `w`: the reap ends, whatever it dooms itself, with nothing left
over; each event meets the connection that was ready when the batch was returned. -/
structure Server.World.ReapsSafely (k : Kernel) (cfg : Server.Config) (w : Server.World)
    (batch : Batch) : Prop where
  ends : ∀ more,
    reapLoop k cfg ((w.beforeReap k cfg batch).doomed.length + (w.beforeReap k cfg batch).size + 1 +
      more) 0 (w.beforeReap k cfg batch) = (w.beforeReap k cfg batch).reapDoomed k cfg
  emptied : ((w.beforeReap k cfg batch).reapDoomed k cfg).doomed = []
  closed : ClosedOnce (w.iterate k cfg batch).trace
  stale : ∀ early what late, batch.events = early ++ .ready what :: late →
    w.state.Live what.fd →
    Continues what.fd w.trace (early.foldl (handleEvent k cfg) (w.emit .wake)).state

structure ServerSds.World.ReapsSafely (k : Kernel) (cfg : ServerSds.Config) (w : ServerSds.World)
    (batch : Batch) : Prop where
  ends : ∀ more,
    reapLoop k cfg ((w.beforeReap k cfg batch).doomed.length +
      (w.beforeReap k cfg batch).totalLive + 1 + more) 0 (w.beforeReap k cfg batch) =
        (w.beforeReap k cfg batch).reapDoomed k cfg
  emptied : ((w.beforeReap k cfg batch).reapDoomed k cfg).doomed = []
  closed : ClosedOnce (w.iterate k cfg batch).trace
  stale : ∀ early what late, batch.events = early ++ .ready what :: late →
    w.state.Live what.fd →
    Continues what.fd w.trace (early.foldl (handleEvent k cfg) (w.emit .wake)).state

theorem Server.World.beforeReap_sound {k : Kernel} {cfg : Server.Config} {w : Server.World}
    (batch : Batch) (sound : Sound w) : Sound (w.beforeReap k cfg batch) := by
  obtain ⟨_, drained⟩ := @drain_drains k cfg (w.emit .wake) batch.events (sound.emit _)
  have ticked : Sound (if cfg.coalesce ∧ batch.tickDue then
      (batch.events.foldl (handleEvent k cfg) (w.emit .wake)).flushTickRooms k cfg
      else batch.events.foldl (handleEvent k cfg) (w.emit .wake)) := by
    split
    · obtain ⟨ticks, rooms⟩ := @flushTickRooms_ticks k cfg
        (batch.events.foldl (handleEvent k cfg) (w.emit .wake))
      exact drained.of_sends rooms (ticks.sends trivial)
    · exact drained
  unfold beforeReap
  simp only
  split
  · exact (@flushDirty_flushes k cfg _ ticked).2
  · exact ticked

theorem ServerSds.World.beforeReap_sound {k : Kernel} {cfg : ServerSds.Config}
    {w : ServerSds.World} (batch : Batch) (sound : Sound cfg w) (short : w.state.Short) :
    Sound cfg (w.beforeReap k cfg batch) := by
  obtain ⟨_, drained, _⟩ := @drain_drains k cfg (w.emit .wake) batch.events
    (emit_sound sound _) short
  unfold beforeReap
  simp only
  split
  · exact (@flushDirty_flushes k cfg _ drained).2
  · exact drained

/-- Deferred closing is safe under cascades, in either server, in any mode. -/
theorem deferred_reaping_safe (k : Kernel) (batches : List Batch) (batch : Batch) :
    (∀ cfg : Server.Config, (Server.World.run k cfg batches).ReapsSafely k cfg batch) ∧
      ∀ cfg : ServerSds.Config, (ServerSds.World.run k cfg batches).ReapsSafely k cfg batch := by
  constructor
  · intro cfg
    obtain ⟨runs, sound⟩ := @Server.World.runFrom_runs k cfg Server.World.init batches .init
    change Runs _ _ _ (Server.World.run k cfg batches).state at runs
    change Server.World.Sound (Server.World.run k cfg batches) at sound
    obtain ⟨reap, _, ends⟩ := @Server.World.reapDoomed_reaps k cfg _
      (@Server.World.beforeReap_sound k cfg _ batch sound)
    obtain ⟨iterates, _⟩ := @Server.World.iterate_iterates k cfg _ batch sound
    refine ⟨ends, reap.empties, runs.closedOnce iterates, ?_⟩
    intro early what late _ live
    exact (Server.World.drain_drains early (sound.emit .wake)).1.continues live
  · intro cfg
    obtain ⟨runs, sound⟩ := ServerSds.World.run_sound k cfg batches
    have short : (ServerSds.World.run k cfg batches).state.Short := runs.keepsShort State.init_short
    obtain ⟨reap, _, ends⟩ := @ServerSds.World.reapDoomed_reaps k cfg _
      (@ServerSds.World.beforeReap_sound k cfg _ batch sound short)
    obtain ⟨iterates, _⟩ := @ServerSds.World.iterate_iterates k cfg _ batch sound short
    refine ⟨ends, reap.empties, runs.closedOnce iterates, ?_⟩
    intro early what late _ live
    exact (ServerSds.World.drain_drains early (ServerSds.World.emit_sound sound .wake)
      short).1.continues live

/-! ## Inbound framing -/

/-- However a stream was cut when it was received, its packets are its frames. -/
structure FramesParsed {ρ : Type} (state : State ρ) : Prop where
  framed : Framed state.trace
  parsed : ∀ fd, (inbound fd state.trace).Parsed
  serving : ∀ fd client, state.clients fd = some client → client.closing = false →
    (inbound fd state.trace).handed = (inbound fd state.trace).parse.frames ∧
      (inbound fd state.trace).parse.oversize = false ∧
      client.input = (inbound fd state.trace).parse.rest ∧ client.input.length < maxFrame

theorem Runs.framesParsed {ρ : Type} {rules : Rules ρ} {batches : List Batch} {state : State ρ}
    (runs : Runs rules batches State.init state) : FramesParsed state := by
  have ledger := runs.ledger
  refine ⟨ledger.framed, fun fd => (ledger.each fd).parsed, fun fd client found opened => ?_⟩
  obtain ⟨consumed, next, _, _⟩ := (ledger.each fd).serving client found opened
  have whole : (inbound fd state.trace).parse =
      ⟨(inbound fd state.trace).handed, client.input, false⟩ := consumed.parse_of_more next
  rw [whole]
  exact ⟨rfl, rfl, rfl, Framing.next_more_short next⟩

/-- Where a frame can be read in place, the scratch would hold the same bytes. -/
def ServerSds.World.PathsAgree (w : ServerSds.World) : Prop :=
  ∀ fd c frame, w.conns fd = some c → frame ≤ c.input.usedSize →
    frame ≤ RingBuffer.directDequeueSize rxRing c.input.dequeue c.input.enqueue →
    c.input.direct rxRing frame = (c.input.pop rxRing frame).2

theorem ServerSds.World.Sound.pathsAgree {cfg : ServerSds.Config} {w : ServerSds.World}
    (sound : Sound cfg w) : w.PathsAgree := by
  intro fd c frame found complete contiguous
  have holds := holds_input sound.rings found
  rw [holds.direct contiguous, (holds.pop (holds.usedSize ▸ complete)).1]

/-- Inbound framing does not depend on segmentation, in either server. -/
theorem framing_independent (k : Kernel) (batches : List Batch) :
    (∀ cfg : Server.Config, FramesParsed (Server.World.run k cfg batches).state) ∧
      ∀ cfg : ServerSds.Config, FramesParsed (ServerSds.World.run k cfg batches).state ∧
        (ServerSds.World.run k cfg batches).PathsAgree ∧
        ∀ w : ServerSds.World, w.Sound cfg → w.PathsAgree := by
  refine ⟨fun cfg => (Server.World.run_runs k cfg batches).framesParsed, fun cfg => ?_⟩
  obtain ⟨runs, sound⟩ := ServerSds.World.run_sound k cfg batches
  exact ⟨runs.framesParsed, sound.pathsAgree, fun w sound => sound.pathsAgree⟩

/-- A packet whose last byte has not come. -/
def shortBatch : Batch where
  events := [.accept [.arrived 5 true],
    .ready ⟨5, false, false, true, [.data (Framing.encode cChat (ascii "hi") |>.take 5)]⟩]
  tickDue := false

/-- Both servers hold its first five bytes, and the ring shows them the same on both paths. -/
theorem framing_independent_short :
    (FramesParsed (Server.World.run Server.World.eager ⟨true, false, 1⟩ [shortBatch]).state ∧
      FramesParsed (ServerSds.World.run Server.World.eager ⟨true, false, 1, by decide⟩
        [shortBatch]).state ∧
      (ServerSds.World.run Server.World.eager ⟨true, false, 1, by decide⟩
        [shortBatch]).PathsAgree) ∧
      ((ServerSds.World.run Server.World.eager ⟨true, false, 1, by decide⟩ [shortBatch]).conns 5).map
        (fun c => c.input.usedSize) = some 5 := by
  obtain ⟨stl, sds⟩ := framing_independent Server.World.eager [shortBatch]
  obtain ⟨parsed, paths, _⟩ := sds ⟨true, false, 1, by decide⟩
  exact ⟨⟨stl _, parsed, paths⟩, by decide⟩

end NetEngine.Epoll
