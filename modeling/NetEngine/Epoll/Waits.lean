import NetEngine.Epoll.BothServers

/-! What the two servers leave behind when they wait. The flush pass after the reap can
doom a connection itself, and then nothing reaps before the wait. -/

set_option autoImplicit false

namespace NetEngine.Epoll

open Socket Machine

variable {ρ : Type}

/-! ## The doomed list behind a flush -/

namespace State

variable {state : State ρ} {fd : Fd}

theorem updateEpollMask_doomed {done : Bool} :
    (state.updateEpollMask done fd).doomed = state.doomed := by
  cases found : state.clients fd with
  | none => rw [updateEpollMask, found]
  | some client =>
      rcases updateEpollMask_cases done found with ⟨_, same⟩ | ⟨_, same⟩
      · rw [same]
      · rw [same]
        cases done <;> rfl

/-- A flush dooms exactly when its send loop meets a hard error. -/
theorem flushSend_doomed {client : Client ρ} {answers : List SendAnswer} {done : Bool}
    (found : state.clients fd = some client) (opened : client.closing = false) :
    (breaks client.pending.length answers = true →
        (state.flushSend answers done fd).doomed = state.doomed ++ [fd]) ∧
      (¬ breaks client.pending.length answers = true →
        (state.flushSend answers done fd).doomed = state.doomed) := by
  rcases flushSend_cases answers done found with ⟨empty, same⟩ | ⟨_, broken, same⟩ | ⟨_, whole, same⟩
  · have never : ¬ breaks client.pending.length answers = true := by simp [empty, breaks]
    rw [same]
    exact ⟨fun broken => absurd broken never, fun _ => updateEpollMask_doomed⟩
  · have breaks := (sendLoop_broken_iff client.pending answers).mp broken
    have left : (state.sent fd (sendLoop client.pending answers)).clients fd =
        some { client with pending := (sendLoop client.pending answers).rest } := by
      simp [sent, found]
    rw [same, doom_open left opened]
    exact ⟨fun _ => rfl, fun never => absurd breaks never⟩
  · rw [same]
    exact ⟨fun broken => absurd ((sendLoop_broken_iff client.pending answers).mpr broken) whole,
      fun _ => updateEpollMask_doomed⟩

end State

/-- A send to this open connection would meet a hard error. -/
def State.SendFails (answers : List SendAnswer) (state : State ρ) (fd : Fd) : Prop :=
  ∃ client, state.clients fd = some client ∧ client.closing = false ∧
    breaks client.pending.length answers = true

/-- One step of the flush pass, as it lists who it dooms. -/
theorem State.flush_doomed {state after : State ρ} {fd : Fd} {answers : List SendAnswer}
    (shut : ¬ state.Open fd → after = state.clean fd)
    (opened : state.Open fd → ∃ done, after = (state.clean fd).flushSend answers done fd) :
    (state.SendFails answers fd → after.doomed = state.doomed ++ [fd]) ∧
      (¬ state.SendFails answers fd → after.doomed = state.doomed) := by
  by_cases serving : state.Open fd
  · obtain ⟨done, same⟩ := opened serving
    obtain ⟨client, found, closing⟩ := serving
    have cleaned : (state.clean fd).clients fd = some { client with dirty := false } := by
      simp [clean, found]
    obtain ⟨fails, succeeds⟩ := @flushSend_doomed ρ _ fd _ answers done cleaned closing
    rw [same]
    refine ⟨?_, fun fine => succeeds fun breaks => fine ⟨client, found, closing, breaks⟩⟩
    rintro ⟨other, otherFound, _, breaks⟩
    obtain rfl : client = other := Option.some.inj (found.symm.trans otherFound)
    exact fails breaks
  · rw [shut serving]
    refine ⟨fun breaks => absurd ?_ serving, fun _ => rfl⟩
    obtain ⟨client, found, closing, _⟩ := breaks
    exact ⟨client, found, closing⟩

/-! ## Closed in the same iteration -/

theorem Phase.note_keeps {fd : Fd} {obs : Obs ρ} {phase : Phase} (other : obs ≠ .closed fd)
    (lawful : Phase.note fd (some .doomed) obs = some phase) : phase = .doomed := by
  cases obs with
  | wake => exact (Option.some.inj lawful).symm
  | _ =>
      simp only [Phase.note] at lawful
      split at lawful
      next own =>
        subst own
        first
        | exact absurd rfl other
        | exact (Option.some.inj lawful).symm
        | cases lawful
      · exact (Option.some.inj lawful).symm

/-- Whoever is doomed and is not at the end has been closed since. -/
theorem closed_since {fd : Fd} {early late : List (Obs ρ)} {phase : Phase}
    (told : life fd (early ++ .doomed fd :: late) = some phase) (ended : phase ≠ .doomed) :
    .closed fd ∈ late := by
  by_contra open_still
  refine ended ?_
  clear ended
  induction late using List.reverseRecOn generalizing phase with
  | nil =>
      rw [life_snoc] at told
      cases before : life fd early with
      | none =>
          rw [before] at told
          simp [Phase.note] at told
      | some first =>
          rw [before] at told
          cases first <;> simp [Phase.note, Phase.step] at told
          exact told.symm
  | append_singleton late last ih =>
      have calm : ¬ Obs.closed fd ∈ late := fun among => open_still (List.mem_append_left _ among)
      have other : last ≠ .closed fd := by
        rintro rfl
        exact open_still (List.mem_append_right _ (List.mem_singleton.mpr rfl))
      rw [← List.cons_append, ← List.append_assoc, life_snoc] at told
      cases before : life fd (early ++ .doomed fd :: late) with
      | none =>
          rw [before] at told
          cases last <;> simp [Phase.note] at told
      | some first =>
          obtain rfl := ih before calm
          rw [before] at told
          exact Phase.note_keeps other told

/-- How an iteration that began with the trace `start` should leave things: whoever was
doomed in it is closed, with the departure told, and nobody else is marked. -/
structure SettledSince (start : List (Obs ρ)) (state : State ρ) : Prop extends Settled state where
  closed : ∀ early fd late, state.trace = start ++ early ++ .doomed fd :: late → .closed fd ∈ late
  told : ClosesTold state.trace

theorem settledSince_iff {start : List (Obs ρ)} {state : State ρ} (marked : Marked 0 state)
    (lives : Lives state) (told : ClosesTold state.trace) :
    SettledSince start state ↔ state.doomed = [] := by
  refine ⟨fun settled => settled.doomed, fun empty => ?_⟩
  have none : ∀ fd, ¬ state.Shut fd := fun fd shut => by
    have listed := (marked.shut fd).mp shut
    rw [empty] at listed
    cases listed
  refine ⟨⟨empty, none⟩, fun early fd late same => ?_, told⟩
  have life := lives fd
  rw [same] at life
  refine closed_since life fun doomed => none fd ?_
  unfold State.phase at doomed
  split at doomed
  · cases doomed
  next client found =>
    refine ⟨client, found, ?_⟩
    by_contra serving
    rw [if_neg serving] at doomed
    cases doomed

theorem Runs.settledSince_iff {rules : Rules ρ} {batches : List Batch} {batch : Batch}
    {state after : State ρ} {start : List (Obs ρ)} (runs : Runs rules batches State.init state)
    (iterates : Iterates rules batch state after) :
    SettledSince start after ↔ after.doomed = [] := by
  have marked := (iterates.marked (runs.marked .init)).1
  have lives : Lives after := by
    refine (lives_preserves rules).iterates iterates fun fd => ?_
    rw [State.emit_trace, life_snoc]
    exact runs.lives .init fd
  exact Epoll.settledSince_iff marked lives (runs.closedOnce iterates).closes

/-! ## The two servers -/

/-- No send of the flush pass after the reap fails. -/
def Server.World.TailCalm (k : Kernel) (cfg : Server.Config) (w : World) (batch : Batch) : Prop :=
  cfg.batchFlush = true →
    Calm (flushDirtyOne k) (fun w fd => w.state.SendFails (k.send w.clock) fd)
      ((w.beforeReap k cfg batch).reapDoomed k cfg).dirty
      ((w.beforeReap k cfg batch).reapDoomed k cfg)

def ServerSds.World.TailCalm (k : Kernel) (cfg : ServerSds.Config) (w : World) (batch : Batch) :
    Prop :=
  cfg.batchFlush = true →
    Calm (flushDirtyOne k) (fun w fd => w.state.SendFails (k.send w.clock) fd)
      ((w.beforeReap k cfg batch).reapDoomed k cfg).dirty
      ((w.beforeReap k cfg batch).reapDoomed k cfg)

theorem Server.World.iterate_doomed_iff {k : Kernel} {cfg : Server.Config} {w : World}
    (batch : Batch) (sound : Sound w) :
    (w.iterate k cfg batch).doomed = [] ↔ w.TailCalm k cfg batch := by
  obtain ⟨reap, _⟩ := @reapDoomed_reaps k cfg _ (@beforeReap_sound k cfg w batch sound)
  have empty : ((w.beforeReap k cfg batch).reapDoomed k cfg).doomed = [] := reap.empties
  cases mode : cfg.batchFlush with
  | false =>
      have same : w.iterate k cfg batch = (w.beforeReap k cfg batch).reapDoomed k cfg := by
        simp [iterate, tail, beforeReap, mode]
      rw [same]
      exact iff_of_true empty fun wrong => absurd (mode.symm.trans wrong) Bool.false_ne_true
  | true =>
      have same : w.iterate k cfg batch =
          ((w.beforeReap k cfg batch).reapDoomed k cfg).flushDirty k := by
        simp [iterate, tail, beforeReap, mode]
      have flush (w : World) (fd : Fd) := @State.flush_doomed _ w.state (flushDirtyOne k w fd).state
        fd (k.send w.clock) state_flushDirtyOne_shut fun opened =>
          (@state_flushDirtyOne_open k w fd cfg opened).imp fun _ open_ => open_.2
      have calm := @run_log_iff World Fd (flushDirtyOne k)
        (fun w fd => w.state.SendFails (k.send w.clock) fd) (fun _ => True) (·.doomed)
        (fun _ _ _ => trivial) (fun w fd _ => (flush w fd).1) (fun w fd _ => (flush w fd).2)
        ((w.beforeReap k cfg batch).reapDoomed k cfg) trivial
        ((w.beforeReap k cfg batch).reapDoomed k cfg).dirty
      rw [same, TailCalm, ← calm, empty]
      exact ⟨fun cleared _ => cleared, fun cleared => cleared mode⟩

theorem ServerSds.World.iterate_doomed_iff {k : Kernel} {cfg : ServerSds.Config} {w : World}
    (batch : Batch) (sound : Sound cfg w) (short : w.state.Short) :
    (w.iterate k cfg batch).doomed = [] ↔ w.TailCalm k cfg batch := by
  obtain ⟨reap, reaped, _⟩ := @reapDoomed_reaps k cfg _ (@beforeReap_sound k cfg w batch sound short)
  have empty : ((w.beforeReap k cfg batch).reapDoomed k cfg).doomed = [] := reap.empties
  cases mode : cfg.batchFlush with
  | false =>
      have same : w.iterate k cfg batch = (w.beforeReap k cfg batch).reapDoomed k cfg := by
        simp [iterate, tail, beforeReap, mode]
      rw [same]
      exact iff_of_true empty fun wrong => absurd (mode.symm.trans wrong) Bool.false_ne_true
  | true =>
      have same : w.iterate k cfg batch =
          ((w.beforeReap k cfg batch).reapDoomed k cfg).flushDirty k := by
        simp [iterate, tail, beforeReap, mode]
      have flush (w : World) (fd : Fd) (queues : Queues w) := @State.flush_doomed _ w.state
        (flushDirtyOne k w fd).state fd (k.send w.clock) state_flushDirtyOne_shut fun opened =>
          (@state_flushDirtyOne_open k w fd cfg queues opened).imp fun _ open_ => open_.2
      have calm := @run_log_iff World Fd (flushDirtyOne k)
        (fun w fd => w.state.SendFails (k.send w.clock) fd) Queues (·.doomed)
        (fun _ _ queues => flushDirtyOne_sends.queues queues)
        (fun w fd queues => (flush w fd queues).1) (fun w fd queues => (flush w fd queues).2)
        ((w.beforeReap k cfg batch).reapDoomed k cfg) reaped.queues
        ((w.beforeReap k cfg batch).reapDoomed k cfg).dirty
      rw [same, TailCalm, ← calm, empty]
      exact ⟨fun cleared _ => cleared, fun cleared => cleared mode⟩

theorem Server.World.state_doomed (w : World) : w.state.doomed = w.doomed := rfl

theorem ServerSds.World.state_doomed (w : World) : w.state.doomed = w.doomed := rfl

theorem Server.World.run_snoc (k : Kernel) (cfg : Server.Config) {early : List Batch}
    (running : (run k cfg early).running = true) (batch : Batch) :
    run k cfg (early ++ [batch]) = (run k cfg early).iterate k cfg batch := by
  rw [run, List.foldl_append, List.foldl_cons, List.foldl_nil]
  exact if_pos running

theorem ServerSds.World.run_snoc (k : Kernel) (cfg : ServerSds.Config) {early : List Batch}
    (running : (run k cfg early).running = true) (batch : Batch) :
    run k cfg (early ++ [batch]) = (run k cfg early).iterate k cfg batch := by
  rw [run, List.foldl_append, List.foldl_cons, List.foldl_nil]
  exact if_pos running

/-- Every iteration of a run leaves it settled. -/
def Server.World.WaitsSettled (k : Kernel) (cfg : Server.Config) (batches : List Batch) : Prop :=
  ∀ early batch, early ++ [batch] <+: batches → (run k cfg early).running = true →
    SettledSince (run k cfg early).trace (run k cfg (early ++ [batch])).state

def Server.World.TailsCalm (k : Kernel) (cfg : Server.Config) (batches : List Batch) : Prop :=
  ∀ early batch, early ++ [batch] <+: batches → (run k cfg early).running = true →
    (run k cfg early).TailCalm k cfg batch

def ServerSds.World.WaitsSettled (k : Kernel) (cfg : ServerSds.Config) (batches : List Batch) : Prop :=
  ∀ early batch, early ++ [batch] <+: batches → (run k cfg early).running = true →
    SettledSince (run k cfg early).trace (run k cfg (early ++ [batch])).state

def ServerSds.World.TailsCalm (k : Kernel) (cfg : ServerSds.Config) (batches : List Batch) : Prop :=
  ∀ early batch, early ++ [batch] <+: batches → (run k cfg early).running = true →
    (run k cfg early).TailCalm k cfg batch

/-- Every wait of a run is settled iff no flush pass after a reap meets a hard error. -/
theorem waits_settled_iff (k : Kernel) (batches : List Batch) :
    (∀ cfg : Server.Config,
      Server.World.WaitsSettled k cfg batches ↔ Server.World.TailsCalm k cfg batches) ∧
      ∀ cfg : ServerSds.Config,
        ServerSds.World.WaitsSettled k cfg batches ↔ ServerSds.World.TailsCalm k cfg batches := by
  constructor
  · intro cfg
    refine forall₄_congr fun early batch _ running => ?_
    obtain ⟨runs, sound⟩ := @Server.World.runFrom_runs k cfg Server.World.init early .init
    change Runs _ _ _ (Server.World.run k cfg early).state at runs
    change Server.World.Sound (Server.World.run k cfg early) at sound
    obtain ⟨iterates, _⟩ := @Server.World.iterate_iterates k cfg _ batch sound
    rw [Server.World.run_snoc k cfg running, runs.settledSince_iff iterates]
    exact Server.World.iterate_doomed_iff batch sound
  · intro cfg
    refine forall₄_congr fun early batch _ running => ?_
    obtain ⟨runs, sound⟩ := ServerSds.World.run_sound k cfg early
    have short : (ServerSds.World.run k cfg early).state.Short := runs.keepsShort State.init_short
    obtain ⟨iterates, _⟩ := @ServerSds.World.iterate_iterates k cfg _ batch sound short
    rw [ServerSds.World.run_snoc k cfg running, runs.settledSince_iff iterates]
    exact ServerSds.World.iterate_doomed_iff batch sound short

/-! ## A notice that cannot be sent -/

/-- One `send` meets a hard error; the others take everything. -/
def failsAt (clock : Nat) : Kernel where
  send now := if now = clock then [.failed] else [.took sendCap]
  modify _ := true
  walk _ items := items
  walk_perm _ _ := .refl _

/-- Two connections enter a room. -/
def bothJoin : Batch where
  events := [.accept [.arrived 5 true, .arrived 6 true],
    .ready ⟨5, false, false, true,
      [.data (Framing.encode cSetNick (ascii "a") ++ Framing.encode cJoin (ascii "r"))]⟩,
    .ready ⟨6, false, false, true,
      [.data (Framing.encode cSetNick (ascii "b") ++ Framing.encode cJoin (ascii "r"))]⟩]
  tickDue := false

/-- The first of them hangs up. -/
def oneHangsUp : Batch where
  events := [.ready ⟨5, true, false, false, []⟩]
  tickDue := false

/-- The one to be told of the departure is doomed by the notice, behind the reap. -/
theorem doomed_behind_the_reap :
    ¬ Server.World.WaitsSettled (failsAt 5) ⟨true, false, 4⟩ [bothJoin, oneHangsUp] ∧
      (Server.World.run (failsAt 5) ⟨true, false, 4⟩ [bothJoin, oneHangsUp]).doomed = [6] ∧
    ¬ ServerSds.World.WaitsSettled (failsAt 2) ⟨true, false, 4, by decide⟩ [bothJoin, oneHangsUp] ∧
      (ServerSds.World.run (failsAt 2) ⟨true, false, 4, by decide⟩ [bothJoin, oneHangsUp]).doomed =
        [6] := by
  have stl : (Server.World.run (failsAt 5) ⟨true, false, 4⟩ [bothJoin, oneHangsUp]).doomed = [6] := by
    decide +kernel
  have sds : (ServerSds.World.run (failsAt 2) ⟨true, false, 4, by decide⟩
      [bothJoin, oneHangsUp]).doomed = [6] := by
    decide +kernel
  refine ⟨fun settled => ?_, stl, fun settled => ?_, sds⟩
  · have wait := settled [bothJoin] oneHangsUp (List.prefix_refl _) (by decide +kernel)
    rw [List.singleton_append] at wait
    have empty := wait.doomed
    rw [Server.World.state_doomed, stl] at empty
    cases empty
  · have wait := settled [bothJoin] oneHangsUp (List.prefix_refl _) (by decide +kernel)
    rw [List.singleton_append] at wait
    have empty := wait.doomed
    rw [ServerSds.World.state_doomed, sds] at empty
    cases empty

end NetEngine.Epoll
