import NetEngine.Epoll.Waits

/-! Progress: what is queued for a connection is sent in as many reports of `EPOLLOUT` as
there are bytes of it, whatever else the server does meanwhile and whoever else it serves. -/

set_option autoImplicit false

namespace NetEngine.Epoll

open Socket

variable {ρ : Type}

/-! ## What a trace goes on with -/

def Obs.sentTo (fd : Fd) : Obs ρ → Option Bytes
  | .send other sent _ => if other = fd then some sent else none
  | _ => none

/-- What the `send` loops for a descriptor took, one after another. -/
def sentTo (fd : Fd) (trace : List (Obs ρ)) : List Bytes := trace.filterMap (Obs.sentTo fd)

@[simp] theorem sentTo_append (fd : Fd) (trace more : List (Obs ρ)) :
    sentTo fd (trace ++ more) = sentTo fd trace ++ sentTo fd more := List.filterMap_append

/-- The final trace is of the connection that the first one was of, and it is still served. -/
structure Remains (fd : Fd) (start final : List (Obs ρ)) : Prop where
  grown : ∃ more, final = start ++ more ∧ .accepted fd ∉ more
  serving : life fd final = some .serving

theorem Phase.note_serving {fd : Fd} {obs : Obs ρ} {phase : Option Phase}
    (other : obs ≠ .accepted fd) (serving : Phase.note fd phase obs = some .serving) :
    phase = some .serving := by
  cases obs with
  | wake => exact serving
  | accepted another =>
      simp only [Phase.note] at serving
      split at serving
      next own => exact absurd (congrArg Obs.accepted own) other
      · exact serving
  | _ =>
      simp only [Phase.note] at serving
      split at serving
      · cases phase with
        | none => cases serving
        | some phase => cases phase <;> first | rfl | cases serving
      · exact serving

theorem life_serving {fd : Fd} {trace more : List (Obs ρ)} (same : .accepted fd ∉ more)
    (serving : life fd (trace ++ more) = some .serving) : life fd trace = some .serving := by
  induction more using List.reverseRecOn with
  | nil => rwa [List.append_nil] at serving
  | append_singleton more last ih =>
      rw [← List.append_assoc, life_snoc] at serving
      refine ih (fun among => same (List.mem_append_left _ among)) (Phase.note_serving ?_ serving)
      rintro rfl
      exact same (List.mem_append_right _ (List.mem_singleton.mpr rfl))

/-- The stream of a connection only grows, by what its sends take. -/
theorem stream_later {fd : Fd} {trace more : List (Obs ρ)} (same : .accepted fd ∉ more) :
    (stream fd trace).queued <+: (stream fd (trace ++ more)).queued ∧
      (stream fd (trace ++ more)).sent = (stream fd trace).sent ++ (sentTo fd more).flatten := by
  induction more using List.reverseRecOn with
  | nil => simp [sentTo]
  | append_singleton more last ih =>
      obtain ⟨queued, sent⟩ := ih fun among => same (List.mem_append_left _ among)
      have other : last ≠ .accepted fd := by
        rintro rfl
        exact same (List.mem_append_right _ (List.mem_singleton.mpr rfl))
      rw [← List.append_assoc, stream_snoc, sentTo_append, List.flatten_append, ← List.append_assoc,
        ← sent]
      cases last with
      | accepted another =>
          have apart : another ≠ fd := fun own => other (congrArg Obs.accepted own)
          simpa [Stream.note, apart, sentTo, Obs.sentTo] using queued
      | append another type payload =>
          simp only [Stream.note]
          split
          · exact ⟨queued.trans (List.prefix_append ..), by simp [sentTo, Obs.sentTo]⟩
          · exact ⟨queued, by simp [sentTo, Obs.sentTo]⟩
      | send another taken how =>
          by_cases own : another = fd
          · simpa [Stream.note, own, sentTo, Obs.sentTo] using queued
          · simpa [Stream.note, own, sentTo, Obs.sentTo] using queued
      | _ => simpa [Stream.note, sentTo, Obs.sentTo] using queued

namespace Remains

variable {fd : Fd} {start middle final : List (Obs ρ)}

/-- On the way it was the same connection, and served. -/
theorem between (remains : Remains fd start final) (early : start <+: middle)
    (late : middle <+: final) : Remains fd start middle ∧ Remains fd middle final := by
  obtain ⟨⟨more, grown, same⟩, serving⟩ := remains
  obtain ⟨first, rfl⟩ := early
  obtain ⟨second, rfl⟩ := late
  obtain rfl : first ++ second = more := by
    rw [List.append_assoc] at grown
    exact List.append_cancel_left grown
  have before : .accepted fd ∉ first := fun among => same (List.mem_append_left _ among)
  have behind : .accepted fd ∉ second := fun among => same (List.mem_append_right _ among)
  exact ⟨⟨⟨first, rfl, before⟩, life_serving behind serving⟩, ⟨second, rfl, behind⟩, serving⟩

theorem queued (remains : Remains fd start final) :
    (stream fd start).queued <+: (stream fd final).queued := by
  obtain ⟨⟨more, rfl, same⟩, _⟩ := remains
  exact (stream_later same).1

theorem sent (remains : Remains fd start final) :
    (stream fd start).sent.length ≤ (stream fd final).sent.length := by
  obtain ⟨⟨more, rfl, same⟩, _⟩ := remains
  rw [(stream_later same).2, List.length_append]
  exact Nat.le_add_right _ _

end Remains

theorem Lives.open_of {state : State ρ} {fd : Fd} (lives : Lives state)
    (serving : life fd state.trace = some .serving) : state.Open fd := by
  rw [lives fd, State.phase] at serving
  split at serving
  · cases serving
  next client found =>
    refine ⟨client, found, ?_⟩
    by_contra closing
    rw [if_pos (Bool.eq_true_of_not_eq_false closing)] at serving
    cases serving

/-! ## One pass -/

/-- An event of a batch is handled at some point of it. -/
theorem Drains.reach {rules : Rules ρ} {events : List Event} {event : Event} {state after : State ρ}
    (drains : Drains rules events state after) (member : event ∈ events) :
    ∃ early late before behind, Drains rules early state before ∧
      Handles rules event before behind ∧ Drains rules late behind after := by
  induction drains with
  | nil => cases member
  | @cons state next after first events handles drains ih =>
      rcases List.mem_cons.mp member with rfl | later
      · exact ⟨[], events, state, next, .nil, handles, drains⟩
      · obtain ⟨early, late, before, behind, drained, handled, rest⟩ := ih later
        exact ⟨first :: early, late, before, behind, .cons handles drained, handled, rest⟩

theorem Flushes.tries {rules : Rules ρ} {fd : Fd} {state after : State ρ} {client : Client ρ}
    (flushes : Flushes rules fd state after) (found : state.clients fd = some client)
    (waiting : client.pending ≠ []) :
    ∃ sent how, state.trace ++ [.send fd sent how] <+: after.trace := by
  obtain ⟨answers, done, _, rfl⟩ := flushes
  refine ⟨(sendLoop client.pending answers).sent, (sendLoop client.pending answers).how, ?_⟩
  have tail {after : State ρ}
      (sends : Sends True (fun _ => True) (state.sent fd (sendLoop client.pending answers)) after) :
      state.trace ++ [.send fd (sendLoop client.pending answers).sent
        (sendLoop client.pending answers).how] <+: after.trace := sends.grows
  rcases State.flushSend_cases answers done found with ⟨empty, _⟩ | ⟨_, _, same⟩ | ⟨_, _, same⟩
  · exact absurd empty waiting
  · rw [same]
    exact tail State.doom_sends
  · rw [same]
    exact tail State.updateEpollMask_sends

/-- A connection that is reported writable and has bytes waiting is sent to. -/
theorem Handles.tries {rules : Rules ρ} {what : Ready} {state after : State ρ} {client : Client ρ}
    (handles : Handles rules (.ready what) state after)
    (found : state.clients what.fd = some client) (opened : client.closing = false)
    (hangup : what.hangup = false) (writable : what.writable = true) (waiting : client.pending ≠ []) :
    ∃ sent how, state.trace ++ [.send what.fd sent how] <+: after.trace := by
  cases handles with
  | gone shut => exact absurd ⟨client, found, opened⟩ shut
  | hangup _ wrong =>
      rw [hangup] at wrong
      cases wrong
  | @serve _ flushed _ _ _ _ writes reads =>
      rcases writes with ⟨_, flushes⟩ | ⟨idle, _⟩
      · obtain ⟨sent, how, begins⟩ := flushes.tries found waiting
        refine ⟨sent, how, begins.trans ?_⟩
        rcases reads with ⟨serving, _, reads⟩ | ⟨_, rfl⟩
        · obtain ⟨client, live, _⟩ := serving
          exact (grows_events rules _).reads reads ⟨client, live⟩ (List.prefix_refl _)
        · exact List.prefix_refl _
      · rw [writable] at idle
        cases idle

/-- So a pass that reports it does send to it, if it stays. -/
theorem Iterates.tries {rules : Rules ρ} {batch : Batch} {state after : State ρ} {fd : Fd}
    {what : Ready} {more : List (Obs ρ)} (iterates : Iterates rules batch state after)
    (lives : Lives state) (streams : Streams state) (member : .ready what ∈ batch.events)
    (own : what.fd = fd) (hangup : what.hangup = false) (writable : what.writable = true)
    (grown : after.trace = state.trace ++ more) (remains : Remains fd state.trace after.trace)
    (waiting : (stream fd state.trace).sent.length < (stream fd state.trace).queued.length) :
    sentTo fd more ≠ [] := by
  subst own
  intro idle
  cases iterates with
  | @mk drained ticked _ drains ticks tail =>
      obtain ⟨early, late, before, behind, first, handles, last⟩ := drains.reach member
      have woken : Lives (state.emit .wake) := fun other => by
        rw [State.emit_trace, life_snoc]
        exact lives other
      have livesBefore : Lives before := (lives_events rules).drains first woken
      have streamsBefore : Streams before :=
        (streams_events rules).drains first (streams.emit .wake fun _ _ => rfl)
      have begins : state.trace <+: before.trace :=
        (grows_events rules _).drains first (List.prefix_append ..)
      have goes : before.trace <+: behind.trace :=
        (grows_events rules _).handles handles (List.prefix_refl _)
      have ends : behind.trace <+: after.trace := by
        have drained : behind.trace <+: drained.trace :=
          (grows_events rules _).drains last (List.prefix_refl _)
        have ticked : behind.trace <+: ticked.trace := by
          rcases ticks with ⟨_, ticks⟩ | rfl
          · exact (grows_events rules _).ticks ticks drained
          · exact drained
        exact (grows_preserves rules _).tail tail ticked
      obtain ⟨remainsBefore, rest⟩ := remains.between begins (goes.trans ends)
      obtain ⟨client, found, opened⟩ := livesBefore.open_of remainsBefore.serving
      obtain ⟨between, spent⟩ := begins
      obtain ⟨later, final⟩ := goes.trans ends
      have split : more = between ++ later := by
        rw [grown, ← spent, List.append_assoc] at final
        exact (List.append_cancel_left final).symm
      have quiet : sentTo what.fd between = [] ∧ sentTo what.fd later = [] := by
        rw [split, sentTo_append] at idle
        exact List.append_eq_nil_iff.mp idle
      have pending : client.pending ≠ [] := by
        intro empty
        obtain ⟨left, queue, held⟩ := streamsBefore what.fd
        obtain ⟨⟨noted, grows, same⟩, _⟩ := remainsBefore
        obtain rfl : between = noted := List.append_cancel_left (spent.trans grows)
        obtain ⟨queued, sent⟩ := @stream_later ρ what.fd state.trace between same
        rw [← held client found, empty, List.append_nil] at queue
        have bytes := queued.length_le
        rw [spent] at bytes sent
        rw [queue, sent, quiet.1] at bytes
        simp only [List.flatten_nil, List.append_nil] at bytes
        omega
      obtain ⟨sent, how, tried⟩ := handles.tries found opened hangup writable pending
      obtain ⟨afterwards, final'⟩ := tried.trans ends
      have noted : later = .send what.fd sent how :: afterwards := by
        rw [← final, List.append_assoc] at final'
        exact (List.append_cancel_left final').symm
      rw [noted] at quiet
      simp [sentTo, Obs.sentTo] at quiet

/-! ## Rounds -/

/-- A pass in which the kernel keeps to what a level-triggered `EPOLLOUT` means: it reports
the connection if that is asked for, and then takes at least a byte. -/
structure Reported (fd : Fd) (batch : Batch) (state after : State ρ) : Prop where
  event : ∀ client, state.clients fd = some client → client.armed = true →
    ∃ what, .ready what ∈ batch.events ∧ what.fd = fd ∧ what.hangup = false ∧ what.writable = true
  taken : ∀ more, after.trace = state.trace ++ more → (sentTo fd more).head? ≠ some []

/-- In each round there is such a pass; the others are free. -/
def FairTo (fd : Fd) (reached : List Batch → State ρ) (early : List Batch)
    (rounds : List (List Batch)) : Prop :=
  ∀ front round back, rounds = front ++ round :: back → ∃ before batch behind,
    round = before ++ batch :: behind ∧
      Reported fd batch (reached (early ++ front.flatten ++ before))
        (reached (early ++ front.flatten ++ before ++ [batch]))

theorem fairTo_one {fd : Fd} {reached : List Batch → State ρ} {early : List Batch} {batch : Batch}
    (reported : Reported fd batch (reached early) (reached (early ++ [batch]))) :
    FairTo fd reached early [[batch]] := by
  intro front round back split
  obtain ⟨rfl, rfl, rfl⟩ : front = [] ∧ round = [batch] ∧ back = [] := by
    cases front with
    | nil => simpa [eq_comm] using split
    | cons other front => simp at split
  exact ⟨[], batch, [], rfl, by simpa using reported⟩

/-- What a server does as its batches come in, one by one. -/
structure Loop (rules : Rules ρ) (reached : List Batch → State ρ) : Prop where
  runs : ∀ batches, Runs rules batches State.init (reached batches)
  next : ∀ early batch, (reached early).running = true →
    Iterates rules batch (reached early) (reached (early ++ [batch]))
  stops : ∀ early batch, (reached early).running = false →
    reached (early ++ [batch]) = reached early

namespace Loop

variable {rules : Rules ρ} {reached : List Batch → State ρ} {fd : Fd} {early : List Batch}

theorem grows (loop : Loop rules reached) (early late : List Batch) :
    (reached early).trace <+: (reached (early ++ late)).trace := by
  induction late using List.reverseRecOn with
  | nil => simp
  | append_singleton late batch ih =>
      rw [← List.append_assoc]
      refine ih.trans ?_
      cases running : (reached (early ++ late)).running with
      | false => exact ⟨[], by rw [loop.stops _ batch running, List.append_nil]⟩
      | true =>
          exact (grows_preserves rules _).iterates (loop.next _ batch running) (List.prefix_append ..)

theorem running (loop : Loop rules reached) (early late : List Batch)
    (running : (reached (early ++ late)).running = true) : (reached early).running = true := by
  induction late using List.reverseRecOn with
  | nil => rwa [List.append_nil] at running
  | append_singleton late batch ih =>
      cases before : (reached (early ++ late)).running with
      | true => exact ih before
      | false =>
          rw [← List.append_assoc, loop.stops _ batch before, before] at running
          cases running

/-- In a pass that reports it, a connection with bytes waiting gets rid of one. -/
theorem pass (loop : Loop rules reached) (succeeds : ∀ done, rules.modifies done → done = true)
    {batch : Batch} (running : (reached early).running = true)
    (reported : Reported fd batch (reached early) (reached (early ++ [batch])))
    (remains : Remains fd (reached early).trace (reached (early ++ [batch])).trace)
    (waiting : (stream fd (reached early).trace).sent.length <
      (stream fd (reached early).trace).queued.length) :
    (stream fd (reached early).trace).sent.length <
      (stream fd (reached (early ++ [batch])).trace).sent.length := by
  have iterates := loop.next early batch running
  have lives := (loop.runs early).lives .init
  have streams := (loop.runs early).streams .init
  have watched := (loop.runs early).watched succeeds
  obtain ⟨start, _⟩ := remains.between (List.prefix_refl _) (loop.grows early [batch])
  obtain ⟨client, found, opened⟩ := lives.open_of start.serving
  have pending : client.pending ≠ [] := by
    intro empty
    obtain ⟨rest, queue, held⟩ := streams fd
    rw [← held client found, empty, List.append_nil] at queue
    rw [queue] at waiting
    exact Nat.lt_irrefl _ waiting
  have armed := (watched.armed fd client found opened).mpr pending
  obtain ⟨what, member, own, hangup, writable⟩ := reported.event client found armed
  obtain ⟨more, grown, same⟩ := remains.grown
  have tried := iterates.tries lives streams member own hangup writable grown remains waiting
  have first := reported.taken more grown
  rw [grown, (stream_later same).2, List.length_append]
  cases sends : sentTo fd more with
  | nil => exact absurd sends tried
  | cons sent others =>
      cases sent with
      | nil =>
          rw [sends] at first
          exact absurd rfl first
      | cons byte bytes =>
          rw [List.flatten_cons, List.length_append, List.length_cons]
          omega

/-- After so many rounds so many bytes were sent, or else everything that was queued. -/
theorem rounds (loop : Loop rules reached) (succeeds : ∀ done, rules.modifies done → done = true)
    (rounds : List (List Batch)) (fair : FairTo fd reached early rounds)
    (running : (reached (early ++ rounds.flatten)).running = true)
    (remains : Remains fd (reached early).trace (reached (early ++ rounds.flatten)).trace) :
    (stream fd (reached early).trace).queued.length ≤
        (stream fd (reached (early ++ rounds.flatten)).trace).sent.length ∨
      (stream fd (reached early).trace).sent.length + rounds.length ≤
        (stream fd (reached (early ++ rounds.flatten)).trace).sent.length := by
  induction rounds using List.reverseRecOn with
  | nil => exact .inr remains.sent
  | append_singleton rounds round ih =>
      have split : early ++ (rounds ++ [round]).flatten = early ++ rounds.flatten ++ round := by simp
      rw [split] at running remains ⊢
      obtain ⟨before, batch, behind, rfl, reported⟩ := fair rounds round [] rfl
      have order : early ++ rounds.flatten ++ (before ++ batch :: behind) =
          early ++ rounds.flatten ++ before ++ [batch] ++ behind := by simp
      rw [order] at running remains ⊢
      have toBatch := loop.running _ behind running
      have toBefore := loop.running _ [batch] toBatch
      have toRound := loop.running _ before toBefore
      obtain ⟨untilBatch, rest⟩ := remains.between
        (((loop.grows early rounds.flatten).trans (loop.grows _ before)).trans (loop.grows _ [batch]))
        (loop.grows _ behind)
      obtain ⟨untilBefore, passing⟩ := untilBatch.between
        ((loop.grows early rounds.flatten).trans (loop.grows _ before)) (loop.grows _ [batch])
      obtain ⟨untilRound, leading⟩ := untilBefore.between (loop.grows early rounds.flatten)
        (loop.grows _ before)
      have fairBefore : FairTo fd reached early rounds := by
        rintro front own back rfl
        exact fair front own (back ++ [before ++ batch :: behind]) (by simp)
      have onward := leading.sent
      have ends := rest.sent
      rcases ih fairBefore toRound untilRound with drained | some
      · exact .inl (Nat.le_trans drained (Nat.le_trans onward (Nat.le_trans passing.sent ends)))
      · rcases Nat.lt_or_ge (stream fd (reached (early ++ rounds.flatten ++ before)).trace).sent.length
          (stream fd (reached (early ++ rounds.flatten ++ before)).trace).queued.length with
          waiting | empty
        · have further := loop.pass succeeds toBefore reported passing waiting
          refine .inr ?_
          rw [List.length_append, List.length_singleton]
          omega
        · have bytes := untilBefore.queued.length_le
          exact .inl (Nat.le_trans bytes (Nat.le_trans empty (Nat.le_trans passing.sent ends)))

/-- Enough rounds, and everything that was queued has been sent. -/
theorem sends (loop : Loop rules reached) (succeeds : ∀ done, rules.modifies done → done = true)
    (rounds : List (List Batch)) (fair : FairTo fd reached early rounds)
    (running : (reached (early ++ rounds.flatten)).running = true)
    (remains : Remains fd (reached early).trace (reached (early ++ rounds.flatten)).trace)
    (enough : ∀ client, (reached early).clients fd = some client →
      client.pending.length ≤ rounds.length) :
    (stream fd (reached early).trace).queued <+:
      (stream fd (reached (early ++ rounds.flatten)).trace).sent := by
  have sent : (stream fd (reached (early ++ rounds.flatten)).trace).sent <+:
      (stream fd (reached (early ++ rounds.flatten)).trace).queued :=
    ((loop.runs _).streams .init).prefixed fd
  refine List.prefix_of_prefix_length_le remains.queued sent ?_
  rcases loop.rounds succeeds rounds fair running remains with drained | some
  · exact drained
  · obtain ⟨start, _⟩ := remains.between (List.prefix_refl _) (loop.grows early rounds.flatten)
    obtain ⟨client, found, _⟩ := ((loop.runs early).lives .init).open_of start.serving
    obtain ⟨rest, queue, held⟩ := (loop.runs early).streams .init fd
    have waiting := enough client found
    rw [held client found] at waiting
    refine Nat.le_trans ?_ some
    rw [queue, List.length_append]
    exact Nat.add_le_add_left waiting _

end Loop

/-! ## The two servers -/

theorem Server.World.run_loop (k : Kernel) (cfg : Server.Config) :
    Loop (Server.rules k cfg) fun batches => (run k cfg batches).state where
  runs := run_runs k cfg
  next early batch running := by
    obtain ⟨_, sound⟩ := @runFrom_runs k cfg init early .init
    change Sound (run k cfg early) at sound
    change (run k cfg early).running = true at running
    rw [run_snoc k cfg running]
    exact (iterate_iterates batch sound).1
  stops early batch stopped := by
    change (run k cfg early).running = false at stopped
    have same : run k cfg (early ++ [batch]) = run k cfg early := by
      rw [run, List.foldl_append, List.foldl_cons, List.foldl_nil]
      exact if_neg (Bool.eq_false_iff.mp stopped)
    exact congrArg state same

theorem ServerSds.World.run_loop (k : Kernel) (cfg : ServerSds.Config) :
    Loop (ServerSds.rules k cfg) fun batches => (run k cfg batches).state where
  runs := run_runs k cfg
  next early batch running := by
    obtain ⟨runs, sound⟩ := run_sound k cfg early
    change (run k cfg early).running = true at running
    rw [run_snoc k cfg running]
    exact (iterate_iterates batch sound (runs.keepsShort State.init_short)).1
  stops early batch stopped := by
    change (run k cfg early).running = false at stopped
    have same : run k cfg (early ++ [batch]) = run k cfg early := by
      rw [run, List.foldl_append, List.foldl_cons, List.foldl_nil]
      exact if_neg (Bool.eq_false_iff.mp stopped)
    exact congrArg state same

/-- What is queued for a connection that stays is sent after as many fair rounds as bytes are
waiting, in either server, in any mode, whatever else the batches bring. -/
theorem queued_is_sent (k : Kernel) (succeeds : ∀ clock, k.modify clock = true)
    (early : List Batch) (rounds : List (List Batch)) (fd : Fd) :
    (∀ cfg : Server.Config,
      FairTo fd (fun batches => (Server.World.run k cfg batches).state) early rounds →
      (Server.World.run k cfg (early ++ rounds.flatten)).running = true →
      Remains fd (Server.World.run k cfg early).trace
        (Server.World.run k cfg (early ++ rounds.flatten)).trace →
      (∀ c, (Server.World.run k cfg early).conns fd = some c → c.out.length ≤ rounds.length) →
      (stream fd (Server.World.run k cfg early).trace).queued <+:
        (stream fd (Server.World.run k cfg (early ++ rounds.flatten)).trace).sent) ∧
    ∀ cfg : ServerSds.Config,
      FairTo fd (fun batches => (ServerSds.World.run k cfg batches).state) early rounds →
      (ServerSds.World.run k cfg (early ++ rounds.flatten)).running = true →
      Remains fd (ServerSds.World.run k cfg early).trace
        (ServerSds.World.run k cfg (early ++ rounds.flatten)).trace →
      (∀ c, (ServerSds.World.run k cfg early).conns fd = some c →
        c.txTail - c.txHead ≤ rounds.length) →
      (stream fd (ServerSds.World.run k cfg early).trace).queued <+:
        (stream fd (ServerSds.World.run k cfg (early ++ rounds.flatten)).trace).sent := by
  constructor
  · intro cfg fair running remains enough
    have loop := Server.World.run_loop k cfg
    refine loop.sends (fun done allowed => ?_) rounds fair running remains fun client found => ?_
    · obtain ⟨clock, rfl⟩ := allowed
      exact succeeds clock
    · obtain ⟨c, held, rfl⟩ := Option.map_eq_some_iff.mp found
      exact enough c held
  · intro cfg fair running remains enough
    have loop := ServerSds.World.run_loop k cfg
    obtain ⟨_, sound⟩ := ServerSds.World.run_sound k cfg early
    refine loop.sends (fun done allowed => ?_) rounds fair running remains fun client found => ?_
    · obtain ⟨clock, rfl⟩ := allowed
      exact succeeds clock
    · obtain ⟨c, held, rfl⟩ := Option.map_eq_some_iff.mp found
      exact (ServerSds.Conn.out_length c).trans_le (enough c held)

/-- One `send` takes but some bytes, each of the others all. -/
def stingy (asked taken : Nat) : Kernel where
  send now := if now = asked then [.took taken] else [.took sendCap]
  modify _ := true
  walk _ items := items
  walk_perm _ _ := .refl _

def writableBatch (fd : Fd) : Batch where
  events := [.ready ⟨fd, false, true, false, []⟩]
  tickDue := false

/-- A last byte of the answer to a lonely chat waits for the round. -/
theorem queued_is_sent_stingy :
    (stream 5 (Server.World.run (stingy 0 19) ⟨true, false, 1⟩
      [Server.World.helloBatch]).trace).queued <+:
      (stream 5 (Server.World.run (stingy 0 19) ⟨true, false, 1⟩
        ([Server.World.helloBatch] ++ [[writableBatch 5]].flatten)).trace).sent := by
  have later : (Server.World.run (stingy 0 19) ⟨true, false, 1⟩
        [Server.World.helloBatch, writableBatch 5]).trace =
      (Server.World.run (stingy 0 19) ⟨true, false, 1⟩ [Server.World.helloBatch]).trace ++
        [.wake, .send 5 (ascii "t") .drained, .mask 5 false true] := by
    rfl
  have reported : Reported 5 (writableBatch 5)
      (Server.World.run (stingy 0 19) ⟨true, false, 1⟩ [Server.World.helloBatch]).state
      (Server.World.run (stingy 0 19) ⟨true, false, 1⟩
        [Server.World.helloBatch, writableBatch 5]).state := by
    refine ⟨fun _ _ _ => ⟨_, List.mem_singleton.mpr rfl, rfl, rfl, rfl⟩, fun more grown => ?_⟩
    obtain rfl := List.append_cancel_left (later.symm.trans grown)
    have taken : sentTo 5 ([.wake, .send 5 (ascii "t") .drained, .mask 5 false true] :
        List (Obs Bytes)) = [ascii "t"] := rfl
    rw [taken]
    decide
  refine (queued_is_sent (stingy 0 19) (fun _ => rfl) [Server.World.helloBatch]
    [[writableBatch 5]] 5).1 ⟨true, false, 1⟩ (fairTo_one reported) rfl ⟨⟨_, later, ?_⟩, rfl⟩ ?_
  · simp
  · intro c found
    obtain rfl := Option.some.inj found
    decide

end NetEngine.Epoll
