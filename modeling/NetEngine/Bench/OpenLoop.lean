import NetEngine.Bench.TrafficProperties

/-! The send schedule of `run_traffic` is open: how many messages were taken up, and when each
was due, is a matter of the clock, whatever the server did. What was sent and what was held
back is read off the counters. -/

set_option autoImplicit false

namespace NetEngine.Bench

open Socket

/-! ## The parser counts nothing of what was sent -/

/-- The counters of the sending side. -/
def Stats.offer (stats : Stats) : Nat × Nat × Histogram :=
  (stats.sent, stats.backpressed, stats.selfLag)

@[simp] theorem sample_offer (recvTs : Int) (node : UInt32) (stats : Stats) (payload : Bytes) :
    (sample recvTs node stats payload).offer = stats.offer := by
  unfold sample
  split
  · rfl
  · split
    · rfl
    · split
      · rfl
      · simp only
        split
        · rfl
        · split <;> rfl

@[simp] theorem tickEntries_offer (recvTs : Int) (node : UInt32) (fuel : Nat) (stats : Stats)
    (payload : Bytes) : (tickEntries recvTs node fuel stats payload).offer = stats.offer := by
  induction fuel generalizing stats payload with
  | zero => rfl
  | succ fuel ih =>
      simp only [tickEntries]
      split
      · rfl
      · split
        · rfl
        · rw [ih, sample_offer]
          rfl

@[simp] theorem handleFrame_offer (proto : Proto) (recvTs : Int) (node : UInt32) (stats : Stats)
    (type : UInt16) (payload : Bytes) :
    (handleFrame proto recvTs node stats type payload).offer = stats.offer := by
  unfold handleFrame
  split
  · exact tickEntries_offer ..
  · simp only
    split
    · rfl
    · rw [sample_offer]
      rfl

@[simp] theorem consumeFrames_offer (proto : Proto) (recvTs : Int) (node : UInt32) (fuel : Nat)
    (stats : Stats) (rx : Bytes) :
    (consumeFrames proto recvTs node fuel stats rx).2.offer = stats.offer := by
  induction fuel generalizing stats rx with
  | zero => rfl
  | succ fuel ih =>
      simp only [consumeFrames]
      split
      · rfl
      · split
        · rfl
        · split
          · rfl
          · rw [ih, handleFrame_offer]

/-! ## The pace -/

/-- What the schedule looks at in a turn: the stop flag, the clock, and whether `epoll_wait`
failed for good. -/
def Turn.clock (turn : Turn) : Bool × Int × Bool :=
  (turn.stop, turn.now, match turn.poll with
    | .failed => true
    | _ => false)

namespace Traffic

/-- How many messages are due by `now`. -/
def dueBy (slot begun now : Int) : Nat :=
  if now < begun then 0 else ((now - begun) / slot).toNat + 1

theorem lt_dueBy {slot begun now : Int} (positive : 0 < slot) (j : Nat) :
    j < dueBy slot begun now ↔ begun + j * slot ≤ now := by
  unfold dueBy
  split
  next early =>
    have later : 0 ≤ (j : Int) * slot := Int.mul_nonneg (Int.natCast_nonneg j) (Int.le_of_lt positive)
    omega
  next =>
    have quotient : (j : Int) ≤ (now - begun) / slot ↔ j * slot ≤ now - begun :=
      Int.le_ediv_iff_mul_le positive
    have whole : 0 ≤ (now - begun) / slot := Int.ediv_nonneg (by omega) (Int.le_of_lt positive)
    omega

/-- How many messages are taken up, from `m` on: in each turn those that are due, but no more
than a burst. -/
def offered (slot begun ends : Int) (burst : Nat) : List (Bool × Int × Bool) → Nat → Nat
  | [], m => m
  | (stop, now, failed) :: clocks, m =>
      if stop ∨ ends ≤ now then m
      else
        let m := max m (min (m + burst) (dueBy slot begun now))
        if failed then m else offered slot begun ends burst clocks m

/-! ## The books -/

/-- The connection whose turn it is. -/
def turn (traffic : Traffic) (m : Nat) : Nat := traffic.live.getD (m % traffic.live.length) 0

/-- A message that was sent or held back. -/
def Taken (traffic : Traffic) (j : Nat) : Prop :=
  j ∈ traffic.issued.map Issue.m ∨ j ∈ traffic.held

/-- What the sending side has done since the start. Of the messages that were taken up, only
those of lost connections are missing, and each from some turn on. -/
structure Books (start traffic : Traffic) : Prop where
  live : traffic.live = start.live
  sent : traffic.stats.sent = traffic.issued.length
  backpressed : traffic.stats.backpressed = traffic.held.length
  order : (traffic.issued.map Issue.m).Pairwise (· < ·)
  heldOrder : traffic.held.Pairwise (· < ·)
  apart : ∀ j ∈ traffic.held, j ∉ traffic.issued.map Issue.m
  own : ∀ issue ∈ traffic.issued, issue.fd = start.turn issue.m
  within : ∀ j, traffic.Taken j → j < traffic.m
  skipped : ∀ j < traffic.m, ¬ traffic.Taken j → (traffic.conn (start.turn j)).state ≠ .ready ∧
    ∀ k, traffic.Taken k → start.turn k = start.turn j → k < j
  lags : ∃ lags : List Int, traffic.stats.selfLag = .ofSamples lags ∧ (∀ lag ∈ lags, 0 ≤ lag) ∧
    lags.length = traffic.stats.sent + traffic.stats.backpressed
  seq : ∀ fd, (traffic.conn fd).seq =
    (start.conn fd).seq + UInt32.ofNat ((traffic.issued.map Issue.fd).count fd)

/-- The service of the sockets leaves the sending side alone. -/
structure Serves (before after : Traffic) : Prop where
  m : after.m = before.m
  live : after.live = before.live
  issued : after.issued = before.issued
  held : after.held = before.held
  offer : after.stats.offer = before.stats.offer
  seq : ∀ fd, (after.conn fd).seq = (before.conn fd).seq
  ready : ∀ fd, (after.conn fd).state = .ready → (before.conn fd).state = .ready

namespace Serves

variable {before after last : Traffic}

theorem refl (traffic : Traffic) : Serves traffic traffic :=
  ⟨rfl, rfl, rfl, rfl, rfl, fun _ => rfl, fun _ => id⟩

theorem trans (first : Serves before after) (second : Serves after last) : Serves before last where
  m := second.m.trans first.m
  live := second.live.trans first.live
  issued := second.issued.trans first.issued
  held := second.held.trans first.held
  offer := second.offer.trans first.offer
  seq fd := (second.seq fd).trans (first.seq fd)
  ready fd ready := first.ready fd (second.ready fd ready)

theorem setConn (traffic : Traffic) {fd : Nat} {c : Conn} (seq : c.seq = (traffic.conn fd).seq)
    (ready : c.state = .ready → (traffic.conn fd).state = .ready) :
    Serves traffic (traffic.setConn fd c) where
  m := rfl
  live := rfl
  issued := rfl
  held := rfl
  offer := rfl
  seq other := by
    rw [conn_setConn]
    split
    next here => rw [seq, here.1]
    next => rfl
  ready other := by
    rw [conn_setConn]
    split
    next here =>
      rw [here.1]
      exact ready
    next => exact id

theorem epollMod (traffic : Traffic) (fd : Nat) (interest : Interest) :
    Serves traffic (traffic.epollMod fd interest) := ⟨rfl, rfl, rfl, rfl, rfl, fun _ => rfl, fun _ => id⟩

theorem stats (traffic : Traffic) {stats : Stats} (offer : stats.offer = traffic.stats.offer) :
    Serves traffic { traffic with stats } := ⟨rfl, rfl, rfl, rfl, offer, fun _ => rfl, fun _ => id⟩

theorem lose (traffic : Traffic) (fd : Nat) : Serves traffic (traffic.lose fd) := by
  have dies : Serves traffic (traffic.setConn fd { traffic.conn fd with state := .dead }) := by
    refine setConn traffic rfl fun wrong => ?_
    cases wrong
  exact dies.trans ⟨rfl, rfl, rfl, rfl, rfl, fun _ => rfl, fun _ => id⟩

theorem flush (traffic : Traffic) (event : Ready) : Serves traffic (traffic.flush event).1 := by
  unfold Traffic.flush
  simp only
  split
  · refine Serves.trans (setConn traffic ?_ ?_) (epollMod _ _ _)
    · rfl
    · exact id
  · refine setConn traffic ?_ ?_
    · rfl
    · exact id

theorem receive (traffic : Traffic) (proto : Proto) (cfg : Config) (event : Ready) :
    Serves traffic (traffic.receive proto cfg event).1 := by
  unfold Traffic.receive
  simp only
  refine Serves.trans (setConn traffic ?_ ?_) (stats _ ?_)
  · rfl
  · exact id
  · rw [consumeFrames_offer]
    rfl

theorem service (traffic : Traffic) (proto : Proto) (cfg : Config) (event : Ready) :
    Serves traffic (traffic.service proto cfg event) := by
  unfold Traffic.service
  split
  · exact refl traffic
  have flushed : Serves traffic (if event.writable then traffic.flush event else (traffic, true)).1 := by
    split
    · exact flush traffic event
    · exact refl traffic
  generalize (if event.writable then traffic.flush event else (traffic, true)) = first at flushed ⊢
  obtain ⟨next, alive⟩ := first
  have received : Serves next
      (if alive ∧ event.readable then next.receive proto cfg event else (next, alive)).1 := by
    split
    · exact receive next proto cfg event
    · exact refl next
  simp only
  generalize (if alive ∧ event.readable then next.receive proto cfg event else (next, alive)) =
    second at received ⊢
  obtain ⟨last, alive⟩ := second
  simp only
  split
  · exact (flushed.trans received).trans (lose last event.fd)
  · exact flushed.trans received

theorem drainService (traffic : Traffic) (proto : Proto) (cfg : Config) (event : Ready) :
    Serves traffic (traffic.drainService proto cfg event) := by
  unfold Traffic.drainService
  split
  next => exact refl traffic
  next notReady =>
  have ready : (traffic.conn event.fd).state = .ready := by simpa using notReady
  split
  · exact refl traffic
  simp only
  have read : ∀ rx bytesIn, Serves traffic
      { traffic.setConn event.fd { traffic.conn event.fd with rx } with
        stats := { traffic.stats with bytesIn } } := by
    intro rx bytesIn
    refine Serves.trans (setConn traffic ?_ ?_) (stats _ ?_)
    · rfl
    · exact id
    · rfl
  split
  · exact (read _ _).trans (lose _ event.fd)
  · refine (read _ _).trans (Serves.trans (setConn _ ?_ ?_) (stats _ ?_))
    · exact ((read _ _).seq event.fd).symm
    · exact fun _ => (state_setConn (by rfl) event.fd).trans ready
    · rw [consumeFrames_offer]
      rfl

theorem each {step : Traffic → Ready → Traffic} (serves : ∀ traffic event, Serves traffic (step traffic event))
    (traffic : Traffic) (events : List Ready) : Serves traffic (events.foldl step traffic) := by
  induction events generalizing traffic with
  | nil => exact refl traffic
  | cons event events ih => exact (serves traffic event).trans (ih _)

end Serves

namespace Books

variable {start traffic : Traffic} {proto : Proto} {cfg : Config}

theorem begin (conns : List Conn) (live : List Nat) (epoll : Nat → Option Interest) :
    Books (begin conns live epoll) (begin conns live epoll) where
  live := rfl
  sent := rfl
  backpressed := rfl
  order := .nil
  heldOrder := .nil
  apart := nofun
  own := nofun
  within := by simp [Taken, Traffic.begin]
  skipped := by simp [Traffic.begin]
  lags := ⟨[], rfl, by simp, rfl⟩
  seq fd := by simp [Traffic.begin]

theorem served {after : Traffic} (books : Books start traffic) (serves : Serves traffic after) :
    Books start after := by
  have offer := serves.offer
  simp only [Stats.offer, Prod.mk.injEq] at offer
  obtain ⟨sent, backpressed, selfLag⟩ := offer
  have taken : ∀ j, after.Taken j ↔ traffic.Taken j := fun j => by
    rw [Taken, Taken, serves.issued, serves.held]
  exact {
    live := serves.live.trans books.live
    sent := by rw [sent, serves.issued, books.sent]
    backpressed := by rw [backpressed, serves.held, books.backpressed]
    order := serves.issued ▸ books.order
    heldOrder := serves.held ▸ books.heldOrder
    apart := by
      rw [serves.issued, serves.held]
      exact books.apart
    own := by
      rw [serves.issued]
      exact books.own
    within := fun j member => serves.m ▸ books.within j ((taken j).mp member)
    skipped := fun j upTo missing => by
      obtain ⟨lost, before⟩ := books.skipped j (serves.m ▸ upTo) (mt (taken j).mpr missing)
      exact ⟨mt (serves.ready _) lost, fun k member => before k ((taken k).mp member)⟩
    lags := by
      rw [selfLag, sent, backpressed]
      exact books.lags
    seq := fun fd => by
      rw [serves.seq, serves.issued]
      exact books.seq fd }

theorem lags_succ (books : Books start traffic) {lag : Int} (late : 0 ≤ lag) :
    ∃ lags : List Int, traffic.stats.selfLag.add lag = .ofSamples lags ∧ (∀ lag ∈ lags, 0 ≤ lag) ∧
      lags.length = traffic.stats.sent + traffic.stats.backpressed + 1 := by
  obtain ⟨lags, same, nonneg, length⟩ := books.lags
  refine ⟨lags ++ [lag], ?_, ?_, ?_⟩
  · rw [same, Histogram.ofSamples, Histogram.ofSamples, List.foldl_append]
    rfl
  · intro other member
    rcases List.mem_append.mp member with early | last
    · exact nonneg other early
    · rw [List.mem_singleton.mp last]
      exact late
  · rw [List.length_append, length]
    rfl

/-- The next message goes behind those that were taken. -/
theorem pairwise_snoc {numbers : List Nat} (order : numbers.Pairwise (· < ·)) {m : Nat}
    (below : ∀ j ∈ numbers, j < m) : (numbers ++ [m]).Pairwise (· < ·) :=
  List.pairwise_append.mpr ⟨order, List.pairwise_singleton .., fun j early last member => by
    rw [List.mem_singleton.mp member]
    exact below j early⟩

/-- A message that met a ready connection joins the others, and none of its turns was skipped. -/
theorem skipped_succ (books : Books start traffic) {after : Traffic}
    (taken : ∀ j, after.Taken j ↔ traffic.Taken j ∨ j = traffic.m)
    (ready : (traffic.conn (start.turn traffic.m)).state = .ready)
    (stays : ∀ fd, (after.conn fd).state = .ready → (traffic.conn fd).state = .ready) {j : Nat}
    (upTo : j < traffic.m + 1) (missing : ¬ after.Taken j) :
    (after.conn (start.turn j)).state ≠ .ready ∧
      ∀ k, after.Taken k → start.turn k = start.turn j → k < j := by
  rw [taken, not_or] at missing
  obtain ⟨lost, before⟩ := books.skipped j (by omega) missing.1
  refine ⟨mt (stays _) lost, fun k member same => ?_⟩
  rcases (taken k).mp member with early | rfl
  · exact before k early same
  · exact absurd (same ▸ ready) lost

theorem skips (books : Books start traffic)
    (dead : (traffic.conn (start.turn traffic.m)).state ≠ .ready) :
    Books start { traffic with m := traffic.m + 1 } where
  live := books.live
  sent := books.sent
  backpressed := books.backpressed
  order := books.order
  heldOrder := books.heldOrder
  apart := books.apart
  own := books.own
  within j member := Nat.lt_succ_of_lt (books.within j member)
  skipped j upTo missing := by
    rcases Nat.lt_succ_iff_lt_or_eq.mp upTo with early | rfl
    · exact books.skipped j early missing
    · exact ⟨dead, fun k member _ => books.within k member⟩
  lags := books.lags
  seq := books.seq

theorem holds (books : Books start traffic) {lag : Int} (late : 0 ≤ lag) {after : Traffic}
    (m : after.m = traffic.m + 1)
    (wasReady : (traffic.conn (start.turn traffic.m)).state = .ready)
    (live : after.live = traffic.live) (issued : after.issued = traffic.issued)
    (held : after.held = traffic.held ++ [traffic.m])
    (offer : after.stats.offer =
      (traffic.stats.sent, traffic.stats.backpressed + 1, traffic.stats.selfLag.add lag))
    (conns : ∀ fd, after.conn fd = traffic.conn fd) : Books start after := by
  simp only [Stats.offer, Prod.mk.injEq] at offer
  obtain ⟨sent, backpressed, selfLag⟩ := offer
  have taken : ∀ j, after.Taken j ↔ traffic.Taken j ∨ j = traffic.m := fun j => by
    rw [Taken, Taken, issued, held, List.mem_append, List.mem_singleton, or_assoc]
  exact {
    live := live.trans books.live
    sent := by rw [sent, issued, books.sent]
    backpressed := by
      rw [backpressed, held, books.backpressed, List.length_append, List.length_singleton]
    order := issued ▸ books.order
    heldOrder := by
      rw [held]
      exact pairwise_snoc books.heldOrder fun j member => books.within j (.inr member)
    apart := fun j member both => by
      rw [issued] at both
      rw [held, List.mem_append, List.mem_singleton] at member
      rcases member with early | rfl
      · exact books.apart j early both
      · exact Nat.lt_irrefl _ (books.within _ (.inl both))
    own := issued ▸ books.own
    within := fun j member => by
      rw [m]
      rcases (taken j).mp member with early | rfl
      · exact Nat.lt_succ_of_lt (books.within j early)
      · exact Nat.lt_succ_self _
    skipped := fun j upTo =>
      books.skipped_succ taken wasReady (fun fd ready => conns fd ▸ ready) (m ▸ upTo)
    lags := by
      rw [selfLag, sent, backpressed]
      exact books.lags_succ late
    seq := fun fd => by rw [conns, issued, books.seq fd] }

theorem sends (books : Books start traffic) {lag : Int} (late : 0 ≤ lag) {after : Traffic}
    {issue : Issue} (m : after.m = traffic.m + 1) (number : issue.m = traffic.m)
    (own : issue.fd = start.turn traffic.m)
    (wasReady : (traffic.conn (start.turn traffic.m)).state = .ready)
    (live : after.live = traffic.live) (issued : after.issued = traffic.issued ++ [issue])
    (held : after.held = traffic.held)
    (offer : after.stats.offer =
      (traffic.stats.sent + 1, traffic.stats.backpressed, traffic.stats.selfLag.add lag))
    (ready : ∀ fd, (after.conn fd).state = .ready → (traffic.conn fd).state = .ready)
    (seq : ∀ fd, (after.conn fd).seq =
      if fd = issue.fd then (traffic.conn fd).seq + 1 else (traffic.conn fd).seq) :
    Books start after := by
  simp only [Stats.offer, Prod.mk.injEq] at offer
  obtain ⟨sent, backpressed, selfLag⟩ := offer
  have numbers : after.issued.map Issue.m = traffic.issued.map Issue.m ++ [traffic.m] := by
    rw [issued, List.map_append, List.map_singleton, number]
  have taken : ∀ j, after.Taken j ↔ traffic.Taken j ∨ j = traffic.m := fun j => by
    rw [Taken, Taken, numbers, held, List.mem_append, List.mem_singleton]
    tauto
  have count : after.stats.sent + after.stats.backpressed =
      traffic.stats.sent + traffic.stats.backpressed + 1 := by omega
  exact {
    live := live.trans books.live
    sent := by rw [sent, issued, books.sent, List.length_append, List.length_singleton]
    backpressed := by rw [backpressed, held, books.backpressed]
    order := by
      rw [numbers]
      exact pairwise_snoc books.order fun j member => books.within j (.inl member)
    heldOrder := held ▸ books.heldOrder
    apart := fun j member both => by
      rw [held] at member
      rw [numbers, List.mem_append, List.mem_singleton] at both
      rcases both with early | rfl
      · exact books.apart j member early
      · exact Nat.lt_irrefl _ (books.within _ (.inr member))
    own := fun other member => by
      rw [issued] at member
      rcases List.mem_append.mp member with early | last
      · exact books.own other early
      · rw [List.mem_singleton.mp last, own, number]
    within := fun j member => by
      rw [m]
      rcases (taken j).mp member with early | rfl
      · exact Nat.lt_succ_of_lt (books.within j early)
      · exact Nat.lt_succ_self _
    skipped := fun j upTo => books.skipped_succ taken wasReady ready (m ▸ upTo)
    lags := by
      rw [selfLag, count]
      exact books.lags_succ late
    seq := fun fd => by
      rw [seq, issued, List.map_append, List.count_append, books.seq fd]
      by_cases same : fd = issue.fd
      · simp [same, UInt32.ofNat_add, UInt32.add_assoc]
      · simp [same, Ne.symm same] }

theorem issue (books : Books start traffic) {loopTs due : Int}
    (late : due ≤ loopTs) (answers : List SendAnswer) :
    Books start (traffic.issue proto cfg loopTs due answers) ∧
      (traffic.issue proto cfg loopTs due answers).m = traffic.m + 1 := by
  have lag : 0 ≤ loopTs - due := Int.sub_nonneg_of_le late
  have here : traffic.live.getD (traffic.m % traffic.live.length) 0 = start.turn traffic.m := by
    rw [books.live, turn]
  unfold Traffic.issue
  simp only [here]
  split
  next dead => exact ⟨books.skips dead, rfl⟩
  next notReady =>
  have ready : (traffic.conn (start.turn traffic.m)).state = .ready := by simpa using notReady
  have inside := ready_inside ready
  split
  next =>
    exact ⟨books.holds lag rfl ready rfl rfl rfl rfl fun _ => rfl, rfl⟩
  next =>
  generalize putHeader _ _ _ ++ blob _ _ _ _ = frame
  have sent : ∀ (issue : Issue) (c : Conn) (classCursor corpusCursor : Nat),
      issue.m = traffic.m → issue.fd = start.turn traffic.m →
      c.seq = (traffic.conn (start.turn traffic.m)).seq + 1 → Books start (setConn { traffic with
        m := traffic.m + 1
        classCursor, corpusCursor
        stats := { traffic.stats with
          selfLag := traffic.stats.selfLag.add (loopTs - due), sent := traffic.stats.sent + 1 }
        issued := traffic.issued ++ [issue] } (start.turn traffic.m) c) := by
    intro issue c classCursor corpusCursor number own seq
    refine books.sends lag rfl number own ready rfl rfl rfl rfl (fun fd => ?_) fun fd => ?_
    · rw [conn_setConn]
      split
      next same =>
        intro _
        rwa [same.1]
      next => exact id
    · rw [conn_setConn, own]
      by_cases same : fd = start.turn traffic.m
      · rw [if_pos ⟨same, inside⟩, if_pos same, seq, same]
      · rw [if_neg fun both => same both.1, if_neg same]
        rfl
  split
  · refine ⟨sent _ _ _ _ ?_ ?_ ?_, rfl⟩ <;> rfl
  · split
    · refine ⟨(sent _ _ _ _ ?_ ?_ ?_).served (Serves.epollMod _ _ _), rfl⟩ <;> rfl
    · refine ⟨sent _ _ _ _ ?_ ?_ ?_, rfl⟩ <;> rfl

theorem burst (books : Books start traffic) (begun loopTs : Int)
    (answers : Nat → List SendAnswer) (left : Nat) :
    Books start (traffic.burst proto cfg begun loopTs answers left) := by
  induction left generalizing traffic with
  | zero => exact books
  | succ left ih =>
      simp only [Traffic.burst]
      split
      next => exact books
      next early => exact ih (books.issue (Int.not_lt.mp early) _).1

theorem burst_m (books : Books start traffic)
    (positive : 0 < slot cfg start.live.length) (begun loopTs : Int)
    (answers : Nat → List SendAnswer) (left : Nat) :
    (traffic.burst proto cfg begun loopTs answers left).m =
      max traffic.m (min (traffic.m + left) (dueBy (slot cfg start.live.length) begun loopTs)) := by
  induction left generalizing traffic with
  | zero =>
      simp only [Traffic.burst]
      omega
  | succ left ih =>
      have due : traffic.m < dueBy (slot cfg start.live.length) begun loopTs ↔ _ :=
        lt_dueBy positive traffic.m
      simp only [Traffic.burst, books.live]
      split
      next early =>
        have none := not_congr due |>.mpr (Int.not_le.mpr early)
        omega
      next late =>
        have one := due.mpr (Int.not_lt.mp late)
        obtain ⟨next, step⟩ : Books start (traffic.issue proto cfg loopTs
            (begun + traffic.m * slot cfg start.live.length) (answers traffic.m)) ∧ _ :=
          books.issue (Int.not_lt.mp late) (answers traffic.m)
        rw [ih next, step]
        omega

theorem mainLoop (books : Books start traffic) (begun : Int)
    (turns : List Turn) : Books start (traffic.mainLoop proto cfg begun turns) := by
  induction turns generalizing traffic with
  | nil => exact books
  | cons turn turns ih =>
      simp only [Traffic.mainLoop]
      split
      · exact books
      have next : Books start (traffic.burst proto cfg begun turn.now turn.sends
          (max 1024 (traffic.live.length / 8))) := books.burst begun turn.now turn.sends _
      split
      · exact ih next
      · exact next
      · exact ih (next.served (Serves.each (fun traffic event => .service traffic proto cfg event) _ _))

/-- What the main loop took up is what the clock offered. -/
theorem mainLoop_m (books : Books start traffic)
    (positive : 0 < slot cfg start.live.length) (begun : Int) (turns : List Turn) :
    (traffic.mainLoop proto cfg begun turns).m =
      offered (slot cfg start.live.length) begun (begun + cfg.duration * 1000000000)
        (max 1024 (start.live.length / 8)) (turns.map Turn.clock) traffic.m := by
  induction turns generalizing traffic with
  | nil => rfl
  | cons turn turns ih =>
      simp only [Traffic.mainLoop, List.map_cons, offered, Turn.clock, books.live]
      split
      next => rfl
      have next : Books start (traffic.burst proto cfg begun turn.now turn.sends
          (max 1024 (start.live.length / 8))) := books.burst begun turn.now turn.sends _
      have pace : (traffic.burst proto cfg begun turn.now turn.sends
          (max 1024 (start.live.length / 8))).m = _ :=
        books.burst_m positive begun turn.now turn.sends _
      rw [← pace]
      cases turn.poll with
      | interrupted => simpa using ih next
      | failed => simp
      | ready events =>
          have serves := Serves.each (fun traffic event => .service traffic proto cfg event)
            (traffic.burst proto cfg begun turn.now turn.sends (max 1024 (start.live.length / 8)))
            events
          simpa [serves.m] using ih (next.served serves)

theorem drainLoop (deadline : Int) (turns : List Turn) (traffic : Traffic) :
    Serves traffic (traffic.drainLoop proto cfg deadline turns) := by
  induction turns generalizing traffic with
  | nil => exact .refl traffic
  | cons turn turns ih =>
      simp only [Traffic.drainLoop]
      split
      · exact .refl traffic
      split
      · exact ih traffic
      · exact .refl traffic
      · exact (Serves.each (fun traffic event => .drainService traffic proto cfg event) _ _).trans (ih _)

/-- A connection that is still ready had a message sent or held back in each of its turns. -/
theorem turns (books : Books start traffic) {fd : Nat} (ready : (traffic.conn fd).state = .ready) :
    (List.range traffic.m).countP (fun j => start.turn j = fd) =
      traffic.issued.countP (fun issue => issue.fd = fd) +
        traffic.held.countP fun j => start.turn j = fd := by
  have numbers : traffic.issued.countP (fun issue => issue.fd = fd) =
      (traffic.issued.map Issue.m).countP fun j => start.turn j = fd := by
    rw [List.countP_map]
    refine List.countP_congr fun issue member => ?_
    simp [books.own issue member]
  have once : (traffic.issued.map Issue.m ++ traffic.held).Nodup :=
    List.nodup_append.mpr ⟨books.order.imp Nat.ne_of_lt, books.heldOrder.imp Nat.ne_of_lt,
      fun j sent k held same => books.apart k held (same ▸ sent)⟩
  rw [numbers, ← List.countP_append, List.countP_eq_length_filter, List.countP_eq_length_filter]
  refine List.Perm.length_eq
    ((List.perm_ext_iff_of_nodup (List.nodup_range.filter _) (once.filter _)).mpr fun j => ?_)
  rw [List.mem_filter, List.mem_filter, List.mem_range, List.mem_append, decide_eq_true_eq]
  refine and_congr_left fun own => ⟨fun upTo => ?_, books.within j⟩
  by_contra missing
  exact (books.skipped j upTo missing).1 (own ▸ ready)

end Books

theorem slot_pos {cfg : Config} {n : Nat} (positive : 0 < slot cfg n) : 0 < n ∧ 0 < cfg.rate := by
  have whole : (1 : Rat) ≤ 1000000000 / (n * cfg.rate) := by
    have floor : (1 : Int) ≤ ⌊(1000000000 / (n * cfg.rate) : Rat)⌋ := positive
    exact_mod_cast Int.le_floor.mp floor
  have product : 0 < (n : Rat) * cfg.rate := by
    by_contra low
    have none : (1000000000 : Rat) / (n * cfg.rate) ≤ 0 :=
      div_nonpos_of_nonneg_of_nonpos (by norm_num) (not_lt.mp low)
    linarith
  have inhabited : 0 < n := by
    rcases Nat.eq_zero_or_pos n with rfl | more
    · simp at product
    · exact more
  exact ⟨inhabited, (mul_pos_iff_of_pos_left (by positivity)).mp product⟩

/-- However the server answers, the messages that were taken up are those that the clock
offered. Each is sent or held back, in its turn and once, for as long as its connection is not
lost, and what was late is on the books. -/
theorem schedule_open (proto : Proto) (cfg : Config) (script : Script) (conns : List Conn)
    (live : List Nat) (epoll : Nat → Option Interest) (lasts : 0 < cfg.duration)
    (positive : 0 < slot cfg live.length) :
    let start := begin conns live epoll
    let final := start.run proto cfg script
    final.m = offered (slot cfg live.length) script.start
        (script.start + cfg.duration * 1000000000) (max 1024 (live.length / 8))
        (script.turns.map Turn.clock) 0 ∧
      Books start final ∧
      ∀ fd, (final.conn fd).state = .ready →
        (List.range final.m).countP (fun j => start.turn j = fd) =
          final.issued.countP (fun issue => issue.fd = fd) +
            final.held.countP fun j => start.turn j = fd := by
  intro start final
  obtain ⟨inhabited, rate⟩ := slot_pos positive
  have some : start.live ≠ [] := List.length_pos_iff.mp inhabited
  have runs : ¬ (cfg.rate ≤ 0 ∨ cfg.duration ≤ 0 ∨ start.live = []) := by
    simp [not_le.mpr rate, not_le.mpr lasts, some]
  have books : Books start start := Books.begin conns live epoll
  have same : final = (start.mainLoop proto cfg script.start script.turns).drainLoop proto cfg
      (script.drainFrom + 1000000000) script.drain := if_neg runs
  have drains : Serves (start.mainLoop proto cfg script.start script.turns)
      ((start.mainLoop proto cfg script.start script.turns).drainLoop proto cfg
        (script.drainFrom + 1000000000) script.drain) := Books.drainLoop _ _ _
  have books : Books start final := by
    rw [same]
    exact (books.mainLoop script.start script.turns).served drains
  refine ⟨?_, books, fun fd => books.turns⟩
  rw [same, drains.m]
  exact (Books.begin conns live epoll).mainLoop_m positive script.start script.turns

/-- Two connections, of which the second is reset on its first send. -/
def resetStart : Traffic := begin [{ state := .ready }, { state := .ready }] [0, 1] fun _ => some ⟨false⟩

def resetConfig : Config := ⟨2, 2, 5, 1, 16, false, 0, false, []⟩

/-- The first look at the clock comes when four messages are due. -/
def resetScript : Script :=
  ⟨0, [⟨false, 350000000, fun m => [if m = 1 then .failed else .took 60], .ready []⟩], 400000000, []⟩

/-- The last of the four falls to the lost connection. -/
theorem schedule_open_reset :
    ((resetStart.run study resetConfig resetScript).m = offered (slot resetConfig 2) 0
        (0 + 1 * 1000000000) (max 1024 (2 / 8)) [(false, 350000000, false)] 0 ∧
      Books resetStart (resetStart.run study resetConfig resetScript) ∧
      ∀ fd, ((resetStart.run study resetConfig resetScript).conn fd).state = .ready →
        (List.range (resetStart.run study resetConfig resetScript).m).countP
            (fun j => resetStart.turn j = fd) =
          (resetStart.run study resetConfig resetScript).issued.countP (fun issue => issue.fd = fd) +
            (resetStart.run study resetConfig resetScript).held.countP
              fun j => resetStart.turn j = fd) ∧
      (resetStart.run study resetConfig resetScript).m = 4 ∧
      (resetStart.run study resetConfig resetScript).issued.map Issue.m = [0, 1, 2] :=
  ⟨schedule_open study resetConfig resetScript _ _ _ (by decide) (by decide +kernel),
    by decide +kernel, by decide +kernel⟩

end Traffic

end NetEngine.Bench
