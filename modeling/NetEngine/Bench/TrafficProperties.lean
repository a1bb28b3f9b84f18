import Mathlib.Data.Finset.Card
import NetEngine.Bench.Traffic

/-! Connection losses of `run_traffic`. Every path to `dead` but one goes through
`lose`; the accounts keep the two kinds of dead connection apart. -/

set_option autoImplicit false

namespace NetEngine.Bench

open Socket

/-- A hard error met while a scheduled message was being sent. -/
def Issue.hard (issue : Issue) : Bool := breaks issue.offered issue.answers

theorem sendFrame_usable (pending frame : Bytes) (answers : List SendAnswer) :
    (sendFrame pending frame answers).2 = false ↔
      breaks (pending.length + frame.length) answers = true := by
  unfold sendFrame flushPending
  split
  · have broken := sendLoop_broken_iff (pending ++ frame) answers
    rw [List.length_append] at broken
    simpa using broken
  · next empty =>
    have none : pending = [] := by simpa using empty
    have broken := sendLoop_broken_iff frame answers
    subst none
    rw [List.length_nil, Nat.zero_add, ← broken]
    cases how : (sendLoop frame answers).how <;> simp [how]

/-! ## The parser counts no losses -/

@[simp] theorem sample_lost (recvTs : Int) (node : UInt32) (stats : Stats) (payload : Bytes) :
    (sample recvTs node stats payload).lostConns = stats.lostConns := by
  unfold sample
  split
  · rfl
  · split
    · rfl
    · split
      · rfl
      · simp only
        split
        · rfl
        · split <;> rfl

@[simp] theorem tickEntries_lost (recvTs : Int) (node : UInt32) (fuel : Nat) (stats : Stats)
    (payload : Bytes) : (tickEntries recvTs node fuel stats payload).lostConns = stats.lostConns := by
  induction fuel generalizing stats payload with
  | zero => rfl
  | succ fuel ih =>
      simp only [tickEntries]
      split
      · rfl
      · split
        · rfl
        · simp [ih]

@[simp] theorem handleFrame_lost (proto : Proto) (recvTs : Int) (node : UInt32) (stats : Stats)
    (type : UInt16) (payload : Bytes) :
    (handleFrame proto recvTs node stats type payload).lostConns = stats.lostConns := by
  unfold handleFrame
  split
  · simp
  · simp only
    split <;> simp

@[simp] theorem consumeFrames_lost (proto : Proto) (recvTs : Int) (node : UInt32) (fuel : Nat)
    (stats : Stats) (rx : Bytes) :
    (consumeFrames proto recvTs node fuel stats rx).2.lostConns = stats.lostConns := by
  induction fuel generalizing stats rx with
  | zero => rfl
  | succ fuel ih =>
      simp only [consumeFrames]
      split
      · rfl
      · split
        · rfl
        · split
          · rfl
          · simp [ih]

namespace Traffic

/-! ## The connection table -/

theorem conn_setConn (traffic : Traffic) (fd other : Nat) (c : Conn) :
    (traffic.setConn fd c).conn other =
      if other = fd ∧ fd < traffic.conns.length then c else traffic.conn other := by
  simp only [conn, setConn, List.getD_eq_getElem?_getD, List.getElem?_set]
  by_cases same : fd = other
  · subst same
    by_cases inside : fd < traffic.conns.length
    · simp [inside]
    · simp [inside]
  · simp [same, Ne.symm same]

@[simp] theorem setConn_length (traffic : Traffic) (fd : Nat) (c : Conn) :
    (traffic.setConn fd c).conns.length = traffic.conns.length := List.length_set

theorem ready_inside {traffic : Traffic} {fd : Nat} (ready : (traffic.conn fd).state = .ready) :
    fd < traffic.conns.length := by
  by_contra outside
  have missing : traffic.conn fd = {} := by
    simp [conn, List.getD_eq_getElem?_getD, List.getElem?_eq_none (Nat.le_of_not_gt outside)]
  rw [missing] at ready
  cases ready

theorem state_setConn {traffic : Traffic} {fd : Nat} {c : Conn}
    (same : c.state = (traffic.conn fd).state) (other : Nat) :
    ((traffic.setConn fd c).conn other).state = (traffic.conn other).state := by
  rw [conn_setConn]
  split
  · next at_ => rw [same, at_.1]
  · rfl

theorem epollMod_none {traffic : Traffic} {fd other : Nat} {interest : Interest}
    (absent : traffic.epoll other = none) : (traffic.epollMod fd interest).epoll other = none := by
  simp only [epollMod]
  split
  · next same => rw [← same, absent]; rfl
  · exact absent

/-! ## Accounts -/

/-- Connections that died in a scheduled send. -/
def dropped (traffic : Traffic) : List Nat := (traffic.issued.filter Issue.hard).map Issue.fd

/-- Every connection that died since the start was either closed and counted, or dropped. -/
structure Accounts (start traffic : Traffic) : Prop where
  length : traffic.conns.length = start.conns.length
  counted : traffic.stats.lostConns = traffic.closed.length
  once : traffic.closed.Nodup
  deregistered : ∀ fd ∈ traffic.closed, traffic.epoll fd = none
  apart : ∀ fd ∈ traffic.closed, fd ∉ traffic.dropped
  wasReady : ∀ fd, (traffic.conn fd).state = .ready → (start.conn fd).state = .ready
  died : ∀ fd, ((start.conn fd).state = .ready ∧ (traffic.conn fd).state = .dead) ↔
    (fd ∈ traffic.closed ∨ fd ∈ traffic.dropped)

theorem Accounts.same {start before after : Traffic} (accounts : Accounts start before)
    (length : after.conns.length = before.conns.length)
    (states : ∀ fd, (after.conn fd).state = (before.conn fd).state)
    (lost : after.stats.lostConns = before.stats.lostConns) (closed : after.closed = before.closed)
    (dropped : after.dropped = before.dropped)
    (absent : ∀ fd, before.epoll fd = none → after.epoll fd = none) : Accounts start after where
  length := length.trans accounts.length
  counted := by rw [lost, closed, accounts.counted]
  once := closed ▸ accounts.once
  deregistered := fun fd member => absent fd (accounts.deregistered fd (closed ▸ member))
  apart := by
    rw [closed, dropped]
    exact accounts.apart
  wasReady := fun fd ready => accounts.wasReady fd ((states fd).symm.trans ready)
  died := by
    intro fd
    rw [states fd, closed, dropped]
    exact accounts.died fd

theorem Accounts.setConn {start traffic : Traffic} (accounts : Accounts start traffic) {fd : Nat}
    {c : Conn} (same : c.state = (traffic.conn fd).state) :
    Accounts start (traffic.setConn fd c) :=
  accounts.same (setConn_length ..) (state_setConn same) rfl rfl rfl fun _ absent => absent

theorem Accounts.epollMod {start traffic : Traffic} (accounts : Accounts start traffic) (fd : Nat)
    (interest : Interest) : Accounts start (traffic.epollMod fd interest) :=
  accounts.same rfl (fun _ => rfl) rfl rfl rfl fun _ absent => epollMod_none absent

theorem Accounts.ready_open {start traffic : Traffic} (accounts : Accounts start traffic) {fd : Nat}
    (ready : (traffic.conn fd).state = .ready) : fd ∉ traffic.closed ∧ fd ∉ traffic.dropped := by
  have alive : ¬ (fd ∈ traffic.closed ∨ fd ∈ traffic.dropped) := by
    intro dead
    have died := ((accounts.died fd).mpr dead).2
    rw [ready] at died
    cases died
  exact not_or.mp alive

theorem Accounts.lose {start traffic : Traffic} (accounts : Accounts start traffic) {fd : Nat}
    (ready : (traffic.conn fd).state = .ready) : Accounts start (traffic.lose fd) := by
  have inside := ready_inside ready
  obtain ⟨notClosed, notDropped⟩ := accounts.ready_open ready
  have conns : ∀ other, ((traffic.lose fd).conn other).state =
      if other = fd then .dead else (traffic.conn other).state := by
    intro other
    have set := conn_setConn traffic fd other { traffic.conn fd with state := .dead }
    simp only [inside, and_true] at set
    change ((traffic.setConn fd _).conn other).state = _
    rw [set]
    split <;> rfl
  have closed : (traffic.lose fd).closed = traffic.closed ++ [fd] := rfl
  have dropped : (traffic.lose fd).dropped = traffic.dropped := rfl
  exact {
    length := (setConn_length ..).trans accounts.length
    counted := by
      rw [closed, List.length_append, ← accounts.counted]
      rfl
    once := by
      rw [closed, List.nodup_append]
      refine ⟨accounts.once, List.nodup_singleton fd, ?_⟩
      intro other member last only
      rintro rfl
      exact notClosed (List.mem_singleton.mp only ▸ member)
    deregistered := by
      intro other member
      simp only [Traffic.lose]
      split
      · rfl
      · next different =>
        rw [closed, List.mem_append] at member
        rcases member with old | new
        · exact accounts.deregistered other old
        · exact absurd (List.mem_singleton.mp new) different
    apart := by
      intro other member
      rw [closed, List.mem_append] at member
      rw [dropped]
      rcases member with old | new
      · exact accounts.apart other old
      · rw [List.mem_singleton.mp new]
        exact notDropped
    wasReady := by
      intro other
      rw [conns other]
      split
      · intro impossible; cases impossible
      · exact accounts.wasReady other
    died := by
      intro other
      rw [conns other, closed, dropped, List.mem_append, List.mem_singleton]
      by_cases this : other = fd
      · subst this
        simp [accounts.wasReady other ready]
      · simp only [this, if_false, or_false]
        exact accounts.died other }

/-- A scheduled send that fails kills its connection outside the accounts' first half. -/
private theorem Accounts.drop {start before after : Traffic} (accounts : Accounts start before)
    {issue : Issue} (ready : (before.conn issue.fd).state = .ready) (hard : issue.hard = true)
    (length : after.conns.length = before.conns.length)
    (states : ∀ fd, (after.conn fd).state =
      if fd = issue.fd then .dead else (before.conn fd).state)
    (lost : after.stats.lostConns = before.stats.lostConns) (closed : after.closed = before.closed)
    (issued : after.issued = before.issued ++ [issue]) (epoll : after.epoll = before.epoll) :
    Accounts start after := by
  obtain ⟨notClosed, notDropped⟩ := accounts.ready_open ready
  have dropped : after.dropped = before.dropped ++ [issue.fd] := by
    simp [Traffic.dropped, issued, hard]
  exact {
    length := length.trans accounts.length
    counted := by rw [lost, closed, accounts.counted]
    once := closed ▸ accounts.once
    deregistered := by
      rw [closed, epoll]
      exact accounts.deregistered
    apart := by
      intro fd member
      rw [closed] at member
      rw [dropped, List.mem_append, List.mem_singleton, not_or]
      refine ⟨accounts.apart fd member, ?_⟩
      rintro rfl
      exact notClosed member
    wasReady := by
      intro fd
      rw [states fd]
      split
      · intro impossible; cases impossible
      · exact accounts.wasReady fd
    died := by
      intro fd
      rw [states fd, closed, dropped, List.mem_append, List.mem_singleton]
      by_cases this : fd = issue.fd
      · subst this
        simp [accounts.wasReady _ ready]
      · simp only [this, if_false, or_false]
        exact accounts.died fd }

/-! ## One turn of each loop -/

theorem Accounts.issue {start traffic : Traffic} (accounts : Accounts start traffic)
    (proto : Proto) (cfg : Config) (loopTs due : Int) (answers : List SendAnswer) :
    Accounts start (traffic.issue proto cfg loopTs due answers) := by
  unfold Traffic.issue
  simp only
  split
  · exact accounts.same rfl (fun _ => rfl) rfl rfl rfl fun _ absent => absent
  · next notReady =>
    have ready : (traffic.conn (traffic.live.getD (traffic.m % traffic.live.length) 0)).state =
        .ready := by simpa using notReady
    generalize traffic.live.getD (traffic.m % traffic.live.length) 0 = fd at ready ⊢
    split
    · exact accounts.same rfl (fun _ => rfl) rfl rfl rfl fun _ absent => absent
    · generalize putHeader _ _ _ ++ blob _ _ _ _ = frame
      have inside := ready_inside ready
      have usable := sendFrame_usable (traffic.conn fd).pending frame answers
      split
      · next broken =>
        have hard : (Issue.mk traffic.m fd ((traffic.conn fd).pending.length + frame.length) answers).hard =
            true := usable.mp (by simpa using broken)
        refine @Accounts.drop start traffic _ accounts ⟨traffic.m, fd, _, answers⟩ ready hard ?_ ?_ rfl rfl rfl
          rfl
        · simp
        · intro other
          rw [conn_setConn]
          simp only [inside, and_true]
          split <;> rfl
      · next fine =>
        have soft : (Issue.mk traffic.m fd ((traffic.conn fd).pending.length + frame.length) answers).hard =
            false := by
          rw [Issue.hard, ← Bool.not_eq_true, ← usable]
          simpa using fine
        have sending : ∀ stats m classCursor corpusCursor, stats.lostConns = traffic.stats.lostConns →
            Accounts start { traffic with
              stats, m, classCursor, corpusCursor
              issued := traffic.issued ++ [⟨traffic.m, fd,
                (traffic.conn fd).pending.length + frame.length, answers⟩] } := by
          intro stats m classCursor corpusCursor lost
          refine accounts.same rfl (fun _ => rfl) lost rfl ?_ fun _ absent => absent
          simp [Traffic.dropped, soft]
        split
        · refine Accounts.epollMod (Accounts.setConn (sending _ _ _ _ ?_) ?_) _ _
          · rfl
          · rfl
        · refine Accounts.setConn (sending _ _ _ _ ?_) ?_
          · rfl
          · rfl

theorem Accounts.burst {start traffic : Traffic} (accounts : Accounts start traffic)
    (proto : Proto) (cfg : Config) (begun loopTs : Int) (answers : Nat → List SendAnswer)
    (left : Nat) : Accounts start (traffic.burst proto cfg begun loopTs answers left) := by
  induction left generalizing traffic with
  | zero => exact accounts
  | succ left ih =>
      simp only [Traffic.burst]
      split
      · exact accounts
      · exact ih (accounts.issue proto cfg loopTs _ _)

theorem Accounts.stats {start traffic : Traffic} (accounts : Accounts start traffic) {stats : Stats}
    (lost : stats.lostConns = traffic.stats.lostConns) :
    Accounts start { traffic with stats } :=
  accounts.same rfl (fun _ => rfl) lost rfl rfl fun _ absent => absent

theorem Accounts.flush {start traffic : Traffic} (accounts : Accounts start traffic)
    (event : Ready) : Accounts start (traffic.flush event).1 := by
  unfold Traffic.flush
  simp only
  split
  · exact (accounts.setConn (by rfl)).epollMod _ _
  · exact accounts.setConn (by rfl)

theorem flush_state (traffic : Traffic) (event : Ready) (fd : Nat) :
    ((traffic.flush event).1.conn fd).state = (traffic.conn fd).state := by
  unfold Traffic.flush
  simp only
  split
  · exact state_setConn (by rfl) fd
  · exact state_setConn (by rfl) fd

theorem Accounts.receive {start traffic : Traffic} (accounts : Accounts start traffic)
    (proto : Proto) (cfg : Config) (event : Ready) :
    Accounts start (traffic.receive proto cfg event).1 := by
  unfold Traffic.receive
  refine (accounts.setConn (by rfl)).stats ?_
  simp [Traffic.setConn]

theorem receive_state (traffic : Traffic) (proto : Proto) (cfg : Config) (event : Ready)
    (fd : Nat) :
    ((traffic.receive proto cfg event).1.conn fd).state = (traffic.conn fd).state :=
  state_setConn (by rfl) fd

theorem Accounts.service {start traffic : Traffic} (accounts : Accounts start traffic)
    (proto : Proto) (cfg : Config) (event : Ready) :
    Accounts start (traffic.service proto cfg event) := by
  unfold Traffic.service
  split
  · exact accounts
  · next notReady =>
    have ready : (traffic.conn event.fd).state = .ready := by simpa using notReady
    -- the two halves keep the accounts and leave the connection ready
    have flushed : Accounts start
          (if event.writable then traffic.flush event else (traffic, true)).1 ∧
        ((if event.writable then traffic.flush event else (traffic, true)).1.conn event.fd).state =
          .ready := by
      split
      · exact ⟨accounts.flush event, (flush_state traffic event event.fd).trans ready⟩
      · exact ⟨accounts, ready⟩
    obtain ⟨kept, stillReady⟩ := flushed
    generalize (if event.writable then traffic.flush event else (traffic, true)) = flushed at kept stillReady ⊢
    obtain ⟨middle, alive⟩ := flushed
    simp only at kept stillReady ⊢
    have received : Accounts start
          (if alive = true ∧ event.readable = true then middle.receive proto cfg event
            else (middle, alive)).1 ∧
        ((if alive = true ∧ event.readable = true then middle.receive proto cfg event
            else (middle, alive)).1.conn event.fd).state = .ready := by
      split
      · exact ⟨kept.receive proto cfg event,
          (receive_state middle proto cfg event event.fd).trans stillReady⟩
      · exact ⟨kept, stillReady⟩
    obtain ⟨accounted, lastReady⟩ := received
    generalize (if alive = true ∧ event.readable = true then middle.receive proto cfg event
      else (middle, alive)) = received at accounted lastReady ⊢
    split
    · exact accounted.lose lastReady
    · exact accounted

theorem Accounts.drainService {start traffic : Traffic} (accounts : Accounts start traffic)
    (proto : Proto) (cfg : Config) (event : Ready) :
    Accounts start (traffic.drainService proto cfg event) := by
  unfold Traffic.drainService
  split
  · exact accounts
  · next notReady =>
    have ready : (traffic.conn event.fd).state = .ready := by simpa using notReady
    split
    · exact accounts
    · have read : ∀ rx bytesIn, Accounts start { traffic.setConn event.fd
          { traffic.conn event.fd with rx } with stats := { traffic.stats with bytesIn } } :=
        fun rx bytesIn => (accounts.setConn (by rfl)).stats (by rfl)
      simp only
      split
      · exact (read _ _).lose ((state_setConn (by rfl) event.fd).trans ready)
      · refine ((read _ _).setConn (by exact (state_setConn (by rfl) event.fd).symm)).stats ?_
        simp [Traffic.setConn]

/-! ## The whole run -/

theorem Accounts.mainLoop {start traffic : Traffic} (accounts : Accounts start traffic)
    (proto : Proto) (cfg : Config) (begun : Int) (turns : List Turn) :
    Accounts start (traffic.mainLoop proto cfg begun turns) := by
  induction turns generalizing traffic with
  | nil => exact accounts
  | cons turn turns ih =>
      simp only [Traffic.mainLoop]
      split
      · exact accounts
      · have bursted := accounts.burst proto cfg begun turn.now turn.sends
          (max 1024 (traffic.live.length / 8))
        split
        · exact ih bursted
        · exact bursted
        · next events _ =>
          refine ih ?_
          exact List.foldlRecOn events (Traffic.service proto cfg) bursted
            fun _ kept event _ => kept.service proto cfg event

theorem Accounts.drainLoop {start traffic : Traffic} (accounts : Accounts start traffic)
    (proto : Proto) (cfg : Config) (deadline : Int) (turns : List Turn) :
    Accounts start (traffic.drainLoop proto cfg deadline turns) := by
  induction turns generalizing traffic with
  | nil => exact accounts
  | cons turn turns ih =>
      simp only [Traffic.drainLoop]
      split
      · exact accounts
      · split
        · exact ih accounts
        · exact accounts
        · next events _ =>
          refine ih ?_
          exact List.foldlRecOn events (Traffic.drainService proto cfg) accounts
            fun _ kept event _ => kept.drainService proto cfg event

theorem Accounts.run {start traffic : Traffic} (accounts : Accounts start traffic)
    (proto : Proto) (cfg : Config) (script : Script) :
    Accounts start (traffic.run proto cfg script) := by
  unfold Traffic.run
  split
  · exact accounts
  · exact (accounts.mainLoop proto cfg script.start script.turns).drainLoop proto cfg _ _

theorem Accounts.begin (conns : List Conn) (live : List Nat) (epoll : Nat → Option Interest) :
    Accounts (.begin conns live epoll) (.begin conns live epoll) where
  length := rfl
  counted := rfl
  once := List.nodup_nil
  deregistered := by simp [Traffic.begin]
  apart := by simp [Traffic.begin]
  wasReady := fun _ ready => ready
  died := by
    intro fd
    constructor
    · rintro ⟨ready, dead⟩
      rw [ready] at dead
      cases dead
    · simp [Traffic.begin, Traffic.dropped]

/-- The connections that were ready at the start and are dead at the end. -/
def lostSince (start final : Traffic) : Finset Nat :=
  (Finset.range start.conns.length).filter
    fun fd => (start.conn fd).state = .ready ∧ (final.conn fd).state = .dead

theorem Accounts.mem_lostSince {start final : Traffic} (accounts : Accounts start final) (fd : Nat) :
    fd ∈ lostSince start final ↔ fd ∈ final.closed ∨ fd ∈ final.dropped := by
  rw [lostSince, Finset.mem_filter, Finset.mem_range, ← accounts.died fd]
  constructor
  · exact fun both => both.2
  · intro both
    exact ⟨ready_inside both.1, both⟩

/-- The gate's count and the clean-up of the dead connections. -/
def LossesCounted (start final : Traffic) : Prop :=
  final.stats.lostConns = (lostSince start final).card ∧
    ∀ fd ∈ lostSince start final, final.epoll fd = none ∧ final.closed.count fd = 1

theorem dropped_nil_iff {traffic : Traffic} :
    traffic.dropped = [] ↔ ∀ issue ∈ traffic.issued, issue.hard = false := by
  simp [Traffic.dropped, List.filter_eq_nil_iff]

/-- The losses are accounted for in exactly the runs where no scheduled send met
a hard error: that path marks the connection dead and does nothing else. -/
theorem connection_losses_counted_iff (proto : Proto) (cfg : Config) (script : Script)
    (conns : List Conn) (live : List Nat) (epoll : Nat → Option Interest) :
    let start := begin conns live epoll
    let final := start.run proto cfg script
    LossesCounted start final ↔ ∀ issue ∈ final.issued, issue.hard = false := by
  intro start final
  have accounts : Accounts start final := (Accounts.begin conns live epoll).run proto cfg script
  rw [← dropped_nil_iff]
  constructor
  · rintro ⟨_, cleaned⟩
    cases dropped : final.dropped with
    | nil => rfl
    | cons fd rest =>
        have member : fd ∈ final.dropped := by simp [dropped]
        have once := (cleaned fd ((accounts.mem_lostSince fd).mpr (.inr member))).2
        have closed : fd ∈ final.closed := List.count_pos_iff.mp (by omega)
        exact absurd member (accounts.apart fd closed)
  · intro none
    have same : lostSince start final = final.closed.toFinset := by
      ext fd
      rw [accounts.mem_lostSince, none, List.mem_toFinset]
      simp
    refine ⟨?_, ?_⟩
    · rw [same, List.toFinset_card_of_nodup accounts.once, accounts.counted]
    · intro fd member
      rw [same, List.mem_toFinset] at member
      exact ⟨accounts.deregistered fd member, List.count_eq_one_of_mem accounts.once member⟩

/-- One connection whose first scheduled send is reset. -/
def resetAtSend : Script := ⟨0, [⟨false, 0, fun _ => [.failed], .ready []⟩], 0, []⟩

theorem reset_at_send_uncounted :
    ¬ LossesCounted (begin [{ state := .ready }] [0] fun _ => some ⟨false⟩)
      ((begin [{ state := .ready }] [0] fun _ => some ⟨false⟩).run study
        ⟨1, 1, 1, 1, 0, false, 0, false, []⟩ resetAtSend) := by
  rintro ⟨_, cleaned⟩
  have member : 0 ∈ lostSince (begin [{ state := .ready }] [0] fun _ => some ⟨false⟩)
      ((begin [{ state := .ready }] [0] fun _ => some ⟨false⟩).run study
        ⟨1, 1, 1, 1, 0, false, 0, false, []⟩ resetAtSend) := by decide +kernel
  have registered := (cleaned 0 member).1
  revert registered
  decide +kernel

end Traffic

end NetEngine.Bench
