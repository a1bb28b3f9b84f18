import Mathlib.Data.List.GetD
import NetEngine.Bench.Connect

/-! The accounts of the connect phase: four counters, a vector and a map that every
path of `run_connect` has to keep in step with the table of connections. -/

set_option autoImplicit false

namespace NetEngine.Bench.Connect

open Socket

/-! ## The table -/

/-- How many connections of a table are in state `connecting`. -/
def connecting (conns : List Conn) : Nat := conns.countP fun c => c.state = .connecting

def failures (reasons : List (Int × Nat)) : Nat := (reasons.map Prod.snd).sum

theorem failures_bump (err : Int) (reasons : List (Int × Nat)) :
    failures (bump err reasons) = failures reasons + 1 := by
  induction reasons with
  | nil => rfl
  | cons entry rest ih =>
      obtain ⟨key, count⟩ := entry
      simp only [bump]
      split
      · simp only [failures, List.map_cons, List.sum_cons]
        exact Nat.add_comm ..
      · split
        · simp only [failures, List.map_cons, List.sum_cons]
          exact Nat.add_right_comm ..
        · simp only [failures, List.map_cons, List.sum_cons] at ih ⊢
          rw [ih, Nat.add_assoc]

section
variable {state : Connect} {fd : Nat} {c : Conn}

theorem conn_setConn (inside : fd < state.conns.length) (other : Nat) :
    (state.setConn fd c).conn other = if other = fd then c else state.conn other := by
  simp only [conn, setConn, List.getD_eq_getElem?_getD, List.getElem?_set]
  by_cases same : fd = other
  · subst same
    simp [inside]
  · simp [same, Ne.symm same]

theorem conn_setConn_self (inside : fd < state.conns.length) : (state.setConn fd c).conn fd = c := by
  rw [conn_setConn inside, if_pos rfl]

theorem conn_setConn_other (inside : fd < state.conns.length) {other : Nat} (different : other ≠ fd) :
    (state.setConn fd c).conn other = state.conn other := by
  rw [conn_setConn inside, if_neg different]

/-- A descriptor past the end of the table reads as an empty entry. -/
theorem inside_of_state (busy : (state.conn fd).state ≠ .none) : fd < state.conns.length := by
  by_contra outside
  apply busy
  rw [conn, List.getD_eq_default _ _ (Nat.not_lt.mp outside)]

theorem connecting_setConn (inside : fd < state.conns.length) :
    connecting (state.setConn fd c).conns + (if (state.conn fd).state = .connecting then 1 else 0) =
      connecting state.conns + (if c.state = .connecting then 1 else 0) := by
  have here : state.conn fd = state.conns[fd] := List.getD_eq_getElem _ _ inside
  have counted : 0 < connecting state.conns ∨ (state.conns[fd]).state ≠ .connecting := by
    by_cases busy : (state.conns[fd]).state = .connecting
    · exact .inl (List.countP_pos_iff.mpr ⟨_, List.getElem_mem inside, decide_eq_true busy⟩)
    · exact .inr busy
  rw [here]
  simp only [connecting, setConn, List.countP_set inside, decide_eq_true_eq] at counted ⊢
  split
  next busy =>
    have positive := counted.resolve_right fun idle => idle busy
    omega
  · omega

theorem grow_spec (state : Connect) (fd : Nat) :
    ∃ conns, state.grow fd = { state with conns } ∧ fd < conns.length ∧
      (∀ other, conns.getD other {} = state.conn other) ∧ connecting conns = connecting state.conns := by
  unfold grow
  split
  next past =>
    refine ⟨_, rfl, ?_, ?_, ?_⟩
    · simp only [List.length_append, List.length_replicate]
      omega
    · intro other
      simp only [conn, List.getD_eq_getElem?_getD, List.getElem?_append, List.getElem?_replicate]
      split
      · rfl
      next outside =>
        rw [List.getElem?_eq_none (Nat.not_lt.mp outside)]
        split <;> rfl
    · simp [connecting, List.countP_append, List.countP_replicate]
  next inside => exact ⟨state.conns, rfl, Nat.not_le.mp inside, fun _ => rfl, rfl⟩

end

/-! ## The accounts -/

/-- Between any two steps every requested connection is in exactly one account. -/
structure Accounted (cfg : Settings) (state : Connect) : Prop where
  started : state.started = state.established + state.failed + state.inflight
  ready : ∀ fd, fd ∈ state.live ↔ (state.conn fd).state = .ready
  once : state.live.Nodup
  established : state.established = state.live.length
  inflight : state.inflight = connecting state.conns
  paced : state.inflight ≤ cfg.inflight
  reasons : state.failed = failures state.failReasons
  limit : state.started ≤ cfg.conns
  opened : ∀ fd, fd ∈ state.opened ↔ (state.conn fd).state ≠ .none
  openedOnce : state.opened.Nodup
  registered : ∀ fd, (state.epoll fd).isSome → (state.conn fd).state ≠ .none
  claimed : ∀ fd, (state.conn fd).state ≠ .none →
    0 ≤ (state.conn fd).index ∧ (state.conn fd).index < state.started
  apart : ∀ fd other, (state.conn fd).state ≠ .none → (state.conn other).state ≠ .none →
    (state.conn fd).index = (state.conn other).index → fd = other

theorem Accounted.begin {cfg : Settings} (conns : 0 ≤ cfg.conns) (inflight : 0 ≤ cfg.inflight)
    (size : Nat) : Accounted cfg (.begin size) := by
  have idle (fd : Nat) : ((Connect.begin size).conn fd).state = .none := by
    simp only [conn, Connect.begin, List.getD_eq_getElem?_getD, List.getElem?_replicate]
    split <;> rfl
  constructor
  case started => rfl
  case ready => intro fd; rw [idle]; simp [Connect.begin]
  case once => exact List.nodup_nil
  case established => rfl
  case inflight => simp [Connect.begin, connecting, List.countP_replicate]
  case paced => exact inflight
  case reasons => rfl
  case limit => exact conns
  case opened => intro fd; rw [idle]; simp [Connect.begin]
  case openedOnce => exact List.nodup_nil
  case registered => intro fd armed; cases armed
  case claimed => intro fd busy; exact absurd (idle fd) busy
  case apart => intro fd other busy; exact absurd (idle fd) busy

section
variable {cfg : Settings} {state after : Connect}

/-- What does not touch an account keeps them all. -/
theorem Accounted.same (accounted : Accounted cfg state) (started : after.started = state.started)
    (established : after.established = state.established) (failed : after.failed = state.failed)
    (inflight : after.inflight = state.inflight) (reasons : after.failReasons = state.failReasons)
    (live : after.live = state.live) (opened : after.opened = state.opened)
    (counts : connecting after.conns = connecting state.conns)
    (states : ∀ fd, (after.conn fd).state = (state.conn fd).state)
    (indices : ∀ fd, (state.conn fd).state ≠ .none → (after.conn fd).index = (state.conn fd).index)
    (armed : ∀ fd, (after.epoll fd).isSome → (state.epoll fd).isSome) : Accounted cfg after := by
  constructor
  case started => rw [started, established, failed, inflight, accounted.started]
  case ready => intro fd; rw [live, states, accounted.ready]
  case once => rw [live]; exact accounted.once
  case established => rw [established, live, accounted.established]
  case inflight => rw [inflight, counts, accounted.inflight]
  case paced => rw [inflight]; exact accounted.paced
  case reasons => rw [failed, reasons, accounted.reasons]
  case limit => rw [started]; exact accounted.limit
  case opened => intro fd; rw [opened, states, accounted.opened]
  case openedOnce => rw [opened]; exact accounted.openedOnce
  case registered => intro fd some; rw [states]; exact accounted.registered fd (armed fd some)
  case claimed =>
    intro fd busy
    rw [states] at busy
    rw [indices fd busy, started]
    exact accounted.claimed fd busy
  case apart =>
    intro fd other busy busyOther same
    rw [states] at busy busyOther
    rw [indices fd busy, indices other busyOther] at same
    exact accounted.apart fd other busy busyOther same

/-- An entry that keeps its state and its index. -/
theorem Accounted.setConn (accounted : Accounted cfg state) {fd : Nat} {c : Conn}
    (state_eq : c.state = (state.conn fd).state) (index_eq : c.index = (state.conn fd).index) :
    Accounted cfg (state.setConn fd c) := by
  by_cases inside : fd < state.conns.length
  · have counts := connecting_setConn (c := c) inside
    rw [state_eq] at counts
    refine accounted.same rfl rfl rfl rfl rfl rfl rfl (Nat.add_right_cancel counts) ?_ ?_ ?_
    · intro other
      rw [conn_setConn inside]
      split
      next same => rw [same, state_eq]
      · rfl
    · intro other _
      rw [conn_setConn inside]
      split
      next same => rw [same, index_eq]
      · rfl
    · exact fun _ armed => armed
  · have unchanged : state.setConn fd c = state := by
      rw [Connect.setConn, List.set_eq_of_length_le (Nat.not_lt.mp inside)]
    rwa [unchanged]

theorem Accounted.goto (accounted : Accounted cfg state) (point : Point) :
    Accounted cfg { state with point } :=
  accounted.same rfl rfl rfl rfl rfl rfl rfl rfl (fun _ => rfl) (fun _ _ => rfl) fun _ armed => armed

theorem Accounted.rearm (accounted : Accounted cfg state) (fd : Nat) (armed : Armed) :
    Accounted cfg (state.rearm fd armed) := by
  refine accounted.same rfl rfl rfl rfl rfl rfl rfl rfl (fun _ => rfl) (fun _ _ => rfl) ?_
  intro other some
  by_cases same : other = fd
  · subst same
    simpa [Connect.rearm] using some
  · simpa [Connect.rearm, Function.update_of_ne same] using some

/-! ## Moves between accounts -/

/-- An attempt that never gets a descriptor. -/
theorem Accounted.refused (accounted : Accounted cfg state) (err : Int)
    (more : state.started < cfg.conns) :
    Accounted cfg { state.fail err with started := state.started + 1 } := by
  constructor
  case started =>
    have sum := accounted.started
    simp only [fail]
    omega
  case ready => exact accounted.ready
  case once => exact accounted.once
  case established => exact accounted.established
  case inflight => exact accounted.inflight
  case paced => exact accounted.paced
  case reasons =>
    have sum := accounted.reasons
    simp only [fail, failures_bump]
    omega
  case limit => exact more
  case opened => exact accounted.opened
  case openedOnce => exact accounted.openedOnce
  case registered => exact accounted.registered
  case claimed =>
    intro fd busy
    have ⟨low, high⟩ := accounted.claimed fd busy
    exact ⟨low, Int.lt_trans high (Int.lt_succ _)⟩
  case apart => exact accounted.apart

/-- An attempt whose descriptor cannot be registered: it is closed again. -/
theorem Accounted.undone (accounted : Accounted cfg state) {fd : Nat} {c : Conn} (err : Int)
    (more : state.started < cfg.conns) (inside : fd < state.conns.length) (fresh : fd ∉ state.opened) :
    Accounted cfg { (({ state with opened := fd :: state.opened }.setConn fd c).fail err).drop fd with
      started := state.started + 1 } := by
  have idle : (state.conn fd).state = .none := not_not.mp fun busy => fresh ((accounted.opened fd).mpr busy)
  have reset := connecting_setConn (c := {}) inside
  have entry := conn_setConn (c := {}) inside
  rw [idle] at reset
  have twice : (state.conns.set fd c).set fd {} = state.conns.set fd {} := List.set_set ..
  refine (accounted.refused err more).same rfl rfl rfl rfl rfl rfl
    (List.erase_cons_head fd state.opened) ?_ ?_ ?_ ?_
  · simp only [drop, fail, Connect.setConn, twice]
    exact Nat.add_right_cancel reset
  · intro other
    simp only [drop, fail, Connect.setConn, conn, twice] at entry ⊢
    rw [entry]
    split
    next same => rw [same]; exact idle.symm
    · rfl
  · intro other busy
    have different : other ≠ fd := fun same => busy (same ▸ idle)
    simp only [drop, fail, Connect.setConn, conn, twice] at entry ⊢
    rw [entry, if_neg different]
  · intro other some
    by_cases same : other = fd
    · simp [drop, same] at some
    · simpa [drop, Function.update_of_ne same, Connect.setConn, fail] using some

/-- An attempt under way, on a descriptor that was not open. -/
theorem Accounted.begun (accounted : Accounted cfg state) {fd : Nat} {c : Conn} (armed : Armed)
    (inside : fd < state.conns.length) (fresh : fd ∉ state.opened)
    (room : state.inflight < cfg.inflight) (more : state.started < cfg.conns)
    (state_eq : c.state = .connecting) (index_eq : c.index = state.started) :
    Accounted cfg { state.setConn fd c with
      opened := fd :: state.opened
      epoll := Function.update state.epoll fd (some armed)
      inflight := state.inflight + 1
      started := state.started + 1 } := by
  have idle : (state.conn fd).state = .none := not_not.mp fun busy => fresh ((accounted.opened fd).mpr busy)
  have here := conn_setConn_self (c := c) inside
  have others (other : Nat) (different : other ≠ fd) := conn_setConn_other (c := c) inside different
  have later (other : Nat) (busy : (state.conn other).state ≠ .none) :
      (state.conn other).index ≠ state.started := Int.ne_of_lt (accounted.claimed other busy).2
  constructor
  case started =>
    have sum := accounted.started
    change state.started + 1 = state.established + state.failed + (state.inflight + 1)
    omega
  case ready =>
    intro other
    change other ∈ state.live ↔ ((state.setConn fd c).conn other).state = .ready
    by_cases same : other = fd
    · rw [same, here, state_eq, accounted.ready, idle]
      decide
    · rw [others other same, accounted.ready]
  case once => exact accounted.once
  case established => exact accounted.established
  case inflight =>
    have counts := connecting_setConn (c := c) inside
    have sum := accounted.inflight
    rw [idle, state_eq, if_neg (by decide), if_pos rfl] at counts
    change state.inflight + 1 = connecting (state.setConn fd c).conns
    omega
  case paced => exact room
  case reasons => exact accounted.reasons
  case limit => exact more
  case opened =>
    intro other
    change other ∈ fd :: state.opened ↔ ((state.setConn fd c).conn other).state ≠ .none
    by_cases same : other = fd
    · simp [same, here, state_eq]
    · rw [others other same, ← accounted.opened]
      simp [same]
  case openedOnce => exact List.nodup_cons.mpr ⟨fresh, accounted.openedOnce⟩
  case registered =>
    intro other some
    change ((state.setConn fd c).conn other).state ≠ .none
    by_cases same : other = fd
    · simp [same, here, state_eq]
    · rw [others other same]
      apply accounted.registered
      simpa [Function.update_of_ne same] using some
  case claimed =>
    intro other busy
    change 0 ≤ ((state.setConn fd c).conn other).index ∧
      ((state.setConn fd c).conn other).index < state.started + 1
    change ((state.setConn fd c).conn other).state ≠ .none at busy
    by_cases same : other = fd
    · have sum := accounted.started
      have count := accounted.inflight
      have kept := accounted.established
      have lost := accounted.reasons
      rw [same, here, index_eq]
      omega
    · rw [others other same] at busy ⊢
      have ⟨low, high⟩ := accounted.claimed other busy
      exact ⟨low, Int.lt_trans high (Int.lt_succ _)⟩
  case apart =>
    intro left right busyLeft busyRight equal
    change ((state.setConn fd c).conn left).state ≠ .none at busyLeft
    change ((state.setConn fd c).conn right).state ≠ .none at busyRight
    change ((state.setConn fd c).conn left).index = ((state.setConn fd c).conn right).index at equal
    by_cases sameLeft : left = fd
    · by_cases sameRight : right = fd
      · rw [sameLeft, sameRight]
      · rw [others right sameRight] at busyRight equal
        rw [sameLeft, here, index_eq] at equal
        exact absurd equal.symm (later right busyRight)
    · by_cases sameRight : right = fd
      · rw [others left sameLeft] at busyLeft equal
        rw [sameRight, here, index_eq] at equal
        exact absurd equal (later left busyLeft)
      · rw [others left sameLeft] at busyLeft equal
        rw [others right sameRight] at busyRight equal
        exact accounted.apart left right busyLeft busyRight equal

/-- What is closed leaves the table, whatever account it was in. -/
theorem Accounted.dropped (accounted : Accounted cfg state) {fd : Nat} (busy : (state.conn fd).state ≠ .none)
    (after_eq : after.conns = (state.drop fd).conns) (opened_eq : after.opened = (state.drop fd).opened)
    (epoll_eq : after.epoll = (state.drop fd).epoll) (started_eq : after.started = state.started)
    (started : after.started = after.established + after.failed + after.inflight)
    (ready : ∀ other, other ∈ after.live ↔ other ∈ state.live ∧ other ≠ fd) (once : after.live.Nodup)
    (established : after.established = after.live.length)
    (inflight : after.inflight = state.inflight - if (state.conn fd).state = .connecting then 1 else 0)
    (reasons : after.failed = failures after.failReasons) : Accounted cfg after := by
  have inside := inside_of_state busy
  have entry (other : Nat) : after.conn other = if other = fd then {} else state.conn other := by
    rw [← conn_setConn inside]
    simp only [conn, after_eq, drop]
  have kept {other : Nat} (still : (after.conn other).state ≠ .none) :
      other ≠ fd ∧ after.conn other = state.conn other := by
    by_cases same : other = fd
    · exact absurd (by rw [entry, if_pos same]) still
    · exact ⟨same, by rw [entry, if_neg same]⟩
  constructor
  case started => exact started
  case ready =>
    intro other
    rw [ready, entry]
    by_cases same : other = fd
    · simp [same]
    · simp [same, accounted.ready]
  case once => exact once
  case established => exact established
  case inflight =>
    have counts := connecting_setConn (c := {}) inside
    have sum := accounted.inflight
    rw [if_neg (show ({} : Conn).state ≠ .connecting by decide)] at counts
    rw [inflight, after_eq]
    change _ = ((connecting (state.setConn fd {}).conns : Nat) : Int)
    by_cases waiting : (state.conn fd).state = .connecting
    · rw [if_pos waiting] at counts ⊢
      omega
    · rw [if_neg waiting] at counts ⊢
      omega
  case paced =>
    have room := accounted.paced
    rw [inflight]
    split <;> omega
  case reasons => exact reasons
  case limit => rw [started_eq]; exact accounted.limit
  case opened =>
    intro other
    rw [opened_eq, entry]
    change other ∈ state.opened.erase fd ↔ _
    rw [accounted.openedOnce.mem_erase_iff, accounted.opened]
    by_cases same : other = fd
    · simp [same]
    · simp [same]
  case openedOnce => rw [opened_eq]; exact accounted.openedOnce.erase fd
  case registered =>
    intro other some
    rw [epoll_eq] at some
    by_cases same : other = fd
    · simp [drop, same] at some
    · rw [entry, if_neg same]
      apply accounted.registered
      simpa [drop, Function.update_of_ne same, Connect.setConn] using some
  case claimed =>
    intro other still
    have ⟨_, same⟩ := kept still
    rw [same] at still ⊢
    rw [started_eq]
    exact accounted.claimed other still
  case apart =>
    intro left right busyLeft busyRight equal
    have ⟨_, sameLeft⟩ := kept busyLeft
    have ⟨_, sameRight⟩ := kept busyRight
    rw [sameLeft] at busyLeft equal
    rw [sameRight] at busyRight equal
    exact accounted.apart left right busyLeft busyRight equal

/-- A connect that is refused. -/
theorem Accounted.failed (accounted : Accounted cfg state) {fd : Nat} (err : Int)
    (waiting : (state.conn fd).state = .connecting) :
    Accounted cfg ({ state.fail err with inflight := state.inflight - 1 }.drop fd) := by
  have sum := accounted.started
  have reasons := accounted.reasons
  have apart : fd ∉ state.live := fun member => by
    rw [accounted.ready, waiting] at member
    cases member
  refine accounted.dropped (show (state.conn fd).state ≠ .none by rw [waiting]; decide) rfl rfl rfl rfl ?_ ?_ ?_ ?_ ?_ ?_
  · simp only [drop, Connect.setConn, fail]
    omega
  · intro other
    refine ⟨fun member => ⟨member, ?_⟩, And.left⟩
    rintro rfl
    exact apart member
  · exact accounted.once
  · exact accounted.established
  · rw [if_pos waiting]
    rfl
  · simp only [drop, Connect.setConn, fail, failures_bump]
    omega

/-- A connection that dies after it was established. -/
theorem Accounted.lost (accounted : Accounted cfg state) {fd : Nat} (err : Int)
    (alive : (state.conn fd).state = .ready) :
    Accounted cfg ({ ({ state with established := state.established - 1 } : Connect).fail err with
      live := state.live.erase fd }.drop fd) := by
  have sum := accounted.started
  have reasons := accounted.reasons
  have member := (accounted.ready fd).mpr alive
  refine accounted.dropped (show (state.conn fd).state ≠ .none by rw [alive]; decide) rfl rfl rfl rfl ?_ ?_ ?_ ?_ ?_ ?_
  · simp only [drop, Connect.setConn, fail]
    omega
  · intro other
    exact accounted.once.mem_erase_iff.trans and_comm
  · exact accounted.once.erase fd
  · have length := List.length_erase_of_mem member
    have some := List.length_pos_of_mem member
    have size := accounted.established
    simp only [drop, Connect.setConn, fail]
    omega
  · rw [if_neg (by rw [alive]; decide), Int.sub_zero]
    rfl
  · simp only [drop, Connect.setConn, fail, failures_bump]
    omega

/-- A connect that succeeds. -/
theorem Accounted.connected (accounted : Accounted cfg state) {fd : Nat} {c : Conn}
    (waiting : (state.conn fd).state = .connecting) (state_eq : c.state = .ready)
    (index_eq : c.index = (state.conn fd).index) :
    Accounted cfg ({ state with
      inflight := state.inflight - 1
      established := state.established + 1
      live := state.live ++ [fd] }.setConn fd c) := by
  have busy : (state.conn fd).state ≠ .none := by rw [waiting]; decide
  have inside := inside_of_state busy
  have entry := conn_setConn (c := c) inside
  have states (other : Nat) : ((state.setConn fd c).conn other).state ≠ .none ↔
      (state.conn other).state ≠ .none := by
    rw [entry]
    split
    next same => simp [same, state_eq, waiting]
    · rfl
  have indices (other : Nat) : ((state.setConn fd c).conn other).index = (state.conn other).index := by
    rw [entry]
    split
    next same => rw [same, index_eq]
    · rfl
  have apart : fd ∉ state.live := fun member => by
    rw [accounted.ready, waiting] at member
    cases member
  constructor
  case started =>
    have sum := accounted.started
    simp only [Connect.setConn]
    omega
  case ready =>
    intro other
    change other ∈ state.live ++ [fd] ↔ ((state.setConn fd c).conn other).state = .ready
    rw [entry, List.mem_append, List.mem_singleton, accounted.ready]
    by_cases same : other = fd
    · simp [same, state_eq]
    · simp [same]
  case once =>
    exact List.nodup_append.mpr ⟨accounted.once, List.nodup_singleton fd, fun left member right inside same =>
      apart (List.mem_singleton.mp inside ▸ same ▸ member)⟩
  case established =>
    have size := accounted.established
    simp only [Connect.setConn, List.length_append, List.length_singleton]
    omega
  case inflight =>
    have counts := connecting_setConn (c := c) inside
    have sum := accounted.inflight
    rw [waiting, state_eq, if_pos rfl, if_neg (by decide)] at counts
    change state.inflight - 1 = connecting (state.setConn fd c).conns
    omega
  case paced =>
    have room := accounted.paced
    simp only [Connect.setConn]
    omega
  case reasons => exact accounted.reasons
  case limit => exact accounted.limit
  case opened => intro other; exact (accounted.opened other).trans (states other).symm
  case openedOnce => exact accounted.openedOnce
  case registered => intro other some; exact (states other).mpr (accounted.registered other some)
  case claimed =>
    intro other still
    have same := indices other
    change 0 ≤ ((state.setConn fd c).conn other).index ∧
      ((state.setConn fd c).conn other).index < state.started
    rw [same]
    exact accounted.claimed other ((states other).mp still)
  case apart =>
    intro left right busyLeft busyRight equal
    change ((state.setConn fd c).conn left).index = ((state.setConn fd c).conn right).index at equal
    rw [indices, indices] at equal
    exact accounted.apart left right ((states left).mp busyLeft) ((states right).mp busyRight) equal

end

/-! ## Steps -/

section
variable {cfg : Settings} {state : Connect}

theorem Accounted.start (accounted : Accounted cfg state) (dial : Dial) (added : Except Int Unit)
    (room : state.inflight < cfg.inflight) (more : state.started < cfg.conns)
    (fresh : ∀ fd, dial.socket = .ok fd → fd ∉ state.opened) :
    Accounted cfg (state.start cfg dial added) := by
  unfold Connect.start
  cases connected : startConnect cfg state.started dial with
  | error err => exact accounted.refused err more
  | ok dialled =>
      obtain ⟨fd, source⟩ := dialled
      have closed : fd ∉ state.opened := fresh fd (startConnect_ok connected).1
      have idle : (state.conn fd).state = .none :=
        not_not.mp fun busy => closed ((accounted.opened fd).mpr busy)
      obtain ⟨conns, grown, inside, entries, counts⟩ :=
        grow_spec { state with opened := fd :: state.opened } fd
      dsimp only
      rw [grown]
      have here : Accounted cfg { state with conns } :=
        accounted.same rfl rfl rfl rfl rfl rfl rfl counts (fun other => congrArg Conn.state (entries other))
          (fun other _ => congrArg Conn.index (entries other)) fun _ armed => armed
      cases added with
      | error err => exact here.undone err more inside closed
      | ok _ => exact here.begun ⟨false, true⟩ inside closed room more rfl rfl

theorem Accounted.resolve (accounted : Accounted cfg state) (proto : Proto) (event : Event)
    (waiting : (state.conn event.fd).state = .connecting) :
    Accounted cfg (state.resolve proto cfg event) := by
  unfold Connect.resolve
  split
  · exact accounted.failed _ waiting
  · dsimp only
    generalize flushPending _ event.sends = flushed
    obtain ⟨rest, usable⟩ := flushed
    have connected := accounted.connected (c := { state.conn event.fd with state := .ready, pending := rest })
      waiting rfl rfl
    split
    · have inside : event.fd < state.conns.length := inside_of_state (by rw [waiting]; decide)
      have apart : event.fd ∉ state.live := fun member => by
        rw [accounted.ready, waiting] at member
        cases member
      have last : (state.live ++ [event.fd]).dropLast = (state.live ++ [event.fd]).erase event.fd := by
        rw [List.dropLast_concat, List.erase_append_right _ apart, List.erase_cons_head, List.append_nil]
      have lost := connected.lost event.errno (congrArg Conn.state (conn_setConn_self inside))
      simp only [Connect.setConn] at lost ⊢
      rw [last]
      exact lost
    · exact connected.rearm _ _

/-- An update of the table that keeps the connection's state. -/
theorem state_setConn {fd : Nat} {c : Conn} (same : c.state = (state.conn fd).state) (other : Nat) :
    ((state.setConn fd c).conn other).state = (state.conn other).state := by
  by_cases inside : fd < state.conns.length
  · rw [conn_setConn inside]
    split
    next equal => rw [equal, same]
    · rfl
  · rw [setConn, List.set_eq_of_length_le (Nat.not_lt.mp inside)]

theorem Accounted.flush (accounted : Accounted cfg state) (event : Event) :
    Accounted cfg (state.flush event).1 ∧
      ((state.flush event).1.conn event.fd).state = (state.conn event.fd).state := by
  simp only [Connect.flush]
  generalize flushPending _ event.sends = flushed
  obtain ⟨rest, usable⟩ := flushed
  have kept : Accounted cfg (state.setConn event.fd { state.conn event.fd with pending := rest }) :=
    accounted.setConn rfl rfl
  have same := @state_setConn state event.fd { state.conn event.fd with pending := rest } rfl event.fd
  split
  · exact ⟨kept.rearm _ _, same⟩
  · exact ⟨kept, same⟩

theorem Accounted.discard (accounted : Accounted cfg state) (event : Event) :
    Accounted cfg (state.discard event).1 ∧
      ((state.discard event).1.conn event.fd).state = (state.conn event.fd).state :=
  ⟨accounted.setConn rfl rfl,
    state_setConn (c := { state.conn event.fd with rx := [] }) rfl event.fd⟩

theorem Accounted.service (accounted : Accounted cfg state) (event : Event)
    (alive : (state.conn event.fd).state = .ready) : Accounted cfg (state.service event) := by
  unfold Connect.service
  have first : ∀ after : Connect × Bool, after = (if event.writable then state.flush event else (state, true)) →
      Accounted cfg after.1 ∧ (after.1.conn event.fd).state = .ready := by
    rintro after rfl
    split
    · exact (accounted.flush event).imp_right fun same => same.trans alive
    · exact ⟨accounted, alive⟩
  generalize (if event.writable then state.flush event else (state, true)) = flushed at first ⊢
  obtain ⟨kept, ready⟩ := first flushed rfl
  have second : ∀ after : Connect × Bool,
      after = (if flushed.2 ∧ event.readable then flushed.1.discard event else (flushed.1, flushed.2)) →
      Accounted cfg after.1 ∧ (after.1.conn event.fd).state = .ready := by
    rintro after rfl
    split
    · exact (kept.discard event).imp_right fun same => same.trans ready
    · exact ⟨kept, ready⟩
  dsimp only
  generalize (if flushed.2 ∧ event.readable then flushed.1.discard event else (flushed.1, flushed.2)) =
    drained at second ⊢
  obtain ⟨kept, ready⟩ := second drained rfl
  split
  · exact kept.lost _ ready
  · exact kept

theorem Accounted.handle (accounted : Accounted cfg state) (proto : Proto) (event : Event) :
    Accounted cfg (state.handle proto cfg event) := by
  unfold Connect.handle
  cases phase : (state.conn event.fd).state with
  | connecting => exact accounted.resolve proto event phase
  | ready => exact accounted.service event phase
  | none | dead => exact accounted

theorem Accounted.leave (accounted : Accounted cfg state) (how : Exit) :
    Accounted cfg (state.leave how) := by
  apply Accounted.goto
  generalize state.live = live
  induction live generalizing state with
  | nil => exact accounted
  | cons fd live ih => exact ih (accounted.setConn rfl rfl)

/-- No counter leaves the range of the `int` that `--conns` was read into. -/
theorem Accounted.fits (accounted : Accounted cfg state) :
    (0 ≤ state.established ∧ state.established ≤ cfg.conns) ∧ (0 ≤ state.failed ∧ state.failed ≤ cfg.conns) ∧
      (0 ≤ state.inflight ∧ state.inflight ≤ cfg.conns) ∧ 0 ≤ state.started ∧ state.started ≤ cfg.conns := by
  have sum := accounted.started
  have kept := accounted.established
  have lost := accounted.reasons
  have under := accounted.inflight
  have limit := accounted.limit
  omega

/-- `conns[fd]` of a reported event is inside the table. -/
theorem Accounted.inside (accounted : Accounted cfg state) {fd : Nat} (armed : (state.epoll fd).isSome) :
    fd < state.conns.length :=
  inside_of_state (accounted.registered fd armed)

/-- Every step of the loops keeps the accounts. -/
theorem Accounted.step {proto : Proto} {after : Connect} (accounted : Accounted cfg state)
    (step : Step proto cfg state after) : Accounted cfg after := by
  cases step with
  | stopped | counted | broken | settled => exact accounted.leave _
  | turn | filled | interrupted | woken | served => exact accounted.goto _
  | start dial added _ room more fresh => exact accounted.start dial added room more fresh
  | event => exact (accounted.handle proto _).goto _

end

/-! ## Runs -/

/-- What `parse_args` promises about the two counts that the loops compare with. -/
theorem parseArgs_counts {args : List Arg} {cfg : Settings} (parsed : parseArgs args = some cfg) :
    0 < cfg.conns ∧ 0 < cfg.inflight := by
  obtain ⟨read, _, checked⟩ := Option.bind_eq_some_iff.mp parsed
  unfold Settings.check at checked
  split at checked
  · cases checked
  next positive =>
    push Not at positive
    split at checked
    · cases checked
    · split at checked
      · cases checked
      · split at checked
        · cases checked
        · obtain rfl := Option.some.inj checked
          exact ⟨positive.1, positive.2.2.2⟩

theorem Reached.accounted {args : List Arg} {cfg : Settings} (parsed : parseArgs args = some cfg)
    {proto : Proto} {size : Nat} {state : Connect} (reached : Reached proto cfg size state) :
    Accounted cfg state := by
  have ⟨conns, inflight⟩ := parseArgs_counts parsed
  induction reached with
  | refl => exact .begin conns.le inflight.le size
  | tail _ step accounted => exact accounted.step step

theorem leave_eq (how : Exit) (state : Connect) :
    ∃ conns, state.leave how = { state with conns, point := .left how } := by
  have cleared : ∀ (live : List Nat) (state : Connect), ∃ conns,
      live.foldl (fun state fd => state.setConn fd { state.conn fd with rx := [] }) state =
        { state with conns } := by
    intro live
    induction live with
    | nil => exact fun state => ⟨state.conns, rfl⟩
    | cons fd live ih => exact fun state => ih (state.setConn fd { state.conn fd with rx := [] })
  obtain ⟨conns, same⟩ := cleared state.live state
  exact ⟨conns, by rw [leave, same]⟩

theorem start_point (cfg : Settings) (dial : Dial) (added : Except Int Unit) (state : Connect) :
    (state.start cfg dial added).point = state.point := by
  unfold Connect.start
  cases startConnect cfg state.started dial with
  | error err => rfl
  | ok dialled =>
      obtain ⟨conns, grown, _⟩ := grow_spec { state with opened := dialled.fd :: state.opened } dialled.fd
      dsimp only
      rw [grown]
      cases added <;> rfl

/-- Why a normal end is one: nothing is under way, and nothing is left to start. -/
theorem Reached.finished {cfg : Settings} {proto : Proto} {size : Nat} {state : Connect}
    (reached : Reached proto cfg size state) {how : Exit} (left : state.point = .left how)
    (normal : how = .counted ∨ how = .settled) :
    cfg.conns ≤ state.established + state.failed ∨ (state.inflight = 0 ∧ cfg.conns ≤ state.started) := by
  cases reached with
  | refl => cases left
  | @tail before _ _ step =>
      have ended (other : Exit) (same : (before.leave other).point = .left how) : other = how := by
        obtain ⟨conns, eq⟩ := leave_eq other before
        rw [eq] at same
        cases same
        rfl
      cases step with
      | counted _ done =>
          obtain ⟨conns, eq⟩ := leave_eq .counted before
          rw [eq]
          exact .inl (Int.not_lt.mp done)
      | settled _ idle done =>
          obtain ⟨conns, eq⟩ := leave_eq .settled before
          rw [eq]
          exact .inr ⟨idle, done⟩
      | stopped => cases ended .stopped left; rcases normal with same | same <;> cases same
      | broken => cases ended .broken left; rcases normal with same | same <;> cases same
      | start dial added filling =>
          rw [start_point, filling] at left
          cases left
      | turn | filled | interrupted | woken | event | served => cases left

/-- The connect phase loses count of nothing, and ends only when everything is counted. -/
theorem connect_accounted {args : List Arg} {cfg : Settings} (parsed : parseArgs args = some cfg)
    {proto : Proto} {size : Nat} {state : Connect} (reached : Reached proto cfg size state) :
    state.started = state.established + state.failed + state.inflight ∧
      (∀ fd, fd ∈ state.live ↔ (state.conn fd).state = .ready) ∧ state.live.Nodup ∧
      state.established = state.live.length ∧
      state.inflight = connecting state.conns ∧ state.inflight ≤ cfg.inflight ∧
      state.failed = failures state.failReasons ∧
      (∀ fd, (state.conn fd).state ≠ .none →
        0 ≤ (state.conn fd).index ∧ (state.conn fd).index < state.started) ∧
      (∀ fd other, (state.conn fd).state ≠ .none → (state.conn other).state ≠ .none →
        (state.conn fd).index = (state.conn other).index → fd = other) ∧
      (state.point = .left .counted ∨ state.point = .left .settled →
        state.established + state.failed = cfg.conns ∧ state.started = cfg.conns ∧ state.inflight = 0) := by
  have accounted := reached.accounted parsed
  refine ⟨accounted.started, accounted.ready, accounted.once, accounted.established, accounted.inflight,
    accounted.paced, accounted.reasons, accounted.claimed, accounted.apart, fun left => ?_⟩
  have sum := accounted.started
  have limit := accounted.limit
  have under := accounted.inflight
  have done : cfg.conns ≤ state.established + state.failed ∨
      (state.inflight = 0 ∧ cfg.conns ≤ state.started) := by
    rcases left with left | left
    · exact reached.finished left (.inl rfl)
    · exact reached.finished left (.inr rfl)
  omega

/-- One attempt that cannot be registered, then one established on the same descriptor. -/
theorem connect_accounted_reuse : ∃ state : Connect, state.live = [5] ∧
    state.established + state.failed = 2 ∧ state.started = 2 ∧ state.inflight = 0 := by
  let cfg : Settings := { conns := 2 }
  let dial : Dial := ⟨.ok 5, 0, .ok (), .error EINPROGRESS⟩
  let event : Event := ⟨5, false, true, false, 0, [], [], 0⟩
  have begun : Reached study cfg 8 (.begin 8) := .refl
  have turn := begun.tail (.turn rfl (by decide))
  have refused := turn.tail (.start dial (.error 28) rfl (by decide) (by decide) fun _ _ => List.not_mem_nil)
  have again := refused.tail (.start dial (.ok ()) rfl (by decide) (by decide) fun _ _ => List.not_mem_nil)
  have filled := again.tail (.filled rfl (by decide))
  have woken := filled.tail (.woken [event] rfl (by decide) fun _ one => by
    rw [List.mem_singleton.mp one]
    rfl)
  have served := (woken.tail (.event rfl)).tail (.served rfl)
  have left := served.tail (.counted rfl (by decide))
  have parsed : parseArgs [.conns 2] = some cfg := rfl
  have accounted := connect_accounted parsed left
  exact ⟨_, rfl, accounted.2.2.2.2.2.2.2.2.2 (.inl rfl)⟩

end NetEngine.Bench.Connect
