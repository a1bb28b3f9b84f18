import NetEngine.Engine.RingBufferSingle
import NetEngine.Epoll.ChatFrames
import NetEngine.Epoll.ServerSds

/-! The send side of `server_sds.cpp`: the linear queue is the byte queue of the
event loop, and sending leaves rooms, links and received bytes alone. -/

set_option autoImplicit false

namespace NetEngine.Epoll.ServerSds

open Socket RingBuffer

def rules (k : Kernel) (cfg : Config) : Rules Bytes where
  batchFlush := cfg.batchFlush
  coalesce := false
  shortRead := cfg.shortRead
  modifies done := ∃ clock, k.modify clock = done
  full size fd := cfg.maxConns ≤ size ∨ cfg.slots ≤ fd
  resolve clients name room echo :=
    text room = text name ∧ echo = room.take name.length ∧
      ((∃ fd client, clients fd = some client ∧ client.room = some room) ∨
        room.take name.length = name ∧ ∀ fd client other, clients fd = some client →
          client.room = some other → text other ≠ text name)

namespace Conn

variable {c : Conn} {rooms : Nat → Room} {bytes : Bytes} {frame count : Nat}

/-- The queue lies inside of the region. -/
structure Queue (c : Conn) : Prop where
  ordered : c.txHead ≤ c.txTail
  inside : c.txTail ≤ txRegion

theorem out_length (c : Conn) : c.out.length = c.used := Region.read_length ..

theorem out_nonempty (queue : c.Queue) : c.out ≠ [] ↔ c.txHead < c.txTail := by
  have ordered := queue.ordered
  rw [← List.length_pos_iff, out_length, used]
  omega

/-- After the move there is room behind the tail for what the cap allows. -/
theorem compact_spec (queue : c.Queue) (fits : c.used + frame ≤ sendCap) :
    (c.compact frame).out = c.out ∧ (c.compact frame).txHead ≤ (c.compact frame).txTail ∧
      (c.compact frame).txTail + frame ≤ txRegion := by
  unfold compact
  split
  · refine ⟨?_, Nat.zero_le _, ?_⟩
    · have whole := Region.read_write c.tx 0 c.out
      rwa [out_length] at whole
    · change c.used + frame ≤ sendCap + maxFrame
      omega
  next room => exact ⟨rfl, queue.ordered, Nat.not_lt.mp room⟩

theorem put_out (ordered : c.txHead ≤ c.txTail) : (c.put bytes).out = c.out ++ bytes := by
  have tail : c.txHead + c.used = c.txTail := Nat.add_sub_cancel' ordered
  have used : (c.put bytes).used = c.used + bytes.length := by
    simp only [put, Conn.used]
    omega
  rw [out, used]
  change Region.read (Region.write c.tx c.txTail bytes) c.txHead (c.used + bytes.length) = _
  rw [Region.read_append, tail, Region.read_write,
    Region.read_write_behind _ _ (Nat.le_of_eq tail)]
  rfl

theorem sent_out (queue : c.Queue) (within : count ≤ c.used) :
    (c.sent count).out = c.out.drop count := by
  have ordered := queue.ordered
  simp only [used] at within
  unfold sent
  split
  next whole =>
    have length : count = c.out.length := by
      rw [out_length, used]
      omega
    rw [length, List.drop_length]
    rfl
  · have rest : (Conn.used { c with txHead := c.txHead + count }) = c.used - count := by
      simp only [used]
      omega
    rw [out, rest]
    exact (Region.read_drop c.tx within).symm

theorem compact_client : (c.compact frame).client rooms = { c.client rooms with
    pending := (c.compact frame).out } := by
  unfold compact
  split <;> rfl

/-- Sending moves the queue and the marks of a connection only. -/
structure Keeps (c later : Conn) : Prop where
  room : later.room = c.room
  prev : later.roomPrev = c.roomPrev
  next : later.roomNext = c.roomNext
  input : later.input = c.input
  closing : c.closing = true → later.closing = true
  queue : c.Queue → later.Queue

theorem Keeps.refl (c : Conn) : c.Keeps c := ⟨rfl, rfl, rfl, rfl, id, id⟩

theorem Keeps.trans {first second third : Conn} (left : first.Keeps second)
    (right : second.Keeps third) : first.Keeps third :=
  ⟨right.room.trans left.room, right.prev.trans left.prev, right.next.trans left.next,
    right.input.trans left.input, fun closing => right.closing (left.closing closing),
    fun queue => right.queue (left.queue queue)⟩

theorem put_keeps (fits : c.used + bytes.length ≤ sendCap) :
    c.Keeps ((c.compact bytes.length).put bytes) := by
  refine ⟨?_, ?_, ?_, ?_, ?_, fun queue => ?_⟩
  · simp only [put, compact]; split <;> rfl
  · simp only [put, compact]; split <;> rfl
  · simp only [put, compact]; split <;> rfl
  · simp only [put, compact]; split <;> rfl
  · intro closing
    simp only [put, compact]
    split <;> exact closing
  · obtain ⟨_, ordered, room⟩ := compact_spec queue fits
    exact ⟨Nat.le_add_right_of_le ordered, room⟩

theorem sent_keeps (within : count ≤ c.used) : c.Keeps (c.sent count) := by
  unfold sent
  split
  · exact ⟨rfl, rfl, rfl, rfl, id, fun _ => ⟨Nat.le_refl 0, Nat.zero_le _⟩⟩
  · refine ⟨rfl, rfl, rfl, rfl, id, fun queue => ⟨?_, queue.inside⟩⟩
    have ordered := queue.ordered
    simp only [used] at within ⊢
    omega

end Conn

namespace World

variable {k : Kernel} {cfg : Config} {w after : World} {fd : Fd} {type : UInt16} {payload : Bytes}

def state (w : World) : State Bytes :=
  ⟨w.clients, w.totalLive, w.doomed, w.dirty, w.running, w.trace⟩

@[simp] theorem state_clients :
    w.state.clients fd = (w.conns fd).map (Conn.client w.rooms) := rfl
@[simp] theorem state_emit (obs : Obs Bytes) : (w.emit obs).state = w.state.emit obs := rfl
@[simp] theorem state_asked : w.asked.state = w.state := rfl

theorem live_iff : w.state.Live fd ↔ ∃ c, w.conns fd = some c := by
  cases found : w.conns fd <;> simp [State.Live, found]

theorem open_iff : w.state.Open fd ↔ (w.conns fd).elim true (·.closing) = false := by
  cases found : w.conns fd with
  | none => simp [State.Open, found]
  | some c => simp [State.Open, found, Conn.client]

theorem conn_of_open (opened : w.state.Open fd) :
    ∃ c, w.conns fd = some c ∧ c.closing = false := by
  rw [open_iff] at opened
  cases found : w.conns fd with
  | none => rw [found] at opened; cases opened
  | some c => exact ⟨c, rfl, by rwa [found] at opened⟩

theorem closing_of_shut {c : Conn} (shut : ¬ w.state.Open fd) (found : w.conns fd = some c) :
    c.closing = true := by
  simpa [open_iff, found] using shut

theorem state_update {change : Conn → Conn} {image : Client Bytes → Client Bytes}
    (commutes : ∀ c, w.conns fd = some c →
      (change c).client w.rooms = image (c.client w.rooms)) :
    (w.update fd change).state = w.state.update fd image := by
  have clients : (w.update fd change).clients = (w.state.update fd image).clients := by
    funext other
    by_cases same : other = fd
    · subst same
      cases found : w.conns other with
      | none => simp [World.clients, World.update, found]
      | some c => simp [World.clients, World.update, found, commutes c found]
    · simp [World.clients, World.update, same]
  simp only [state, clients]
  rfl

/-- Every queue lies inside of its region. -/
def Queues (w : World) : Prop := ∀ fd c, w.conns fd = some c → c.Queue

/-- Sending leaves everything else of the world alone. -/
structure Sends (w after : World) : Prop where
  conns : ∀ fd, Option.Rel Conn.Keeps (w.conns fd) (after.conns fd)
  rooms : after.rooms = w.rooms
  roomFree : after.roomFree = w.roomFree
  roomIndex : after.roomIndex = w.roomIndex
  faulted : after.faulted = w.faulted
  totalLive : after.totalLive = w.totalLive

namespace Sends

theorem of_conns (rooms : after.rooms = w.rooms) (roomFree : after.roomFree = w.roomFree)
    (roomIndex : after.roomIndex = w.roomIndex) (faulted : after.faulted = w.faulted)
    (totalLive : after.totalLive = w.totalLive) (conns : after.conns = w.conns) :
    Sends w after := by
  refine ⟨fun fd => ?_, rooms, roomFree, roomIndex, faulted, totalLive⟩
  rw [conns]
  cases w.conns fd with
  | none => exact .none
  | some c => exact .some (.refl c)

theorem refl (w : World) : Sends w w := of_conns rfl rfl rfl rfl rfl rfl

theorem emit (obs : Obs Bytes) : Sends w (w.emit obs) := of_conns rfl rfl rfl rfl rfl rfl

theorem trans {middle : World} (left : Sends w middle) (right : Sends middle after) :
    Sends w after := by
  refine ⟨fun fd => ?_, right.rooms.trans left.rooms, right.roomFree.trans left.roomFree,
    right.roomIndex.trans left.roomIndex, right.faulted.trans left.faulted,
    right.totalLive.trans left.totalLive⟩
  have first := left.conns fd
  have second := right.conns fd
  cases before : w.conns fd with
  | none =>
      rw [before] at first
      cases middleFound : middle.conns fd with
      | none => rwa [middleFound] at second
      | some c => rw [middleFound] at first; cases first
  | some c =>
      rw [before] at first
      cases middleFound : middle.conns fd with
      | none => rw [middleFound] at first; cases first
      | some other =>
          rw [middleFound] at first second
          cases afterFound : after.conns fd with
          | none => rw [afterFound] at second; cases second
          | some last =>
              rw [afterFound] at second
              cases first with
              | some keeps => cases second with | some more => exact .some (keeps.trans more)

theorem update {change : Conn → Conn}
    (keeps : ∀ c, w.conns fd = some c → c.Keeps (change c)) : Sends w (w.update fd change) := by
  refine ⟨fun other => ?_, rfl, rfl, rfl, rfl, rfl⟩
  by_cases own : other = fd
  · subst own
    simp only [World.update, Function.update_self]
    cases found : w.conns other with
    | none => exact .none
    | some c => exact .some (keeps c found)
  · simp only [World.update, Function.update_of_ne own]
    exact (refl w).conns other

theorem present (sends : Sends w after) {c : Conn} (found : w.conns fd = some c) :
    ∃ later, after.conns fd = some later ∧ c.Keeps later := by
  have both := sends.conns fd
  rw [found] at both
  cases last : after.conns fd with
  | none => rw [last] at both; cases both
  | some later => rw [last] at both; cases both with | some keeps => exact ⟨later, rfl, keeps⟩

theorem back (sends : Sends w after) {later : Conn} (found : after.conns fd = some later) :
    ∃ c, w.conns fd = some c ∧ c.Keeps later := by
  have both := sends.conns fd
  rw [found] at both
  cases first : w.conns fd with
  | none => rw [first] at both; cases both
  | some c => rw [first] at both; cases both with | some keeps => exact ⟨c, rfl, keeps⟩

theorem queues (sends : Sends w after) (queues : Queues w) : Queues after := by
  intro fd later found
  obtain ⟨c, before, keeps⟩ := sends.back found
  exact keeps.queue (queues fd c before)

end Sends

/-! ## The operations -/

theorem updateEpollMask_sends : Sends w (w.updateEpollMask k fd) := by
  unfold updateEpollMask
  split
  · exact .refl w
  · simp only
    split
    · exact .refl w
    · cases k.modify w.clock with
      | false => exact .of_conns rfl rfl rfl rfl rfl rfl
      | true =>
          have start : Sends w w.asked := .of_conns rfl rfl rfl rfl rfl rfl
          refine start.trans (Sends.trans (Sends.update fun c _ => ?_) (.emit _))
          exact ⟨rfl, rfl, rfl, rfl, id, fun queue => ⟨queue.1, queue.2⟩⟩

theorem state_updateEpollMask (queues : Queues w) :
    (w.updateEpollMask k fd).state = w.state.updateEpollMask (k.modify w.clock) fd := by
  cases found : w.conns fd with
  | none => simp [updateEpollMask, State.updateEpollMask, found]
  | some c =>
      have want : decide (c.out ≠ []) = decide (c.txHead < c.txTail) :=
        decide_eq_decide.mpr (Conn.out_nonempty (queues fd c found))
      simp only [updateEpollMask, State.updateEpollMask, found, state_clients, Option.map_some,
        Conn.client, want]
      split
      · rfl
      · rw [state_emit]
        cases k.modify w.clock with
        | false => rfl
        | true => exact congrArg (State.emit · _) (state_update fun _ _ => rfl)

theorem doom_sends : Sends w (w.doom fd) := by
  unfold doom
  split
  · exact .refl w
  · split
    · exact .refl w
    · have marked : Sends w (w.update fd fun c => { c with closing := true }) :=
        .update fun c _ => ⟨rfl, rfl, rfl, rfl, fun _ => rfl, fun queue => ⟨queue.1, queue.2⟩⟩
      exact marked.trans (.of_conns rfl rfl rfl rfl rfl rfl)

theorem state_doom : (w.doom fd).state = w.state.doom fd := by
  cases found : w.conns fd with
  | none => simp [doom, State.doom, found]
  | some c =>
      cases closing : c.closing with
      | true => simp [doom, State.doom, found, Conn.client, closing]
      | false =>
          have marked : (w.update fd fun c => { c with closing := true }).state =
              w.state.update fd fun client => { client with closing := true } :=
            state_update fun _ _ => rfl
          simp only [doom, State.doom, found, state_clients, Option.map_some, Conn.client, closing,
            Bool.false_eq_true, if_false, ← marked]
          rfl

theorem queueSend_sends : Sends w (queueSend type payload w fd) := by
  unfold queueSend
  split
  · exact .refl w
  next c found =>
    split
    · exact .refl w
    · split
      · exact .refl w
      · simp only
        split
        · exact (Sends.emit _).trans doom_sends
        next fits =>
          refine Sends.trans (Sends.update fun c' again => ?_) (.emit _)
          rw [found, Option.some.injEq] at again
          subst again
          have length : headerSize + payload.length = (Framing.encode type payload).length :=
            (Framing.encode_length type payload).symm
          rw [length] at fits ⊢
          exact Conn.put_keeps (Nat.not_lt.mp fits)

theorem state_queueSend (queues : Queues w) :
    (queueSend type payload w fd).state = State.queueSend type payload w.state fd := by
  cases found : w.conns fd with
  | none => simp [queueSend, State.queueSend, found]
  | some c =>
      have queue := queues fd c found
      have length : c.out.length + headerSize + payload.length =
          c.used + (headerSize + payload.length) := by
        rw [Conn.out_length, Nat.add_assoc]
      simp only [queueSend, State.queueSend, State.enqueue, found, state_clients, Option.map_some,
        Conn.client, length]
      split
      · rfl
      · split
        · rfl
        · split
          · exact state_doom
          next fits =>
            rw [state_emit]
            refine congrArg (State.emit · _) (state_update fun c' again => ?_)
            rw [found, Option.some.injEq] at again
            subst again
            obtain ⟨same, ordered, _⟩ := Conn.compact_spec queue (Nat.not_lt.mp fits)
            have put : ((c.compact (headerSize + payload.length)).put
                (Framing.encode type payload)).out = _ := Conn.put_out ordered
            rw [same] at put
            have moved := @Conn.compact_client c w.rooms (headerSize + payload.length)
            calc ((c.compact (headerSize + payload.length)).put
                  (Framing.encode type payload)).client w.rooms
                = { (c.compact (headerSize + payload.length)).client w.rooms with
                    pending := ((c.compact (headerSize + payload.length)).put
                      (Framing.encode type payload)).out } := rfl
              _ = { c.client w.rooms with pending := c.out ++ Framing.encode type payload } := by
                  rw [moved, put]
              _ = _ := rfl

theorem sent_within {c : Conn} {answers : List SendAnswer} :
    (sendLoop c.out answers).sent.length ≤ c.used := by
  have whole := congrArg List.length (sendLoop_conserves c.out answers)
  rw [List.length_append, Conn.out_length] at whole
  omega

/-- The world behind the send loop of a connection that has bytes to send. -/
def taken (w : World) (fd : Fd) (loop : Sent UInt8) : World :=
  (w.asked.update fd fun c => c.sent loop.sent.length).emit (.send fd loop.sent loop.how)

theorem taken_sends {c : Conn} {answers : List SendAnswer} (found : w.conns fd = some c) :
    Sends w (w.taken fd (sendLoop c.out answers)) := by
  have start : Sends w w.asked := .of_conns rfl rfl rfl rfl rfl rfl
  refine start.trans (Sends.trans (Sends.update fun c' again => ?_) (.emit _))
  have same : c = c' := Option.some.inj (found.symm.trans again)
  subst same
  exact Conn.sent_keeps sent_within

theorem state_taken {c : Conn} {answers : List SendAnswer} (queues : Queues w)
    (found : w.conns fd = some c) :
    (w.taken fd (sendLoop c.out answers)).state = w.state.sent fd (sendLoop c.out answers) := by
  refine congrArg (State.emit · _) (state_update fun c' again => ?_)
  have same : c = c' := Option.some.inj (found.symm.trans again)
  subst same
  have rest : (c.sent (sendLoop c.out answers).sent.length).out = (sendLoop c.out answers).rest := by
    rw [Conn.sent_out (queues fd c found) sent_within]
    exact sendLoop_rest c.out answers
  calc (c.sent (sendLoop c.out answers).sent.length).client w.rooms
      = { c.client w.rooms with pending := (c.sent (sendLoop c.out answers).sent.length).out } := by
        unfold Conn.sent
        split <;> rfl
    _ = { c.client w.rooms with pending := (sendLoop c.out answers).rest } := by rw [rest]

theorem flushSend_sends : Sends w (w.flushSend k fd) := by
  unfold flushSend
  split
  · exact .refl w
  next c found =>
    split
    · have taken : Sends w (w.taken fd (sendLoop c.out (k.send w.clock))) := taken_sends found
      simp only
      split
      · exact taken.trans doom_sends
      · exact taken.trans updateEpollMask_sends
    · exact updateEpollMask_sends

theorem state_flushSend (cfg : Config) (queues : Queues w) :
    ∃ done, (rules k cfg).modifies done ∧
      (w.flushSend k fd).state = w.state.flushSend (k.send w.clock) done fd := by
  cases found : w.conns fd with
  | none =>
      refine ⟨k.modify 0, ⟨0, rfl⟩, ?_⟩
      simp [flushSend, State.flushSend, found]
  | some c =>
      have queue := queues fd c found
      have client : w.state.clients fd = some (c.client w.rooms) := by simp [found]
      by_cases some : c.txHead < c.txTail
      · have nonempty : c.out ≠ [] := (Conn.out_nonempty queue).mpr some
        have took := @state_taken w fd c (k.send w.clock) queues found
        have takes : Sends w (w.taken fd (sendLoop c.out (k.send w.clock))) := taken_sends found
        refine ⟨k.modify w.asked.clock, ⟨_, rfl⟩, ?_⟩
        have whole : w.flushSend k fd =
            if (sendLoop c.out (k.send w.clock)).how = .broken then
              (w.taken fd (sendLoop c.out (k.send w.clock))).doom fd
            else (w.taken fd (sendLoop c.out (k.send w.clock))).updateEpollMask k fd := by
          simp only [flushSend, found, some, if_true, taken]
        have again : w.state.flushSend (k.send w.clock) (k.modify w.asked.clock) fd =
            if (sendLoop c.out (k.send w.clock)).how = .broken then
              (w.state.sent fd (sendLoop c.out (k.send w.clock))).doom fd
            else
              (w.state.sent fd (sendLoop c.out (k.send w.clock))).updateEpollMask
                (k.modify w.asked.clock) fd := by
          simp only [State.flushSend, client, Conn.client, nonempty, if_false, State.sent]
        rw [whole, again, ← took]
        split
        · exact state_doom
        · exact state_updateEpollMask (takes.queues queues)
      · have empty : c.out = [] := by
          by_contra nonempty
          exact some ((Conn.out_nonempty queue).mp nonempty)
        refine ⟨k.modify w.clock, ⟨_, rfl⟩, ?_⟩
        simp only [flushSend, State.flushSend, found, client, Conn.client, some, empty, if_true,
          if_false]
        exact state_updateEpollMask queues

theorem flushSend_flushes (queues : Queues w) :
    Flushes (rules k cfg) fd w.state (w.flushSend k fd).state := by
  obtain ⟨done, modifies, same⟩ := @state_flushSend k w fd cfg queues
  exact ⟨_, done, modifies, same⟩

theorem markDirty_sends : Sends w (w.markDirty fd) := by
  unfold markDirty
  split
  · exact .refl w
  · split
    · have marked : Sends w (w.update fd fun c => { c with dirty := true }) :=
        .update fun c _ => ⟨rfl, rfl, rfl, rfl, id, fun queue => ⟨queue.1, queue.2⟩⟩
      exact marked.trans (.of_conns rfl rfl rfl rfl rfl rfl)
    · exact .refl w

theorem state_markDirty (queues : Queues w) : (w.markDirty fd).state = w.state.markDirty fd := by
  cases found : w.conns fd with
  | none => simp [markDirty, State.markDirty, found]
  | some c =>
      simp only [markDirty, State.markDirty, found, state_clients, Option.map_some, Conn.client,
        Conn.out_nonempty (queues fd c found)]
      split
      · have marked : (w.update fd fun c => { c with dirty := true }).state =
            w.state.update fd fun client => { client with dirty := true } :=
          state_update fun _ _ => rfl
        simp only [← marked]
        rfl
      · rfl

theorem afterQueue_sends : Sends w (w.afterQueue k cfg fd) := by
  unfold afterQueue
  split
  · exact markDirty_sends
  · exact flushSend_sends

theorem afterQueue_follows (queues : Queues w) :
    Follows (rules k cfg) fd w.state (w.afterQueue k cfg fd).state := by
  unfold Follows afterQueue
  simp only [rules]
  split
  · exact state_markDirty queues
  · exact flushSend_flushes queues

end World

end NetEngine.Epoll.ServerSds
