import Mathlib.Data.List.Nodup
import NetEngine.Epoll.ChatFrames
import NetEngine.Epoll.Server

/-! `server.cpp` is an event loop of `Chat`: every iteration of its main loop is
one of the iterations that the rules allow, as long as the room sets agree with
the connections, and each call keeps them in agreement. -/

set_option autoImplicit false

namespace NetEngine.Epoll.Server

open Socket

def rules (k : Kernel) (cfg : Config) : Rules Bytes where
  batchFlush := cfg.batchFlush
  coalesce := cfg.coalesce
  shortRead := false
  modifies done := ∃ clock, k.modify clock = done
  full size _ := cfg.maxConns ≤ size
  resolve _ name room echo := room = name ∧ echo = name

namespace World

def state (w : World) : State Bytes :=
  ⟨w.clients, w.size, w.doomed, w.dirty, w.running, w.trace⟩

variable {k : Kernel} {cfg : Config} {w : World} {fd : Fd}

@[simp] theorem state_clients : w.state.clients fd = (w.conns fd).map Conn.client := rfl
@[simp] theorem state_emit (obs : Obs Bytes) : (w.emit obs).state = w.state.emit obs := rfl
@[simp] theorem state_asked : w.asked.state = w.state := rfl

theorem open_iff : w.state.Open fd ↔ (w.conns fd).elim true (·.closing) = false := by
  cases found : w.conns fd with
  | none => simp [State.Open, found]
  | some c => simp [State.Open, found, Conn.client]

theorem state_update {change : Conn → Conn} {image : Client Bytes → Client Bytes}
    (commutes : ∀ c, (change c).client = image c.client) :
    (w.update fd change).state = w.state.update fd image := by
  have clients : (w.update fd change).clients = (w.state.update fd image).clients := by
    funext other
    by_cases same : other = fd
    · subst same
      cases found : w.conns other <;> simp [World.clients, World.update, found, commutes]
    · simp [World.clients, World.update, same]
  simp only [state, clients]
  rfl

/-! ## Sending -/

theorem state_updateEpollMask :
    (w.updateEpollMask k fd).state = w.state.updateEpollMask (k.modify w.clock) fd := by
  cases found : w.conns fd with
  | none => simp [updateEpollMask, State.updateEpollMask, found]
  | some c =>
      by_cases same : decide (c.out ≠ []) = c.armedWrite
      · simp only [updateEpollMask, State.updateEpollMask, found, state_clients, Option.map_some,
          Conn.client, same, if_true]
      · simp only [updateEpollMask, State.updateEpollMask, found, state_clients, Option.map_some,
          Conn.client, same, if_false, state_emit]
        cases k.modify w.clock with
        | false => rfl
        | true => exact congrArg (State.emit · _) (state_update fun _ => rfl)

theorem state_doom : (w.doom fd).state = w.state.doom fd := by
  cases found : w.conns fd with
  | none => simp [doom, State.doom, found]
  | some c =>
      cases closing : c.closing with
      | true => simp [doom, State.doom, found, Conn.client, closing]
      | false =>
          have marked : (w.update fd fun c => { c with closing := true }).state =
              w.state.update fd fun client => { client with closing := true } :=
            state_update fun _ => rfl
          simp only [doom, State.doom, found, state_clients, Option.map_some, Conn.client, closing,
            Bool.false_eq_true, if_false, ← marked]
          rfl

theorem state_enqueue {type : UInt16} {payload : Bytes} :
    (w.enqueue fd type payload).state = w.state.enqueue fd type payload := by
  cases found : w.conns fd with
  | none => simp [enqueue, State.enqueue, found]
  | some c =>
      simp only [enqueue, State.enqueue, found, state_clients, Option.map_some, Conn.client]
      split
      · exact state_doom
      · exact congrArg (State.emit · _) (state_update fun _ => rfl)

theorem state_queueSend {type : UInt16} {payload : Bytes} :
    (queueSend type payload w fd).state = State.queueSend type payload w.state fd := by
  cases found : w.conns fd with
  | none => simp [queueSend, State.queueSend, found]
  | some c =>
      simp only [queueSend, State.queueSend, found, state_clients, Option.map_some, Conn.client]
      split
      · rfl
      · split
        · rfl
        · exact state_enqueue

theorem state_queueTickFrame {payload : Bytes} :
    (queueTickFrame payload w fd).state = State.queueTickFrame payload w.state fd := by
  cases found : w.conns fd with
  | none => simp [queueTickFrame, State.queueTickFrame, found]
  | some c =>
      simp only [queueTickFrame, State.queueTickFrame, found, state_clients, Option.map_some,
        Conn.client]
      split
      · rfl
      · exact state_enqueue

theorem state_flushSend (cfg : Config) :
    ∃ done, (rules k cfg).modifies done ∧
      (w.flushSend k fd).state = w.state.flushSend (k.send w.clock) done fd := by
  cases found : w.conns fd with
  | none =>
      refine ⟨k.modify 0, ⟨0, rfl⟩, ?_⟩
      simp [flushSend, State.flushSend, found]
  | some c =>
      by_cases empty : c.out = []
      · refine ⟨k.modify w.clock, ⟨_, rfl⟩, ?_⟩
        simp only [flushSend, State.flushSend, found, state_clients, Option.map_some, Conn.client,
          empty, if_true]
        exact state_updateEpollMask
      · refine ⟨k.modify w.asked.clock, ⟨_, rfl⟩, ?_⟩
        simp only [flushSend, State.flushSend, found, state_clients, Option.map_some, Conn.client,
          empty, if_false]
        split
        · rw [state_doom, state_emit]
          exact congrArg (fun s => State.doom (State.emit s _) fd) (state_update fun _ => rfl)
        · rw [state_updateEpollMask, state_emit]
          exact congrArg (fun s => State.updateEpollMask _ (State.emit s _) fd)
            (state_update fun _ => rfl)

theorem flushSend_flushes : Flushes (rules k cfg) fd w.state (w.flushSend k fd).state := by
  obtain ⟨done, modifies, same⟩ := @state_flushSend k w fd cfg
  exact ⟨_, done, modifies, same⟩

theorem state_markDirty : (w.markDirty fd).state = w.state.markDirty fd := by
  cases found : w.conns fd with
  | none => simp [markDirty, State.markDirty, found]
  | some c =>
      simp only [markDirty, State.markDirty, found, state_clients, Option.map_some, Conn.client]
      split
      · have marked : (w.update fd fun c => { c with dirty := true }).state =
            w.state.update fd fun client => { client with dirty := true } := state_update fun _ => rfl
        simp only [← marked]
        rfl
      · rfl

theorem afterQueue_follows : Follows (rules k cfg) fd w.state (w.afterQueue k cfg fd).state := by
  unfold Follows afterQueue
  simp only [rules]
  split
  · exact state_markDirty
  · exact flushSend_flushes

/-! ## The room sets -/

@[simp] theorem update_rooms (change : Conn → Conn) : (w.update fd change).rooms = w.rooms := rfl
@[simp] theorem emit_rooms (obs : Obs Bytes) : (w.emit obs).rooms = w.rooms := rfl
@[simp] theorem asked_rooms : w.asked.rooms = w.rooms := rfl

@[simp] theorem updateEpollMask_rooms : (w.updateEpollMask k fd).rooms = w.rooms := by
  unfold updateEpollMask
  split
  · rfl
  · simp only
    split
    · rfl
    · cases k.modify w.clock <;> rfl

@[simp] theorem doom_rooms : (w.doom fd).rooms = w.rooms := by
  unfold doom
  split
  · rfl
  · split <;> rfl

@[simp] theorem enqueue_rooms {type : UInt16} {payload : Bytes} :
    (w.enqueue fd type payload).rooms = w.rooms := by
  unfold enqueue
  split
  · rfl
  · split
    · exact doom_rooms
    · rfl

@[simp] theorem queueSend_rooms {type : UInt16} {payload : Bytes} :
    (queueSend type payload w fd).rooms = w.rooms := by
  unfold queueSend
  split
  · rfl
  · split
    · rfl
    · split
      · rfl
      · exact enqueue_rooms

@[simp] theorem queueTickFrame_rooms {payload : Bytes} :
    (queueTickFrame payload w fd).rooms = w.rooms := by
  unfold queueTickFrame
  split
  · rfl
  · split
    · rfl
    · exact enqueue_rooms

@[simp] theorem flushSend_rooms : (w.flushSend k fd).rooms = w.rooms := by
  unfold flushSend
  split
  · rfl
  · split
    · exact updateEpollMask_rooms
    · simp only
      split
      · exact doom_rooms
      · exact updateEpollMask_rooms

@[simp] theorem afterQueue_rooms : (w.afterQueue k cfg fd).rooms = w.rooms := by
  unfold afterQueue
  split
  · unfold markDirty
    split
    · rfl
    · split <;> rfl
  · exact flushSend_rooms

@[simp] theorem deliver_rooms {type : UInt16} {payload : Bytes} :
    (w.deliver k cfg (queueSend type payload) fd).rooms = w.rooms := by
  unfold deliver
  split
  · rfl
  · split
    · rfl
    · rw [afterQueue_rooms, queueSend_rooms]

/-- The room sets hold exactly the connections that say they are inside. -/
structure RoomsAgree (w : World) : Prop where
  nodup : ∀ name members, w.rooms name = some members → members.Nodup
  member : ∀ name fd, fd ∈ (w.rooms name).getD [] ↔ w.state.InRoom name fd

theorem RoomsAgree.init : RoomsAgree init :=
  ⟨by simp [World.init], by simp [World.init, State.InRoom, state, clients]⟩

theorem RoomsAgree.of_sends {after : World} (agree : RoomsAgree w)
    (rooms : after.rooms = w.rooms) (sends : Sends True (fun _ => True) w.state after.state) :
    RoomsAgree after := by
  refine ⟨fun name members => rooms ▸ agree.nodup name members, fun name fd => ?_⟩
  rw [rooms, agree.member, sends.inRoom_iff]

theorem inRoom_iff {name : Bytes} :
    w.state.InRoom name fd ↔ ∃ c, w.conns fd = some c ∧ c.room = name ∧ name ≠ [] := by
  cases found : w.conns fd with
  | none => simp [State.InRoom, found]
  | some c =>
      by_cases empty : c.room = []
      · simp only [State.InRoom, state_clients, found, Option.map_some, Option.some.injEq,
          exists_eq_left', Conn.client, empty, if_true]
        constructor
        · intro wrong
          cases wrong
        · rintro ⟨same, nonempty⟩
          exact absurd same.symm nonempty
      · simp only [State.InRoom, state_clients, found, Option.map_some, Option.some.injEq,
          exists_eq_left', Conn.client, empty, if_false]
        constructor
        · rintro rfl
          exact ⟨rfl, empty⟩
        · exact And.left

theorem deliver_walk {type : UInt16} {payload : Bytes} {fds : List Fd} {after : State Bytes}
    (walk : Walk (rules k cfg) (State.queueSend type payload) fds
      (w.deliver k cfg (queueSend type payload) fd).state after) :
    Walk (rules k cfg) (State.queueSend type payload) (fd :: fds) w.state after := by
  by_cases opened : w.state.Open fd
  · refine .visit opened ?_ walk
    obtain ⟨c, found, closing⟩ : ∃ c, w.conns fd = some c ∧ c.closing = false := by
      rw [open_iff] at opened
      cases found : w.conns fd with
      | none => rw [found] at opened; cases opened
      | some c => exact ⟨c, rfl, by rwa [found] at opened⟩
    simp only [deliver, found, closing, Bool.false_eq_true, if_false]
    rw [← state_queueSend]
    exact afterQueue_follows
  · refine .skip opened ?_
    have same : w.deliver k cfg (queueSend type payload) fd = w := by
      unfold deliver
      split
      · rfl
      next c found =>
        have closing : c.closing = true := by simpa [open_iff, found] using opened
        simp [closing]
    rwa [same] at walk

theorem foldl_deliver {type : UInt16} {payload : Bytes} (exceptFd : Option Fd) (fds : List Fd)
    (w : World) :
    Walk (rules k cfg) (State.queueSend type payload) (fds.filter fun fd => some fd ≠ exceptFd)
        w.state
        (fds.foldl (fun w fd => if some fd = exceptFd then w
          else w.deliver k cfg (queueSend type payload) fd) w).state ∧
      (fds.foldl (fun w fd => if some fd = exceptFd then w
        else w.deliver k cfg (queueSend type payload) fd) w).rooms = w.rooms := by
  induction fds generalizing w with
  | nil => exact ⟨.nil, rfl⟩
  | cons fd fds ih =>
      by_cases except : some fd = exceptFd
      · simpa [List.foldl_cons, except] using ih w
      · obtain ⟨walk, rooms⟩ := ih (w.deliver k cfg (queueSend type payload) fd)
        simp only [List.foldl_cons, except, if_false, List.filter_cons, ne_eq, not_false_eq_true,
          decide_true, if_true]
        exact ⟨deliver_walk walk, rooms.trans deliver_rooms⟩

theorem broadcast_rooms {room payload : Bytes} {type : UInt16} {exceptFd : Option Fd} :
    (w.broadcast k cfg room type payload exceptFd).rooms = w.rooms := by
  unfold broadcast
  split
  · rfl
  · exact (foldl_deliver exceptFd _ w.asked).2

theorem broadcast_broadcasts {room payload : Bytes} {type : UInt16} {exceptFd : Option Fd}
    (agree : RoomsAgree w) :
    Broadcast (rules k cfg) room type payload exceptFd w.state
      (w.broadcast k cfg room type payload exceptFd).state := by
  cases found : w.rooms room with
  | none =>
      refine ⟨[], .nil, fun fd => ?_, ?_⟩
      · rw [← agree.member, found]
        simp
      · simp only [broadcast, found]
        exact .nil
  | some members =>
      refine ⟨(k.walk w.clock members).filter fun fd => some fd ≠ exceptFd, ?_, fun fd => ?_, ?_⟩
      · exact ((k.walk_perm w.clock members).nodup_iff.mpr (agree.nodup _ _ found)).filter _
      · rw [List.mem_filter, (k.walk_perm w.clock members).mem_iff, ← agree.member, found]
        simp [and_comm]
      · simp only [broadcast, found]
        exact (foldl_deliver exceptFd _ w.asked).1

theorem broadcast_agree {room payload : Bytes} {type : UInt16} {exceptFd : Option Fd}
    (agree : RoomsAgree w) : RoomsAgree (w.broadcast k cfg room type payload exceptFd) :=
  have sends : Sends True (fun _ => True) w.state _ := (broadcast_broadcasts agree).sends trivial
  agree.of_sends broadcast_rooms sends

theorem dropMember_state {room : Bytes} : (w.dropMember cfg room fd).state = w.state := by
  unfold dropMember
  split
  · rfl
  · split <;> rfl

theorem dropMember_rooms {room name : Bytes} :
    ((w.dropMember cfg room fd).rooms name).getD [] =
      if name = room then ((w.rooms room).getD []).erase fd else (w.rooms name).getD [] := by
  cases found : w.rooms room with
  | none =>
      by_cases same : name = room
      · subst same
        simp [dropMember, found]
      · simp [dropMember, found, same]
  | some members =>
      by_cases last : members.erase fd = [] <;> by_cases same : name = room
      · subst same
        simp [dropMember, found, last]
      · simp [dropMember, found, last, same]
      · subst same
        simp [dropMember, found, last]
      · simp [dropMember, found, last, same]

theorem leaveRoom_state {c : Conn} (found : w.conns fd = some c) :
    (w.leaveRoom cfg fd).state = w.state.enterRoom fd none := by
  by_cases empty : c.room = []
  · simp only [leaveRoom, found, empty, if_true]
    have kept : (w.state.enterRoom fd none).clients = w.state.clients := by
      funext other
      by_cases own : other = fd
      · subst own
        simp [State.enterRoom, found, Conn.client, empty]
      · simp [State.enterRoom, own]
    exact congrArg (fun clients => ({ w.state with clients } : State Bytes)) kept.symm
  · simp only [leaveRoom, found, empty, if_false]
    rw [State.enterRoom, ← @dropMember_state cfg w fd c.room]
    exact state_update fun _ => rfl

theorem RoomsAgree.nodup_getD (agree : RoomsAgree w) (name : Bytes) :
    ((w.rooms name).getD []).Nodup := by
  cases found : w.rooms name with
  | none => exact .nil
  | some members => exact agree.nodup name members found

/-- A set read with an empty one for a missing entry says all about the set. -/
theorem RoomsAgree.of_getD {after : World} (nodup : ∀ name, ((after.rooms name).getD []).Nodup)
    (member : ∀ name fd, fd ∈ (after.rooms name).getD [] ↔ after.state.InRoom name fd) :
    RoomsAgree after := by
  refine ⟨fun name members found => ?_, member⟩
  have listed := nodup name
  rwa [found] at listed

theorem enterRoom_inRoom {state : State Bytes} {room : Option Bytes} {name : Bytes} {other : Fd}
    (live : state.Live fd) :
    (state.enterRoom fd room).InRoom name other ↔
      if other = fd then room = some name else state.InRoom name other := by
  obtain ⟨client, found⟩ := live
  by_cases own : other = fd
  · subst own
    simp [State.InRoom, State.enterRoom, found]
  · simp [State.InRoom, State.enterRoom, own]

theorem leaveRoom_agree {c : Conn} (found : w.conns fd = some c) (agree : RoomsAgree w) :
    RoomsAgree (w.leaveRoom cfg fd) := by
  have live : w.state.Live fd := ⟨c.client, by simp [found]⟩
  by_cases empty : c.room = []
  · simpa only [leaveRoom, found, empty, if_true] using agree
  · have rooms : (w.leaveRoom cfg fd).rooms = (w.dropMember cfg c.room fd).rooms := by
      simp only [leaveRoom, found, empty, if_false, update_rooms]
    refine .of_getD (fun name => ?_) fun name other => ?_
    · rw [rooms, dropMember_rooms]
      split
      · exact (agree.nodup_getD c.room).erase fd
      · exact agree.nodup_getD name
    · rw [rooms, dropMember_rooms, leaveRoom_state found, enterRoom_inRoom live]
      by_cases same : name = c.room
      · subst same
        rw [if_pos rfl, (agree.nodup_getD c.room).mem_erase_iff, agree.member]
        by_cases own : other = fd <;> simp [own]
      · rw [if_neg same, agree.member]
        by_cases own : other = fd
        · subst own
          rw [if_pos rfl]
          refine iff_of_false ?_ (by simp)
          rw [inRoom_iff]
          rintro ⟨again, againFound, rfl, _⟩
          rw [found, Option.some.injEq] at againFound
          exact same (againFound ▸ rfl)
        · rw [if_neg own]

theorem enterRoom_state {joined : Bytes} (nonempty : joined ≠ []) :
    (w.enterRoom fd joined).state = w.state.enterRoom fd (some joined) := by
  have entered : (w.update fd fun c => { c with room := joined }).state =
      w.state.enterRoom fd (some joined) := by
    refine state_update fun c => ?_
    simp [Conn.client, nonempty]
  exact entered

theorem enterRoom_agree {joined : Bytes} (nonempty : joined ≠ []) (live : w.state.Live fd)
    (outside : ∀ name, ¬ w.state.InRoom name fd) (agree : RoomsAgree w) :
    RoomsAgree (w.enterRoom fd joined) := by
  have rooms : ∀ name, ((w.enterRoom fd joined).rooms name).getD [] =
      if name = joined then ((w.rooms joined).getD []).insert fd else (w.rooms name).getD [] := by
    intro name
    by_cases same : name = joined
    · subst same
      simp [World.enterRoom]
    · simp [World.enterRoom, same]
  refine .of_getD (fun name => ?_) fun name other => ?_
  · rw [rooms]
    split
    · exact List.Nodup.insert (agree.nodup_getD joined)
    · exact agree.nodup_getD name
  · rw [rooms, enterRoom_state nonempty, enterRoom_inRoom live]
    by_cases same : name = joined
    · subst same
      rw [if_pos rfl, List.mem_insert_iff, agree.member]
      by_cases own : other = fd <;> simp [own]
    · rw [if_neg same, agree.member]
      by_cases own : other = fd
      · subst own
        rw [if_pos rfl]
        exact iff_of_false (outside name) (by simp [Ne.symm same])
      · rw [if_neg own]

end World

end NetEngine.Epoll.Server
