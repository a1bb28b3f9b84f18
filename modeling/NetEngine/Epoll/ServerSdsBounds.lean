import NetEngine.Epoll.ChatDepartures
import NetEngine.Epoll.ChatLists
import NetEngine.Epoll.ServerSdsChecked
import NetEngine.Epoll.ServerSdsRuns

/-! No check of `server_sds.cpp` fails: with the sizes of its arrays it does what it
does without them. Names are cut, frames are short, a queue stays under the cap, and
a list holds each slot at most once. -/

set_option autoImplicit false

namespace NetEngine.Epoll.ServerSds.Checked

open Socket RingBuffer World Links

variable {k : Kernel} {cfg : Config} {w after : World} {fd : Fd} {idx : Nat} {reaping : Prop}

/-- What holds inside of every call, also while the dirty list is walked. -/
structure Steady (cfg : Config) (reaping : Prop) (w : World) : Prop where
  sound : Sound cfg w
  nicks : ShortNicks w.state
  doomed : DoomedOnce reaping cfg.slots w.state
  held : w.totalLive ≤ cfg.maxConns

structure Fine (cfg : Config) (reaping : Prop) (w : World) : Prop extends Steady cfg reaping w where
  dirty : DirtyOnce reaping cfg.slots w.state
  immediate : cfg.batchFlush = false → w.state.dirty = []

/-! ## Checks -/

theorem check_eq {holds : Prop} [Decidable holds] (proof : holds) : check holds = some () :=
  if_pos proof

theorem within_eq {size start count : Nat} (inside : start + count ≤ size) :
    within size start count = some () :=
  check_eq inside

theorem line_eq {text : Bytes} (short : text.length ≤ lineSize) : line text = some () :=
  within_eq ((Nat.zero_add _).le.trans short)

/-- Distinct slots are no more than there are slots. -/
theorem length_le_slots {list : List Fd} (nodup : list.Nodup) (inside : ∀ fd ∈ list, fd < cfg.slots) :
    list.length ≤ cfg.slots := by
  have bound := nodup.length_le_of_subset fun fd member => List.mem_range.mpr (inside fd member)
  rwa [List.length_range] at bound

theorem pushChecked_eq {list : List Fd} (nodup : list.Nodup) (inside : ∀ fd ∈ list, fd < cfg.slots)
    (fresh : fd ∉ list) (slot : fd < cfg.slots) : pushChecked cfg list fd = some () := by
  have room : list.length < cfg.slots := by
    refine @length_le_slots cfg (fd :: list) (List.nodup_cons.mpr ⟨fresh, nodup⟩) ?_
    intro other member
    rcases List.mem_cons.mp member with rfl | member
    · exact slot
    · exact inside other member
  simp only [pushChecked, check_eq fresh, check_eq room]
  rfl

theorem foldlM_eq {α : Type} {holds : World → Prop} {step : World → α → World}
    {checked : World → α → Option World} (items : List α)
    (each : ∀ w, ∀ item ∈ items, holds w → checked w item = some (step w item) ∧ holds (step w item))
    (start : holds w) :
    items.foldlM checked w = some (items.foldl step w) ∧ holds (items.foldl step w) := by
  induction items generalizing w with
  | nil => exact ⟨rfl, start⟩
  | cons item items ih =>
      obtain ⟨same, next⟩ := each w item List.mem_cons_self start
      obtain ⟨rest, last⟩ := ih (fun w other member => each w other (List.mem_cons_of_mem _ member)) next
      refine ⟨?_, last⟩
      rw [List.foldlM_cons, same]
      exact rest

/-! ## Sending -/

theorem Steady.bounded (steady : Steady cfg reaping w) : ∀ fd, w.state.Live fd → fd < cfg.slots := by
  intro fd live
  obtain ⟨c, found⟩ := live_iff.mp live
  exact steady.sound.rooms.slots fd c found

theorem Steady.sends {types : UInt16 → Prop} (steady : Steady cfg reaping w) (sends : World.Sends w after)
    (moves : Epoll.Sends True types w.state after.state) : Steady cfg reaping after where
  sound := sends.sound steady.sound
  nicks := steady.nicks.sends moves
  doomed := steady.doomed.sends steady.bounded moves
  held := sends.totalLive.symm ▸ steady.held

theorem Fine.sends {types : UInt16 → Prop} (fine : Fine cfg reaping w) (sends : World.Sends w after)
    (moves : Epoll.Sends True types w.state after.state) (dirty : after.state.dirty = w.state.dirty)
    (flags : after.state.flags = w.state.flags) : Fine cfg reaping after :=
  ⟨fine.toSteady.sends sends moves, fine.dirty.congr dirty flags, fun immediate =>
    dirty.trans (fine.immediate immediate)⟩

theorem Steady.emit (steady : Steady cfg reaping w) (obs : Obs Bytes) :
    Steady cfg reaping (w.emit obs) :=
  ⟨emit_sound steady.sound obs, steady.nicks,
    steady.doomed.congr rfl (fun _ => id) fun _ => id, steady.held⟩

theorem Fine.emit (fine : Fine cfg reaping w) (obs : Obs Bytes) : Fine cfg reaping (w.emit obs) :=
  ⟨fine.toSteady.emit obs, fine.dirty.congr rfl rfl, fine.immediate⟩

theorem doom_eq (steady : Steady cfg reaping w) : doom cfg w fd = some (w.doom fd) := by
  cases found : w.conns fd with
  | none => simp only [doom, World.doom, found]
  | some c =>
      cases closing : c.closing with
      | true => simp only [doom, World.doom, found, closing, if_true]
      | false =>
          have opened : w.state.Open fd := by simp [open_iff, found, closing]
          have fresh : fd ∉ w.doomed := fun listed => steady.doomed.shut fd listed opened
          have pushed := pushChecked_eq steady.doomed.nodup steady.doomed.inside fresh
            (steady.sound.rooms.slots fd c found)
          change pushChecked cfg w.doomed fd = some () at pushed
          simp only [doom, found, closing, Bool.false_eq_true, if_false, pushed]
          rfl

theorem Steady.doom (steady : Steady cfg reaping w) : Steady cfg reaping (w.doom fd) := by
  have moves : Epoll.Sends True (fun _ => True) w.state (w.doom fd).state :=
    state_doom ▸ State.doom_sends
  exact steady.sends doom_sends moves

theorem Fine.doom (fine : Fine cfg reaping w) : Fine cfg reaping (w.doom fd) := by
  have moves : Epoll.Sends True (fun _ => True) w.state (w.doom fd).state :=
    state_doom ▸ State.doom_sends
  refine fine.sends doom_sends moves ?_ ?_
  · rw [state_doom, State.doom_dirty]
  · rw [state_doom, State.flags_doom]

/-- A queue that has to move fits in front of the region, and the frame behind it. -/
theorem compact_eq {c : Conn} {frame : Nat} (queue : c.Queue) : compact c frame = some () := by
  have used : c.txHead + c.used = c.txTail := Nat.add_sub_cancel' queue.ordered
  have source : c.txHead + c.used ≤ txRegion := used ▸ queue.inside
  have target : 0 + c.used ≤ txRegion := by
    rw [Nat.zero_add]
    exact (Nat.le_add_left ..).trans source
  unfold compact
  split
  · simp only [within_eq source, within_eq target]
    rfl
  · rfl

theorem queueSend_eq {type : UInt16} {payload : Bytes} (steady : Steady cfg reaping w) :
    queueSend cfg type payload w fd = some (World.queueSend type payload w fd) := by
  cases found : w.conns fd with
  | none => simp only [queueSend, World.queueSend, found]
  | some c =>
      have queue := steady.sound.queues fd c found
      cases closing : c.closing with
      | true => simp only [queueSend, World.queueSend, found, closing, if_true]
      | false =>
          simp only [queueSend, found, closing, Bool.false_eq_true, if_false]
          by_cases long : maxPayload < payload.length
          · simp only [World.queueSend, found, closing, long, Bool.false_eq_true, if_true, if_false]
          · by_cases beyond : sendCap < c.used + (headerSize + payload.length)
            · simp only [World.queueSend, found, closing, long, beyond, Bool.false_eq_true, if_true,
                if_false]
              exact doom_eq (steady.emit _)
            · obtain ⟨_, _, room⟩ := Conn.compact_spec queue (Nat.not_lt.mp beyond)
              have header : (c.compact (headerSize + payload.length)).txTail + headerSize ≤
                  txRegion := by omega
              have rest : (c.compact (headerSize + payload.length)).txTail + headerSize +
                  payload.length ≤ txRegion := by omega
              simp only [long, beyond, if_false, compact_eq queue, within_eq header, within_eq rest]
              rfl

theorem Steady.queueSend {type : UInt16} {payload : Bytes} (steady : Steady cfg reaping w) :
    Steady cfg reaping (World.queueSend type payload w fd) := by
  have moves : Epoll.Sends True (fun _ => True) w.state (World.queueSend type payload w fd).state := by
    rw [state_queueSend steady.sound.queues]
    exact State.queueSend_sends trivial
  exact steady.sends queueSend_sends moves

theorem Fine.queueSend {type : UInt16} {payload : Bytes} (fine : Fine cfg reaping w) :
    Fine cfg reaping (World.queueSend type payload w fd) := by
  refine ⟨fine.toSteady.queueSend, fine.dirty.congr ?_ ?_, fun immediate => ?_⟩
  · rw [state_queueSend fine.sound.queues, State.queueSend_dirty]
  · rw [state_queueSend fine.sound.queues, State.flags_queueSend]
  · rw [state_queueSend fine.sound.queues, State.queueSend_dirty]
    exact fine.immediate immediate

theorem Steady.taken {c : Conn} {answers : List SendAnswer} (steady : Steady cfg reaping w)
    (found : w.conns fd = some c) : Steady cfg reaping (w.taken fd (sendLoop c.out answers)) := by
  have moves : Epoll.Sends True (fun _ => True) w.state
      (w.taken fd (sendLoop c.out answers)).state := by
    rw [state_taken steady.sound.queues found]
    exact State.sent_sends
  exact steady.sends (taken_sends found) moves

theorem flushSend_eq (steady : Steady cfg reaping w) :
    flushSend k cfg w fd = some (w.flushSend k fd) := by
  cases found : w.conns fd with
  | none => simp only [flushSend, World.flushSend, found]
  | some c =>
      have queue := steady.sound.queues fd c found
      by_cases waiting : c.txHead < c.txTail
      · have used : c.txHead + c.used ≤ txRegion := by
          rw [Conn.used, Nat.add_sub_cancel' queue.ordered]
          exact queue.inside
        have doomed := @doom_eq cfg _ fd _
          (@Steady.taken cfg w fd reaping c (k.send w.clock) steady found)
        simp only [World.taken] at doomed
        simp only [flushSend, World.flushSend, found, waiting, if_true, within_eq used, doomed]
        split <;> rfl
      · simp only [flushSend, World.flushSend, found, waiting, if_false]

theorem Steady.flushSend (steady : Steady cfg reaping w) :
    Steady cfg reaping (w.flushSend k fd) := by
  obtain ⟨done, _, same⟩ := @state_flushSend k w fd cfg steady.sound.queues
  have moves : Epoll.Sends True (fun _ => True) w.state (w.flushSend k fd).state := by
    rw [same]
    exact State.flushSend_sends
  exact steady.sends flushSend_sends moves

theorem Fine.flushSend (fine : Fine cfg reaping w) : Fine cfg reaping (w.flushSend k fd) := by
  obtain ⟨done, _, same⟩ := @state_flushSend k w fd cfg fine.sound.queues
  refine ⟨fine.toSteady.flushSend, fine.dirty.congr ?_ ?_, fun immediate => ?_⟩
  · rw [same, State.flushSend_dirty]
  · rw [same, State.flags_flushSend]
  · rw [same, State.flushSend_dirty]
    exact fine.immediate immediate

theorem markDirty_eq (fine : Fine cfg reaping w) : markDirty cfg w fd = some (w.markDirty fd) := by
  cases found : w.conns fd with
  | none => simp only [markDirty, World.markDirty, found]
  | some c =>
      by_cases marks : c.dirty = false ∧ c.txHead < c.txTail
      · have fresh : fd ∉ w.dirty := fun listed =>
          fine.dirty.flagged fd listed (by simp [State.flags, found, Conn.client, marks.1])
        have pushed := pushChecked_eq fine.dirty.nodup fine.dirty.inside fresh
          (fine.sound.rooms.slots fd c found)
        change pushChecked cfg w.dirty fd = some () at pushed
        simp only [markDirty, found, marks, and_self, if_true, pushed]
        rfl
      · simp only [markDirty, World.markDirty, found, marks, if_false]

/-- Only the batch mode marks. -/
theorem Fine.markDirty (fine : Fine cfg reaping w) (batch : cfg.batchFlush = true) :
    Fine cfg reaping (w.markDirty fd) := by
  have same := @state_markDirty w fd fine.sound.queues
  have moves : Epoll.Sends True (fun _ => True) w.state (w.markDirty fd).state := by
    rw [same]
    exact State.markDirty_sends
  refine ⟨fine.toSteady.sends markDirty_sends moves, ?_, fun immediate => ?_⟩
  · rw [same]
    exact fine.dirty.mark fine.bounded
  · rw [batch] at immediate
    cases immediate

theorem afterQueue_eq (fine : Fine cfg reaping w) :
    afterQueue k cfg w fd = some (w.afterQueue k cfg fd) ∧
      Fine cfg reaping (w.afterQueue k cfg fd) := by
  cases batch : cfg.batchFlush with
  | true =>
      simp only [afterQueue, World.afterQueue, batch, if_true]
      exact ⟨markDirty_eq fine, fine.markDirty batch⟩
  | false =>
      simp only [afterQueue, World.afterQueue, batch, Bool.false_eq_true, if_false]
      exact ⟨flushSend_eq fine.toSteady, fine.flushSend⟩

/-! ## Broadcasts -/

theorem walkRoom_eq {type : UInt16} {payload : Bytes} {exceptFd : Option Fd} (fds : List Fd)
    (fuel : Nat) (enough : fds.length ≤ fuel) (threaded : Threaded w.nextOf fds)
    (live : ∀ fd ∈ fds, ∃ c, w.conns fd = some c) (fine : Fine cfg reaping w) :
    walkRoom k cfg type payload exceptFd fuel fds.head? w =
        some (World.walkRoom k cfg type payload exceptFd fuel fds.head? w) ∧
      Fine cfg reaping (World.walkRoom k cfg type payload exceptFd fuel fds.head? w) := by
  induction fds generalizing w fuel with
  | nil =>
      rw [List.head?_nil, walkRoom_none]
      cases fuel <;> exact ⟨rfl, fine⟩
  | cons fd fds ih =>
      obtain ⟨r, found⟩ := live fd List.mem_cons_self
      obtain ⟨next, rest⟩ := threaded
      cases fuel with
      | zero => exact absurd enough (Nat.not_succ_le_zero _)
      | succ fuel =>
          have further : ∀ told, World.Sends w told → Fine cfg reaping told →
              walkRoom k cfg type payload exceptFd fuel ((told.conns fd).bind (·.roomNext)) told =
                  some (World.walkRoom k cfg type payload exceptFd fuel
                    ((told.conns fd).bind (·.roomNext)) told) ∧
                Fine cfg reaping (World.walkRoom k cfg type payload exceptFd fuel
                  ((told.conns fd).bind (·.roomNext)) told) := by
            intro told sends toldFine
            have step : (told.conns fd).bind (·.roomNext) = fds.head? :=
              (congrFun sends.nextOf fd).trans next
            rw [step]
            refine ih fuel (Nat.le_of_succ_le_succ enough) (sends.nextOf ▸ rest) ?_ toldFine
            intro other member
            obtain ⟨c, before⟩ := live other (List.mem_cons_of_mem _ member)
            obtain ⟨later, last, _⟩ := sends.present before
            exact ⟨later, last⟩
          simp only [List.head?_cons, walkRoom, World.walkRoom, found]
          by_cases spared : some fd = exceptFd ∨ r.closing = true
          · simp only [spared, if_true]
            exact further w (.refl w) fine
          · have queued : Fine cfg reaping (World.queueSend type payload w fd) := fine.queueSend
            obtain ⟨same, told⟩ := @afterQueue_eq k cfg _ fd reaping queued
            have sends : World.Sends w ((World.queueSend type payload w fd).afterQueue k cfg fd) :=
              queueSend_sends.trans afterQueue_sends
            simp only [spared, if_false, queueSend_eq fine.toSteady, Option.bind_some, same]
            exact further _ sends told

theorem broadcast_eq {type : UInt16} {payload : Bytes} {exceptFd : Option Fd}
    (fine : Fine cfg reaping w) (room : Option Nat) :
    broadcast k cfg room type payload exceptFd w =
        some (w.broadcast k cfg room type payload exceptFd) ∧
      Fine cfg reaping (w.broadcast k cfg room type payload exceptFd) := by
  cases room with
  | none => exact ⟨rfl, fine⟩
  | some idx =>
      cases live : (w.rooms idx).live with
      | false =>
          simp only [broadcast, World.broadcast, live, Bool.false_eq_true, if_false]
          exact ⟨trivial, fine⟩
      | true =>
          obtain ⟨members, lists, _⟩ := fine.sound.rooms.listed idx live
          have present : ∀ fd ∈ members, ∃ c, w.conns fd = some c := by
            intro fd member
            obtain ⟨c, found, _⟩ := conn_of_room ((lists.member fd).mp member)
            exact ⟨c, found⟩
          have few : members.length ≤ cfg.slots := by
            refine length_le_slots lists.nodup fun fd member => ?_
            obtain ⟨c, found⟩ := present fd member
            exact fine.sound.rooms.slots fd c found
          simp only [broadcast, World.broadcast, live, if_true, lists.head]
          exact walkRoom_eq members cfg.slots few lists.linked.threaded present fine

/-! ## Packets -/

/-- A connection changes its name or its room, and nothing else moves. -/
theorem Fine.update {change : Client Bytes → Client Bytes}
    (fine : Fine cfg reaping w) (sound : Sound cfg after)
    (same : after.state = w.state.update fd change)
    (cut : ∀ client : Client Bytes, client.nick.length ≤ nickMax →
      (change client).nick.length ≤ nickMax)
    (closing : ∀ client, (change client).closing = client.closing)
    (dirty : ∀ client, (change client).dirty = client.dirty) : Fine cfg reaping after := by
  refine ⟨⟨sound, ?_, ?_, ?_⟩, ?_, fun immediate => ?_⟩
  · exact same ▸ fine.nicks.update cut
  · exact same ▸ fine.doomed.update change closing
  · have size := congrArg State.size same
    change after.totalLive = w.totalLive at size
    exact size ▸ fine.held
  · rw [same]
    exact fine.dirty.congr rfl (State.flags_update change dirty)
  · rw [same]
    exact fine.immediate immediate

theorem Fine.leaveRoom {c : Conn} (fine : Fine cfg reaping w) (found : w.conns fd = some c) :
    Fine cfg reaping (w.leaveRoom cfg fd) :=
  fine.update (leaveRoom_sound found fine.sound) (leaveRoom_state found fine.sound.rooms).1
    (fun _ short => short) (fun _ => rfl) fun _ => rfl

theorem line_nick {nick rest : Bytes} (short : nick.length ≤ nickMax) (fits : rest.length ≤ 2 + maxPayload) :
    line (nick ++ rest) = some () := by
  refine line_eq ?_
  rw [List.length_append, lineSize]
  omega

theorem line_left {nick : Bytes} (short : nick.length ≤ nickMax) : line (leftNotice nick) = some () :=
  line_nick short (by decide)

theorem Steady.short {c : Conn} (steady : Steady cfg reaping w) (found : w.conns fd = some c) :
    c.nick.length ≤ nickMax :=
  steady.nicks fd (c.client w.rooms) (by simp [found])

theorem switchRoom_eq {c : Conn} (fine : Fine cfg reaping w) (found : w.conns fd = some c) :
    switchRoom k cfg w fd c = some (w.leftBy k cfg fd c) ∧
      Fine cfg reaping (w.leftBy k cfg fd c) := by
  by_cases nowhere : c.room = none
  · simp only [switchRoom, leftBy, nowhere, if_true]
    exact ⟨trivial, fine⟩
  · obtain ⟨told, after⟩ := @broadcast_eq k cfg w reaping sNotice (leftNotice c.nick) (some fd) fine
      c.room
    have live : (w.broadcast k cfg c.room sNotice (leftNotice c.nick) (some fd)).state.Live fd := by
      obtain ⟨idx, room⟩ := Option.ne_none_iff_exists'.mp nowhere
      have housed := fine.sound.rooms.housed fd idx ((roomOf_eq found).trans room)
      obtain ⟨_, sends⟩ := @broadcast_broadcasts k cfg w idx sNotice (leftNotice c.nick) (some fd)
        fine.sound fun fd => fine.sound.rooms.inRoom_iff housed
      rw [room]
      exact (sends.sameFds.1 fd).mpr (live_iff.mpr ⟨c, found⟩)
    obtain ⟨c', present⟩ := live_iff.mp live
    simp only [switchRoom, leftBy, nowhere, if_false, line_left (fine.short found), told]
    exact ⟨rfl, after.leaveRoom present⟩

theorem roomAcquire_eq {c : Conn} (sound : Sound cfg w) (found : w.conns fd = some c)
    (outside : w.roomOf fd = none) {name : Bytes} (short : name.length ≤ roomMax) :
    roomAcquire cfg w name = some (w.roomAcquire cfg name) := by
  obtain ⟨idx, free⟩ := sound.rooms.free_room found outside
  have fits : 0 + (name.length + 1) ≤ roomMax + 1 := by omega
  cases chain : (w.roomIndex.find (w.memory cfg name) cfg.slots).chain with
  | cons node rest => simp only [roomAcquire, World.roomAcquire, chain]
  | nil =>
      simp only [roomAcquire, World.roomAcquire, chain, free, within_eq fits]
      rfl

theorem greet_eq {nick : Bytes} {size : Nat} (fine : Fine cfg reaping w)
    (short : nick.length ≤ nickMax) (named : size ≤ roomMax) :
    greet k cfg w fd nick size idx = some (w.greet k cfg fd nick size idx) ∧
      Fine cfg reaping (w.greet k cfg fd nick size idx) := by
  have inside : 0 + size ≤ roomMax + 1 := by omega
  have text : 0 + ((ascii "joined ").length + size) ≤ lineSize := by
    have seven : (ascii "joined ").length = 7 := rfl
    simp only [seven, lineSize, nickMax, maxPayload, roomMax] at *
    omega
  have hello : line (helloNotice nick) = some () := line_nick short (by decide)
  have queued : Fine cfg reaping
    (World.queueSend sNotice (joinedNotice ((w.rooms idx).name.take size)) w fd) := fine.queueSend
  obtain ⟨same, after⟩ := @broadcast_eq k cfg _ reaping sNotice (helloNotice nick) (some fd) queued
    (some idx)
  simp only [greet, within_eq inside, within_eq text, queueSend_eq fine.toSteady, hello]
  exact ⟨same, after⟩

theorem joinPacket_eq {c : Conn} {payload : Bytes} (fine : Fine cfg reaping w)
    (found : w.conns fd = some c) :
    joinPacket k cfg w fd c payload = some (w.joinPacket k cfg fd c payload) ∧
      Fine cfg reaping (w.joinPacket k cfg fd c payload) := by
  by_cases nameless : c.nick = []
  · simp only [joinPacket, World.joinPacket, nameless, if_true]
    exact ⟨queueSend_eq fine.toSteady, fine.queueSend⟩
  · have named : (payload.take roomMax).length ≤ roomMax := List.length_take_le ..
    have scratch : 0 + ((payload.take roomMax).length + 1) ≤ roomMax + 1 := by omega
    by_cases empty : payload.take roomMax = []
    · have nothing : within (roomMax + 1) 0 (([] : Bytes).length + 1) = some () := rfl
      simp only [joinPacket, World.joinPacket, nameless, empty, if_true, if_false, nothing]
      exact ⟨queueSend_eq fine.toSteady, fine.queueSend⟩
    · obtain ⟨switched, left⟩ := @switchRoom_eq k cfg w fd reaping c fine found
      obtain ⟨_, leftSound, outside, c', present⟩ := @leftBy_switch k cfg w fd c fine.sound found
      obtain ⟨acquired, joined, entered⟩ := entered_sound leftSound present outside
        (payload.take roomMax)
      have acquires := roomAcquire_eq leftSound present outside named
      have seated : Fine cfg reaping
          (((w.leftBy k cfg fd c).roomAcquire cfg (payload.take roomMax)).1.joinRoom fd
            ((w.leftBy k cfg fd c).roomAcquire cfg (payload.take roomMax)).2) :=
        left.update entered (joined.state.trans (congrArg (State.enterRoom · fd _) acquired.quiet.state))
          (fun _ short => short) (fun _ => rfl) fun _ => rfl
      obtain ⟨same, after⟩ := @greet_eq k cfg _ fd
        ((w.leftBy k cfg fd c).roomAcquire cfg (payload.take roomMax)).2 reaping c.nick
        (payload.take roomMax).length seated (fine.short found) named
      simp only [joinPacket, nameless, empty, if_false, within_eq scratch, switched,
        Option.bind_eq_bind, Option.bind_some, acquires, joinPacket_enters nameless empty]
      exact ⟨same, after⟩

theorem chatPacket_eq {c : Conn} {payload : Bytes} (fine : Fine cfg reaping w)
    (found : w.conns fd = some c) (whole : payload.length ≤ maxPayload) :
    chatPacket k cfg w fd c payload = some (w.chatPacket k cfg fd c payload) ∧
      Fine cfg reaping (w.chatPacket k cfg fd c payload) := by
  by_cases nowhere : c.room = none
  · simp only [chatPacket, World.chatPacket, nowhere, if_true]
    exact ⟨queueSend_eq fine.toSteady, fine.queueSend⟩
  · have text : line (chatLine c.nick payload) = some () := by
      have colon : (ascii ": ").length = 2 := rfl
      rw [chatLine, List.append_assoc]
      refine line_nick (fine.short found) ?_
      rw [List.length_append, colon]
      omega
    simp only [chatPacket, World.chatPacket, nowhere, if_false, text]
    exact broadcast_eq fine c.room

theorem handlePacket_eq {c : Conn} {type : UInt16} {payload : Bytes} (fine : Fine cfg reaping w)
    (found : w.conns fd = some c) (whole : payload.length ≤ maxPayload) :
    handlePacket k cfg w fd type payload = some (w.handlePacket k cfg fd type payload) ∧
      Fine cfg reaping (w.handlePacket k cfg fd type payload) := by
  by_cases isNick : type = cSetNick
  · have cut : (payload.take nickMax).length ≤ nickMax := List.length_take_le ..
    have fits : 0 + ((payload.take nickMax).length + 1) ≤ nickMax + 1 := by omega
    have text : line (nickNotice (payload.take nickMax)) = some () := by
      have set : (ascii "nick set to ").length = 12 := rfl
      refine line_eq ?_
      rw [nickNotice, List.length_append, set]
      simp only [lineSize, nickMax, maxPayload] at *
      omega
    have renames : World.Sends w (w.update fd fun c => { c with nick := payload.take nickMax }) :=
      .update fun _ _ => ⟨rfl, rfl, rfl, rfl, id, fun queue => ⟨queue.1, queue.2⟩⟩
    have same : (w.update fd fun c => { c with nick := payload.take nickMax }).state =
        w.state.setNick fd (payload.take nickMax) := state_update fun _ _ => rfl
    have renamed : Fine cfg reaping (w.update fd fun c => { c with nick := payload.take nickMax }) :=
      fine.update (renames.sound fine.sound) same (fun _ _ => cut) (fun _ => rfl) fun _ => rfl
    simp only [handlePacket, World.handlePacket, found, isNick, if_true, within_eq fits, text]
    exact ⟨queueSend_eq renamed.toSteady, renamed.queueSend⟩
  · by_cases isJoin : type = cJoin
    · simp only [handlePacket, World.handlePacket, found, isJoin, if_true]
      exact joinPacket_eq fine found
    · by_cases isChat : type = cChat
      · simp only [handlePacket, World.handlePacket, found, isChat, if_true]
        exact chatPacket_eq fine found whole
      · simp only [handlePacket, World.handlePacket, found, isNick, isJoin, isChat, if_false]
        exact ⟨doom_eq fine.toSteady, fine.doom⟩

end NetEngine.Epoll.ServerSds.Checked
