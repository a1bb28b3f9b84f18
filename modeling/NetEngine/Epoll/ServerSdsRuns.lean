import NetEngine.Epoll.ChatInbound
import NetEngine.Epoll.ServerSdsRooms

/-! From the broadcasts of `server_sds.cpp` to its whole runs: no check fails, the
bounds on its loops are never reached, and every run is a run of the event loop. -/

set_option autoImplicit false

namespace NetEngine.Epoll.ServerSds.World

open Socket RingBuffer Links

variable {k : Kernel} {cfg : Config} {w after : World} {fd : Fd} {idx : Nat}

/-- Every ring is a byte queue. -/
def Rings (w : World) : Prop := ∀ fd c, w.conns fd = some c → ∃ bytes, Holds rxRing c.input bytes

/-- What every call of the program keeps. -/
structure Sound (cfg : Config) (w : World) : Prop where
  rooms : RoomsOk cfg none w
  queues : Queues w
  rings : Rings w
  counted : w.state.Counted
  healthy : w.faulted = false

/-! ## Sending -/

theorem RoomsOk.congr {spare : Option Nat} (ok : RoomsOk cfg spare w)
    (roomOf : after.roomOf = w.roomOf) (prevOf : after.prevOf = w.prevOf)
    (nextOf : after.nextOf = w.nextOf) (rooms : after.rooms = w.rooms)
    (roomFree : after.roomFree = w.roomFree) (roomIndex : after.roomIndex = w.roomIndex)
    (slots : ∀ fd c, after.conns fd = some c → fd < cfg.slots) : RoomsOk cfg spare after := by
  have nextFree : after.nextFree = w.nextFree := funext fun idx => by
    rw [World.nextFree, World.nextFree, rooms]
  have names : after.names = w.names := funext fun idx => by rw [World.names, World.names, rooms]
  refine ⟨fun idx live => ?_, fun fd idx => ?_, fun fd => ?_, fun idx => ?_, ?_, ?_, ?_,
    fun node => ?_, slots⟩
  · rw [rooms] at live
    obtain ⟨members, lists, nonempty⟩ := ok.listed idx live
    refine ⟨members, lists.congr (fun _ => by rw [roomOf]) (fun _ _ => by rw [prevOf])
      (fun _ _ => by rw [nextOf]) (by rw [rooms]) (by rw [rooms]), nonempty⟩
  · rw [roomOf, rooms]
    exact ok.housed fd idx
  · rw [roomOf, prevOf, nextOf]
    exact ok.homeless fd
  · rw [rooms]
    exact ok.inside idx
  · rw [roomFree, nextFree, rooms]
    exact ok.free
  · rw [roomIndex, names]
    exact ok.index
  · rw [roomIndex]
    exact ok.usable
  · rw [roomIndex, rooms]
    exact ok.entries node

namespace Sends

theorem field {α : Type} (sends : Sends w after) (field : Conn → Option α)
    (same : ∀ c later : Conn, c.Keeps later → field later = field c) :
    (fun fd => (after.conns fd).bind field) = fun fd => (w.conns fd).bind field := by
  funext fd
  cases found : w.conns fd with
  | none =>
      cases last : after.conns fd with
      | none => rfl
      | some later =>
          obtain ⟨c, before, _⟩ := sends.back last
          rw [found] at before
          cases before
  | some c =>
      obtain ⟨later, last, keeps⟩ := sends.present found
      rw [last]
      exact same c later keeps

theorem roomOf (sends : Sends w after) : after.roomOf = w.roomOf :=
  sends.field (·.room) fun _ _ keeps => keeps.room

theorem nextOf (sends : Sends w after) : after.nextOf = w.nextOf :=
  sends.field (·.roomNext) fun _ _ keeps => keeps.next

theorem prevOf (sends : Sends w after) : after.prevOf = w.prevOf :=
  sends.field (·.roomPrev) fun _ _ keeps => keeps.prev

theorem sameFds (sends : Sends w after) : SameFds w.state after.state := by
  refine ⟨fun fd => ?_, sends.totalLive⟩
  rw [live_iff, live_iff]
  constructor
  · rintro ⟨later, found⟩
    obtain ⟨c, before, _⟩ := sends.back found
    exact ⟨c, before⟩
  · rintro ⟨c, found⟩
    obtain ⟨later, last, _⟩ := sends.present found
    exact ⟨later, last⟩

theorem sound (sends : Sends w after) (sound : Sound cfg w) : Sound cfg after where
  rooms := by
    refine sound.rooms.congr sends.roomOf sends.prevOf sends.nextOf sends.rooms sends.roomFree
      sends.roomIndex fun fd c found => ?_
    obtain ⟨c', before, _⟩ := sends.back found
    exact sound.rooms.slots fd c' before
  queues := sends.queues sound.queues
  rings fd c found := by
    obtain ⟨c', before, keeps⟩ := sends.back found
    rw [keeps.input]
    exact sound.rings fd c' before
  counted := sends.sameFds.counted sound.counted
  healthy := sends.faulted.trans sound.healthy

end Sends

/-! ## Broadcasts -/

theorem client_room {client : Client Bytes} {name : Bytes} (found : w.state.clients fd = some client)
    (room : client.room = some name) :
    ∃ idx, w.roomOf fd = some idx ∧ (w.rooms idx).name = name := by
  obtain ⟨c, present, rfl⟩ := Option.map_eq_some_iff.mp found
  obtain ⟨idx, inside, same⟩ := Option.map_eq_some_iff.mp room
  exact ⟨idx, (roomOf_eq present).trans inside, same⟩

theorem inRoom_of_roomOf (inside : w.roomOf fd = some idx) :
    w.state.InRoom (w.rooms idx).name fd := by
  obtain ⟨c, present, room⟩ := conn_of_room inside
  exact ⟨c.client w.rooms, by simp [present], by simp [Conn.client, room]⟩

/-- A live room's name belongs to it alone. -/
theorem RoomsOk.inRoom_iff {spare : Option Nat} (ok : RoomsOk cfg spare w)
    (live : (w.rooms idx).live = true) :
    w.state.InRoom (w.rooms idx).name fd ↔ w.roomOf fd = some idx := by
  constructor
  · rintro ⟨client, found, room⟩
    obtain ⟨other, inside, same⟩ := client_room found room
    rw [inside, ok.names_injective (ok.housed fd other inside) live (congrArg text same)]
  · exact inRoom_of_roomOf

theorem walkRoom_none {type : UInt16} {payload : Bytes} {exceptFd : Option Fd} (fuel : Nat) :
    walkRoom k cfg type payload exceptFd fuel none w = w := by
  cases fuel <;> rfl

theorem walkRoom_walks {type : UInt16} {payload : Bytes} {exceptFd : Option Fd} (fds : List Fd)
    (fuel : Nat) (enough : fds.length ≤ fuel) (threaded : Threaded w.nextOf fds)
    (live : ∀ fd ∈ fds, ∃ c, w.conns fd = some c) (queues : Queues w) :
    Walk (rules k cfg) (State.queueSend type payload) (fds.filter fun fd => some fd ≠ exceptFd)
        w.state (walkRoom k cfg type payload exceptFd fuel fds.head? w).state ∧
      Sends w (walkRoom k cfg type payload exceptFd fuel fds.head? w) := by
  induction fds generalizing w fuel with
  | nil =>
      rw [List.head?_nil, walkRoom_none]
      exact ⟨.nil, .refl w⟩
  | cons fd fds ih =>
      obtain ⟨r, found⟩ := live fd List.mem_cons_self
      obtain ⟨next, rest⟩ := threaded
      cases fuel with
      | zero => exact absurd enough (Nat.not_succ_le_zero _)
      | succ fuel =>
          have further : ∀ told, Sends w told →
              Walk (rules k cfg) (State.queueSend type payload)
                  (fds.filter fun fd => some fd ≠ exceptFd) told.state
                  (walkRoom k cfg type payload exceptFd fuel
                    ((told.conns fd).bind (·.roomNext)) told).state ∧
                Sends w (walkRoom k cfg type payload exceptFd fuel
                  ((told.conns fd).bind (·.roomNext)) told) := by
            intro told sends
            have step : (told.conns fd).bind (·.roomNext) = fds.head? :=
              (congrFun sends.nextOf fd).trans next
            obtain ⟨walk, more⟩ := @ih told fuel (Nat.le_of_succ_le_succ enough)
              (sends.nextOf ▸ rest) (fun other member => by
                obtain ⟨c, before⟩ := live other (List.mem_cons_of_mem _ member)
                obtain ⟨later, last, _⟩ := sends.present before
                exact ⟨later, last⟩) (sends.queues queues)
            rw [step]
            exact ⟨walk, sends.trans more⟩
          simp only [List.head?_cons, walkRoom, found, List.filter_cons]
          by_cases except : some fd = exceptFd
          · simp only [except, true_or, if_true, ne_eq, not_true_eq_false, decide_false,
              Bool.false_eq_true, if_false]
            exact further w (.refl w)
          · simp only [except, false_or, ne_eq, not_false_eq_true, decide_true, if_true]
            cases closing : r.closing with
            | true =>
                obtain ⟨walk, sends⟩ := further w (.refl w)
                have shut : ¬ w.state.Open fd := by simp [open_iff, found, closing]
                simp only [if_true]
                exact ⟨.skip shut walk, sends⟩
            | false =>
                have opened : w.state.Open fd := by simp [open_iff, found, closing]
                have queued : Sends w (queueSend type payload w fd) := queueSend_sends
                obtain ⟨walk, sends⟩ := further _ (queued.trans (@afterQueue_sends k cfg _ fd))
                simp only [Bool.false_eq_true, if_false]
                refine ⟨.visit opened ?_ walk, sends⟩
                rw [← state_queueSend queues]
                exact afterQueue_follows (queued.queues queues)

theorem broadcast_broadcasts {type : UInt16} {payload : Bytes} {exceptFd : Option Fd}
    (sound : Sound cfg w)
    (own : ∀ fd, w.state.InRoom (w.rooms idx).name fd ↔ w.roomOf fd = some idx) :
    Broadcast (rules k cfg) (w.rooms idx).name type payload exceptFd w.state
        (w.broadcast k cfg (some idx) type payload exceptFd).state ∧
      Sends w (w.broadcast k cfg (some idx) type payload exceptFd) := by
  cases live : (w.rooms idx).live with
  | false =>
      simp only [broadcast, live, Bool.false_eq_true, if_false]
      refine ⟨⟨[], .nil, fun fd => iff_of_false (by simp) ?_, .nil⟩, .refl w⟩
      rintro ⟨_, inside⟩
      rw [sound.rooms.housed fd idx ((own fd).mp inside)] at live
      cases live
  | true =>
      obtain ⟨members, lists, _⟩ := sound.rooms.listed idx live
      have present : ∀ fd ∈ members, ∃ c, w.conns fd = some c := by
        intro fd member
        obtain ⟨c, found, _⟩ := conn_of_room ((lists.member fd).mp member)
        exact ⟨c, found⟩
      have few : members.length ≤ cfg.slots := by
        have inside : members ⊆ List.range cfg.slots := by
          intro fd member
          obtain ⟨c, found⟩ := present fd member
          exact List.mem_range.mpr (sound.rooms.slots fd c found)
        have bound := lists.nodup.length_le_of_subset inside
        rwa [List.length_range] at bound
      simp only [broadcast, live, if_true, lists.head]
      obtain ⟨walk, sends⟩ := @walkRoom_walks k cfg w type payload exceptFd members cfg.slots few
        lists.linked.threaded present sound.queues
      refine ⟨⟨_, lists.nodup.filter _, fun fd => ?_, walk⟩, sends⟩
      rw [List.mem_filter, lists.member, own]
      simp [and_comm]

/-! ## Packets -/

theorem Kept.rings (kept : Kept w after) (rings : Rings w) : Rings after := by
  intro fd c found
  obtain ⟨c', before, input, _⟩ := kept fd c found
  rw [input]
  exact rings fd c' before

theorem leaveRoom_sound {c : Conn} (found : w.conns fd = some c) (sound : Sound cfg w) :
    Sound cfg (w.leaveRoom cfg fd) := by
  obtain ⟨rooms, _, healthy⟩ := leaveRoom_ok found sound.rooms
  obtain ⟨state, kept⟩ := leaveRoom_state found sound.rooms
  refine ⟨rooms, kept.queues sound.queues, kept.rings sound.rings, ?_, healthy.trans sound.healthy⟩
  rw [state]
  exact (State.update_sameFds _ _ _).counted sound.counted

theorem Joined.sound {rooms : RoomsOk cfg none after} (joined : Joined w after fd idx)
    (queues : Queues w) (rings : Rings w) (counted : w.state.Counted)
    (healthy : w.faulted = false) : Sound cfg after := by
  refine ⟨rooms, joined.kept.queues queues, joined.kept.rings rings, ?_,
    joined.faulted.trans healthy⟩
  rw [joined.state]
  exact (State.update_sameFds _ _ _).counted counted

/-- The room that a joining connection leaves, when it has one. -/
def leftBy (k : Kernel) (cfg : Config) (w : World) (fd : Fd) (c : Conn) : World :=
  if c.room = none then w
  else (w.broadcast k cfg c.room sNotice (leftNotice c.nick) (some fd)).leaveRoom cfg fd

theorem leftBy_switch {c : Conn} (sound : Sound cfg w) (found : w.conns fd = some c) :
    Switch (rules k cfg) fd (c.client w.rooms) w.state (w.leftBy k cfg fd c).state ∧
      Sound cfg (w.leftBy k cfg fd c) ∧ (w.leftBy k cfg fd c).roomOf fd = none ∧
      ∃ c', (w.leftBy k cfg fd c).conns fd = some c' := by
  cases room : c.room with
  | none =>
      simp only [leftBy, room, if_true]
      exact ⟨.stay (by simp [Conn.client, room]), sound, (roomOf_eq found).trans room, c, found⟩
  | some idx =>
      have live := sound.rooms.housed fd idx ((roomOf_eq found).trans room)
      obtain ⟨told, sends⟩ := @broadcast_broadcasts k cfg w idx sNotice (leftNotice c.nick) (some fd)
        sound fun fd => sound.rooms.inRoom_iff live
      obtain ⟨later, last, _⟩ := sends.present found
      have toldSound := sends.sound sound
      obtain ⟨state, kept⟩ := leaveRoom_state last toldSound.rooms
      obtain ⟨_, gone, _⟩ := leaveRoom_ok last toldSound.rooms
      simp only [leftBy, room, reduceCtorEq, if_false]
      refine ⟨?_, leaveRoom_sound last toldSound, gone, ?_⟩
      · rw [state]
        exact .leave (by simp [Conn.client, room]) told
      · rw [← live_iff, state]
        exact ((State.update_sameFds _ _ _).1 fd).mpr (live_iff.mpr ⟨later, last⟩)

/-- The room that is found or made is one that the rules allow. -/
theorem Acquired.resolve {name : Bytes} (acquired : Acquired cfg w after name idx) :
    (rules k cfg).resolve w.state.clients name (after.rooms idx).name
      ((after.rooms idx).name.take name.length) := by
  refine ⟨acquired.named, rfl, ?_⟩
  rcases acquired.resolved with ⟨fd, inside⟩ | ⟨fresh, apart⟩
  · have still : after.roomOf fd = some idx := by
      rw [roomOf, acquired.conns]
      exact inside
    obtain ⟨client, found, room⟩ := inRoom_of_roomOf still
    rw [acquired.quiet.state] at found
    exact .inl ⟨fd, client, found, room⟩
  · refine .inr ⟨fresh, fun fd client other found room => ?_⟩
    obtain ⟨idx, inside, rfl⟩ := client_room found room
    exact apart fd idx inside

/-- The notices of a join, once the room is entered. -/
def greet (k : Kernel) (cfg : Config) (w : World) (fd : Fd) (nick : Bytes) (size idx : Nat) :
    World :=
  (queueSend sNotice (joinedNotice ((w.rooms idx).name.take size)) w fd).broadcast k cfg (some idx)
    sNotice (helloNotice nick) (some fd)

theorem greet_broadcasts {nick : Bytes} {size : Nat} (sound : Sound cfg w)
    (live : (w.rooms idx).live = true) :
    Broadcast (rules k cfg) (w.rooms idx).name sNotice (helloNotice nick) (some fd)
        (State.queueSend sNotice (joinedNotice ((w.rooms idx).name.take size)) w.state fd)
        (w.greet k cfg fd nick size idx).state ∧
      Sound cfg (w.greet k cfg fd nick size idx) := by
  have queued : Sends w (queueSend sNotice (joinedNotice ((w.rooms idx).name.take size)) w fd) :=
    queueSend_sends
  have queuedSound := queued.sound sound
  have rooms := queued.rooms
  obtain ⟨told, sends⟩ := @broadcast_broadcasts k cfg _ idx sNotice (helloNotice nick) (some fd)
    queuedSound fun fd => queuedSound.rooms.inRoom_iff (rooms.symm ▸ live)
  rw [rooms, state_queueSend sound.queues] at told
  exact ⟨told, sends.sound queuedSound⟩

/-- A connection that is in no room enters the one that is found or made. -/
theorem entered_sound {c : Conn} (sound : Sound cfg w) (found : w.conns fd = some c)
    (outside : w.roomOf fd = none) (name : Bytes) :
    Acquired cfg w (w.roomAcquire cfg name).1 name (w.roomAcquire cfg name).2 ∧
      Joined (w.roomAcquire cfg name).1
        ((w.roomAcquire cfg name).1.joinRoom fd (w.roomAcquire cfg name).2) fd
        (w.roomAcquire cfg name).2 ∧
      Sound cfg ((w.roomAcquire cfg name).1.joinRoom fd (w.roomAcquire cfg name).2) := by
  have acquired := roomAcquire_acquired sound.rooms found outside name
  generalize (w.roomAcquire cfg name).1 = there at *
  generalize (w.roomAcquire cfg name).2 = idx at *
  have present : there.conns fd = some c := by rw [acquired.conns, found]
  have homeless : there.roomOf fd = none := by
    rw [roomOf, acquired.conns]
    exact outside
  obtain ⟨rooms, joined⟩ := joinRoom_ok acquired.ok acquired.live present homeless
  refine ⟨acquired, joined, @Joined.sound cfg there _ fd idx rooms joined
    (acquired.quiet.kept.queues sound.queues) (acquired.quiet.kept.rings sound.rings) ?_
    (acquired.faulted.trans sound.healthy)⟩
  rw [acquired.quiet.state]
  exact sound.counted

/-- A join that enters a room, as the calls that it consists of. -/
theorem joinPacket_enters {c : Conn} {payload : Bytes} (named : c.nick ≠ [])
    (some : payload.take roomMax ≠ []) :
    w.joinPacket k cfg fd c payload =
      (((w.leftBy k cfg fd c).roomAcquire cfg (payload.take roomMax)).1.joinRoom fd
        ((w.leftBy k cfg fd c).roomAcquire cfg (payload.take roomMax)).2).greet k cfg fd c.nick
          (payload.take roomMax).length
          ((w.leftBy k cfg fd c).roomAcquire cfg (payload.take roomMax)).2 := by
  simp only [joinPacket, named, some, if_false, leftBy, greet]

theorem joinPacket_packet {c : Conn} {payload : Bytes} (sound : Sound cfg w)
    (found : w.conns fd = some c) :
    Packet (rules k cfg) fd payload cJoin w.state (w.joinPacket k cfg fd c payload).state ∧
      Sound cfg (w.joinPacket k cfg fd c payload) := by
  have client : w.state.clients fd = some (c.client w.rooms) := by simp [found]
  by_cases nameless : c.nick = []
  · simp only [joinPacket, nameless, if_true]
    exact ⟨state_queueSend sound.queues ▸ .nickFirst client nameless, queueSend_sends.sound sound⟩
  · by_cases empty : payload.take roomMax = []
    · simp only [joinPacket, nameless, empty, if_true, if_false]
      exact ⟨state_queueSend sound.queues ▸ .roomRequired client nameless empty,
        queueSend_sends.sound sound⟩
    · obtain ⟨leaves, leftSound, outside, c', left⟩ := @leftBy_switch k cfg w fd c sound found
      obtain ⟨acquired, joined, entered⟩ := entered_sound leftSound left outside
        (payload.take roomMax)
      rw [joinPacket_enters nameless empty]
      generalize ((w.leftBy k cfg fd c).roomAcquire cfg (payload.take roomMax)).1 = there at *
      generalize ((w.leftBy k cfg fd c).roomAcquire cfg (payload.take roomMax)).2 = idx at *
      have name : ((there.joinRoom fd idx).rooms idx).name = (there.rooms idx).name := by
        rw [joined.rooms, Function.update_self]
      have live : ((there.joinRoom fd idx).rooms idx).live = true := by
        rw [joined.rooms, Function.update_self]
        exact acquired.live
      obtain ⟨told, greeted⟩ := @greet_broadcasts k cfg _ fd idx c.nick
        (payload.take roomMax).length entered live
      rw [name, joined.state, acquired.quiet.state] at told
      exact ⟨.join client nameless empty leaves acquired.resolve told, greeted⟩

theorem chatPacket_packet {c : Conn} {payload : Bytes} (sound : Sound cfg w)
    (found : w.conns fd = some c) :
    Packet (rules k cfg) fd payload cChat w.state (w.chatPacket k cfg fd c payload).state ∧
      Sound cfg (w.chatPacket k cfg fd c payload) := by
  have client : w.state.clients fd = some (c.client w.rooms) := by simp [found]
  cases room : c.room with
  | none =>
      simp only [chatPacket, room, if_true]
      exact ⟨state_queueSend sound.queues ▸ .joinFirst client (by simp [Conn.client, room]),
        queueSend_sends.sound sound⟩
  | some idx =>
      have live := sound.rooms.housed fd idx ((roomOf_eq found).trans room)
      obtain ⟨told, sends⟩ := @broadcast_broadcasts k cfg w idx sChat (chatLine c.nick payload) none
        sound fun fd => sound.rooms.inRoom_iff live
      simp only [chatPacket, room, reduceCtorEq, if_false]
      exact ⟨.chat client (by simp [Conn.client, room]) rfl told, sends.sound sound⟩

theorem handlePacket_packet {c : Conn} {type : UInt16} {payload : Bytes} (sound : Sound cfg w)
    (found : w.conns fd = some c) :
    Packet (rules k cfg) fd payload type w.state (w.handlePacket k cfg fd type payload).state ∧
      Sound cfg (w.handlePacket k cfg fd type payload) := by
  by_cases isNick : type = cSetNick
  · subst isNick
    simp only [handlePacket, found, if_true]
    have named : (w.update fd fun c => { c with nick := payload.take nickMax }).state =
        w.state.setNick fd (payload.take nickMax) := state_update fun _ _ => rfl
    have renames : Sends w (w.update fd fun c => { c with nick := payload.take nickMax }) :=
      .update fun _ _ => ⟨rfl, rfl, rfl, rfl, id, fun queue => ⟨queue.1, queue.2⟩⟩
    refine ⟨?_, queueSend_sends.sound (renames.sound sound)⟩
    rw [state_queueSend (renames.queues sound.queues), named]
    exact .setNick
  · by_cases isJoin : type = cJoin
    · subst isJoin
      simp only [handlePacket, found, isNick, if_true, if_false]
      exact joinPacket_packet sound found
    · by_cases isChat : type = cChat
      · subst isChat
        simp only [handlePacket, found, isNick, isJoin, if_true, if_false]
        exact chatPacket_packet sound found
      · simp only [handlePacket, found, isNick, isJoin, isChat, if_false]
        exact ⟨state_doom ▸ .unknown isNick isJoin isChat, doom_sends.sound sound⟩

/-! ## Reading -/

/-- The ring of a connection holds the bytes that its peer has in the event loop. -/
theorem holds_input {c : Conn} (rings : Rings w) (found : w.conns fd = some c) :
    Holds rxRing c.input (c.client w.rooms).input := by
  obtain ⟨bytes, holds⟩ := rings fd c found
  have same : (c.client w.rooms).input = bytes := by
    change c.input.peek rxRing c.input.usedSize = bytes
    rw [holds.usedSize, holds.peek (Nat.le_refl _), List.take_length]
  rwa [same]

theorem emit_sound (sound : Sound cfg w) (obs : Obs Bytes) : Sound cfg (w.emit obs) :=
  (Sends.emit obs).sound sound

theorem setInput_sound {c : Conn} {ring : Conn → Ring} {bytes : Bytes} (sound : Sound cfg w)
    (found : w.conns fd = some c) (holds : Holds rxRing (ring c) bytes) :
    (w.update fd fun c => { c with input := ring c }).state = w.state.setInput fd bytes ∧
      Sound cfg (w.update fd fun c => { c with input := ring c }) := by
  have state : (w.update fd fun c => { c with input := ring c }).state =
      w.state.setInput fd bytes := by
    refine state_update fun c' again => ?_
    rw [found, Option.some.injEq] at again
    subst again
    have read : (ring c).peek rxRing (ring c).usedSize = bytes := by
      rw [holds.usedSize, holds.peek (Nat.le_refl _), List.take_length]
    simp only [Conn.client, read]
    rfl
  refine ⟨state, ?_, fun other c' present => ?_, fun other c' present => ?_, ?_, sound.healthy⟩
  · refine sound.rooms.congr (update_field_same (·.room) fun _ => rfl)
      (update_field_same (·.roomPrev) fun _ => rfl) (update_field_same (·.roomNext) fun _ => rfl)
      rfl rfl rfl fun other c' present => ?_
    rw [update_apply] at present
    split at present
    next own => exact own ▸ sound.rooms.slots fd c found
    · exact sound.rooms.slots other c' present
  · rw [update_apply] at present
    split at present
    next own =>
      rw [found, Option.map_some, Option.some.injEq] at present
      subst present
      have queue := sound.queues fd c found
      exact ⟨queue.1, queue.2⟩
    · exact sound.queues other c' present
  · rw [update_apply] at present
    split at present
    next own =>
      rw [found, Option.map_some, Option.some.injEq] at present
      subst present
      exact ⟨bytes, holds⟩
    · exact sound.rings other c' present
  · rw [state]
    exact (State.update_sameFds _ _ _).counted sound.counted

theorem state_noteHandled : (w.noteHandled fd).state = w.state.noteHandled fd := by
  rw [noteHandled, state_emit, State.noteHandled, state_clients]
  cases w.conns fd <;> rfl

theorem state_noteParsed (rings : Rings w) : (w.noteParsed fd).state = w.state.noteParsed fd := by
  rw [noteParsed, state_emit, State.noteParsed, state_clients]
  cases found : w.conns fd with
  | none => rfl
  | some c =>
      simp only [Option.elim_some, Option.map_some]
      rw [(holds_input rings found).usedSize]
      rfl

/-- What `handle_packet` does to the packet's own connection. -/
theorem packet_keeps {c : Conn} {type : UInt16} {payload : Bytes} (sound : Sound cfg w)
    (found : w.conns fd = some c) :
    ∃ c', (w.handlePacket k cfg fd type payload).conns fd = some c' ∧
      Holds rxRing c'.input (c.client w.rooms).input := by
  obtain ⟨packet, told⟩ := @handlePacket_packet k cfg w fd c type payload sound found
  have client : w.state.clients fd = some (c.client w.rooms) := by simp [found]
  have sends : Epoll.Sends False (fun _ => True) _ _ := packet.sends trivial fun _ => trivial
  obtain ⟨later, laterFound, carries⟩ := sends.present fd _ client
  obtain ⟨c', present, rfl⟩ := Option.map_eq_some_iff.mp laterFound
  exact ⟨c', present, carries.input ▸ holds_input told.rings present⟩

theorem handleDirect_packet {c : Conn} {type : UInt16} {payload : Bytes} {frame : Nat}
    (sound : Sound cfg w) (found : w.conns fd = some c)
    (complete : frame ≤ (c.client w.rooms).input.length)
    (contiguous : frame ≤ directDequeueSize rxRing c.input.dequeue c.input.enqueue)
    (body : payload = ((c.client w.rooms).input.take frame).drop headerSize) :
    ∃ told c', Packet (rules k cfg) fd payload type
        (w.state.emit (.packet w.clients fd type payload)) told ∧
      (w.handleDirect k cfg fd c type frame).state =
        (told.noteHandled fd).setInput fd ((c.client w.rooms).input.drop frame) ∧
      Sound cfg (w.handleDirect k cfg fd c type frame) ∧
      (w.handleDirect k cfg fd c type frame).conns fd = some c' ∧
      c'.input.usedSize = (c.client w.rooms).input.length - frame := by
  have read : (c.input.direct rxRing frame).drop headerSize = payload := by
    rw [(holds_input sound.rings found).direct contiguous, body]
  have emitted := emit_sound sound (.packet w.clients fd type payload)
  obtain ⟨packet, told⟩ := @handlePacket_packet k cfg _ fd c type payload emitted found
  obtain ⟨c', present, holds⟩ := @packet_keeps k cfg _ fd c type payload emitted found
  simp only [handleDirect, read]
  generalize (w.emit (.packet w.clients fd type payload)).handlePacket k cfg fd type payload =
    after at *
  have committed := holds.commitDequeue complete
  obtain ⟨state, moved⟩ := @setInput_sound cfg _ fd c' (fun c => c.input.commitDequeue frame) _
    (emit_sound told (.handled fd ((after.conns fd).elim false (·.closing)))) present committed
  refine ⟨_, { c' with input := c'.input.commitDequeue frame }, packet, ?_, moved, ?_, ?_⟩
  · exact state.trans (congrArg (State.setInput · fd _) state_noteHandled)
  · simp [update, noteHandled, emit, present]
  · exact committed.usedSize.trans List.length_drop

theorem handleScratch_packet {c : Conn} {type : UInt16} {payload : Bytes} {frame : Nat}
    (sound : Sound cfg w) (found : w.conns fd = some c)
    (complete : frame ≤ (c.client w.rooms).input.length)
    (body : payload = ((c.client w.rooms).input.take frame).drop headerSize) :
    ∃ told c', Packet (rules k cfg) fd payload type
        ((w.state.emit (.packet w.clients fd type payload)).setInput fd
          ((c.client w.rooms).input.drop frame)) told ∧
      (w.handleScratch k cfg fd c type frame).state = told.noteHandled fd ∧
      Sound cfg (w.handleScratch k cfg fd c type frame) ∧
      (w.handleScratch k cfg fd c type frame).conns fd = some c' ∧
      c'.input.usedSize = (c.client w.rooms).input.length - frame := by
  obtain ⟨scratch, popped⟩ := (holds_input sound.rings found).pop complete
  have read : ((c.input.pop rxRing frame).2).drop headerSize = payload := by rw [scratch, body]
  obtain ⟨state, moved⟩ := @setInput_sound cfg _ fd c (fun _ => (c.input.pop rxRing frame).1) _
    (emit_sound sound (.packet w.clients fd type payload)) found popped
  have present : ((w.emit (.packet w.clients fd type payload)).update fd fun c' =>
      { c' with input := (c.input.pop rxRing frame).1 }).conns fd =
        some { c with input := (c.input.pop rxRing frame).1 } := by
    simp [update, emit, found]
  obtain ⟨packet, told⟩ := @handlePacket_packet k cfg _ fd _ type payload moved present
  obtain ⟨c', last, holds⟩ := @packet_keeps k cfg _ fd _ type payload moved present
  have kept : (Conn.client ((w.emit (.packet w.clients fd type payload)).update fd fun c' =>
      { c' with input := (c.input.pop rxRing frame).1 }).rooms
        { c with input := (c.input.pop rxRing frame).1 }).input =
          (c.client w.rooms).input.drop frame := by
    change (c.input.pop rxRing frame).1.peek rxRing (c.input.pop rxRing frame).1.usedSize = _
    rw [popped.usedSize, popped.peek (Nat.le_refl _), List.take_length]
  rw [kept] at holds
  rw [state] at packet
  simp only [handleScratch, read]
  refine ⟨_, c', packet, state_noteHandled, emit_sound told _, last, ?_⟩
  exact holds.usedSize.trans List.length_drop

theorem parseLoop_parse (fuel : Nat) (sound : Sound cfg w)
    (enough : ∀ c, w.conns fd = some c → c.input.usedSize ≤ fuel) :
    Parse (rules k cfg) fd w.state (parseLoop k cfg fd fuel w).state ∧
      Sound cfg (parseLoop k cfg fd fuel w) := by
  induction fuel generalizing w with
  | zero =>
      refine ⟨?_, sound⟩
      cases found : w.conns fd with
      | none => exact .closing (by simp [State.Open, found])
      | some c =>
          have client : w.state.clients fd = some (c.client w.rooms) := by simp [found]
          have length := (holds_input sound.rings found).usedSize
          have empty : (c.client w.rooms).input = [] :=
            List.length_eq_zero_iff.mp (length ▸ Nat.le_zero.mp (enough c found))
          cases closing : c.closing with
          | true => exact .closing (by simp [State.open_iff client, Conn.client, closing])
          | false =>
              exact .more client closing
                (by rw [empty]; simp [Framing.next, Framing.headerSize])
  | succ fuel ih =>
      cases found : w.conns fd with
      | none =>
          simp only [parseLoop, found]
          exact ⟨.closing (by simp [State.Open, found]), sound⟩
      | some c =>
          have client : w.state.clients fd = some (c.client w.rooms) := by simp [found]
          have holds := holds_input sound.rings found
          have bound := enough c found
          have next := next_eq (c.client w.rooms).input
          simp only [parseLoop, found]
          cases closing : c.closing with
          | true =>
              rw [if_pos (Or.inl rfl)]
              exact ⟨.closing (by simp [State.open_iff client, Conn.client, closing]), sound⟩
          | false =>
              simp only [Bool.false_eq_true, false_or]
              rw [holds.usedSize] at bound ⊢
              split
              next short =>
                exact ⟨.more client closing (next.trans (if_pos short)), sound⟩
              next long =>
                have header : c.input.peek rxRing headerSize =
                    (c.client w.rooms).input.take headerSize := holds.peek (Nat.not_lt.mp long)
                have first : LittleEndian.read (c.input.peek rxRing headerSize) =
                    LittleEndian.read (c.client w.rooms).input := by
                  rw [header]
                  exact LittleEndian.read_take (by decide) _
                have second : LittleEndian.read ((c.input.peek rxRing headerSize).drop 2) =
                    LittleEndian.read ((c.client w.rooms).input.drop 2) := by
                  rw [header, List.drop_take]
                  exact LittleEndian.read_take (by decide) _
                rw [if_neg long] at next
                rw [first, second]
                split
                next beyond =>
                  refine ⟨?_, doom_sends.sound (emit_sound sound _)⟩
                  rw [state_doom, state_emit]
                  exact .oversize client closing (next.trans (if_pos beyond))
                next within =>
                  rw [if_neg within] at next
                  split
                  next cut => exact ⟨.more client closing (next.trans (if_pos cut)), sound⟩
                  next complete =>
                    rw [if_neg complete] at next
                    have body : ((c.client w.rooms).input.drop headerSize).take
                        (LittleEndian.read (c.client w.rooms).input).toNat =
                        ((c.client w.rooms).input.take (headerSize +
                          (LittleEndian.read (c.client w.rooms).input).toNat)).drop headerSize := by
                      rw [List.drop_take, Nat.add_sub_cancel_left]
                    have rest : ∀ c' : Conn, c'.input.usedSize =
                        (c.client w.rooms).input.length -
                          (headerSize + (LittleEndian.read (c.client w.rooms).input).toNat) →
                        c'.input.usedSize ≤ fuel := by
                      intro c' used
                      simp only [headerSize, Framing.headerSize] at used
                      omega
                    split
                    next contiguous =>
                      obtain ⟨told, c', packet, moved, after, last, used⟩ :=
                        @handleDirect_packet k cfg w fd c
                          (LittleEndian.read ((c.client w.rooms).input.drop 2)) _ _ sound found
                          (Nat.not_lt.mp complete) contiguous body
                      obtain ⟨parse, parsed⟩ := ih after fun other present => by
                        rw [last, Option.some.injEq] at present
                        exact present ▸ rest c' used
                      rw [moved] at parse
                      exact ⟨.late client closing next packet parse, parsed⟩
                    next straddles =>
                      obtain ⟨told, c', packet, moved, after, last, used⟩ :=
                        @handleScratch_packet k cfg w fd c
                          (LittleEndian.read ((c.client w.rooms).input.drop 2)) _ _ sound found
                          (Nat.not_lt.mp complete) body
                      obtain ⟨parse, parsed⟩ := ih after fun other present => by
                        rw [last, Option.some.injEq] at present
                        exact present ▸ rest c' used
                      rw [moved] at parse
                      exact ⟨.early client closing next packet parse, parsed⟩

theorem parseFrames_parse (sound : Sound cfg w) :
    ∃ told, Parse (rules k cfg) fd w.state told ∧
      (w.parseFrames k cfg fd).state = told.noteParsed fd ∧ Sound cfg (w.parseFrames k cfg fd) := by
  obtain ⟨parse, after⟩ := @parseLoop_parse k cfg w fd ((w.conns fd).elim 0 (·.input.usedSize)) sound
    (by
      intro c found
      rw [found]
      exact Nat.le_refl _)
  exact ⟨_, parse, state_noteParsed after.rings, emit_sound after _⟩

/-- A ring that holds less than one frame takes all that `recv` was asked for. -/
theorem enqueueInput_receives {c : Conn} {chunk : Bytes} (sound : Sound cfg w)
    (found : w.conns fd = some c)
    (room : (c.client w.rooms).input.length + chunk.length ≤ rxRing.size) :
    ((w.emit (.recv fd chunk)).enqueueInput fd c chunk).state =
        w.state.receive fd (c.client w.rooms) chunk ∧
      Sound cfg ((w.emit (.recv fd chunk)).enqueueInput fd c chunk) := by
  have small := rxRing.size_le
  have narrow : rxRing.size = 2 ^ 15 := rfl
  obtain ⟨count, pushed⟩ := (holds_input sound.rings found).push room (by omega)
  obtain ⟨state, moved⟩ := @setInput_sound cfg _ fd c (fun _ => (c.input.push rxRing chunk).1) _
    (emit_sound sound (.recv fd chunk)) found pushed
  simp only [enqueueInput, count, if_true]
  exact ⟨state, moved⟩

theorem onReadable_reads (fuel : Nat) (script : List (RecvAnswer UInt8)) (sound : Sound cfg w)
    (short : w.state.Short) (opened : w.state.Open fd) (enough : scriptCost script ≤ fuel) :
    Reads (rules k cfg) fd script w.state (onReadable k cfg fd fuel script w).state ∧
      Sound cfg (onReadable k cfg fd fuel script w) := by
  induction fuel generalizing w script with
  | zero => exact absurd (scriptCost_pos script) (by omega)
  | succ fuel ih =>
      obtain ⟨c, found, closing⟩ := conn_of_open opened
      have client : w.state.clients fd = some (c.client w.rooms) := by simp [found]
      have holds := holds_input sound.rings found
      have little : (c.client w.rooms).input.length < 1028 := short fd _ client closing
      have narrow : rxRing.size = 32768 := rfl
      have free := holds.freeSize
      have asks : min (c.input.freeSize rxRing) recvSize =
          32768 - (c.client w.rooms).input.length := by
        rw [free, narrow]
        exact Nat.min_eq_left (Nat.le_trans (Nat.sub_le _ _) (by decide))
      have wants : 32768 - (c.client w.rooms).input.length ≠ 0 := by omega
      have doomed : ∀ obs, (((w.emit obs).doom fd).state = (w.state.emit obs).doom fd) ∧
          Sound cfg ((w.emit obs).doom fd) :=
        fun obs => ⟨state_doom, doom_sends.sound (emit_sound sound obs)⟩
      have drained : Sound cfg ((w.emit (.recv fd [])).afterQueue k cfg fd) :=
        afterQueue_sends.sound (emit_sound sound _)
      have follows : Follows (rules k cfg) fd (w.state.emit (.recv fd []))
          ((w.emit (.recv fd [])).afterQueue k cfg fd).state :=
        afterQueue_follows (emit_sound sound (.recv fd [])).queues
      simp only [onReadable, found, asks, wants, if_false]
      cases script with
      | nil => exact ⟨.drained (.inl rfl) follows, drained⟩
      | cons answer script =>
          cases answer with
          | eof =>
              obtain ⟨state, last⟩ := doomed (.recv fd [])
              exact ⟨state ▸ .ended ⟨script, .inr (.inl rfl)⟩, last⟩
          | failed =>
              obtain ⟨state, last⟩ := doomed (.recv fd [])
              exact ⟨state ▸ .ended ⟨script, .inr (.inr rfl)⟩, last⟩
          | wouldBlock => exact ⟨.drained (.inr ⟨script, rfl⟩) follows, drained⟩
          | interrupted =>
              simp only [scriptCost] at enough
              obtain ⟨reads, after⟩ := @ih (w.emit (.recv fd [])) script (emit_sound sound _) short
                opened (by omega)
              exact ⟨.interrupted reads, after⟩
          | data bytes =>
              have split : bytes = bytes.take (32768 - (c.client w.rooms).input.length) ++
                  bytes.drop (32768 - (c.client w.rooms).input.length) :=
                (List.take_append_drop _ _).symm
              have size : (bytes.take (32768 - (c.client w.rooms).input.length)).length ≤
                  32768 - (c.client w.rooms).input.length := List.length_take_le _ _
              simp only
              generalize 32768 - (c.client w.rooms).input.length = want at *
              split
              next empty =>
                have none : bytes = [] := by
                  cases bytes with
                  | nil => rfl
                  | cons byte bytes =>
                      obtain ⟨more, rfl⟩ := Nat.exists_eq_succ_of_ne_zero wants
                      simp at empty
                subst none
                obtain ⟨state, last⟩ := doomed (.recv fd [])
                exact ⟨state ▸ .ended ⟨script, .inl rfl⟩, last⟩
              next some =>
                obtain ⟨grown, grownSound⟩ := @enqueueInput_receives cfg w fd c (bytes.take want)
                  sound found (by rw [narrow]; omega)
                obtain ⟨told, parse, parsed, parsedSound⟩ := @parseFrames_parse k cfg _ fd grownSound
                rw [grown] at parse
                generalize ((w.emit (.recv fd (bytes.take want))).enqueueInput fd c
                  (bytes.take want)).parseFrames k cfg fd = after at *
                have stillOpen : told.Open fd ↔ after.state.Open fd := by rw [parsed]; exact .rfl
                rw [split]
                split
                next shut =>
                  refine ⟨parsed ▸ .stopped client some parse ?_, parsedSound⟩
                  rw [stillOpen, open_iff, shut]
                  exact Bool.noConfusion
                next notShut =>
                  have afterOpen : after.state.Open fd := by
                    rw [open_iff]
                    exact Bool.eq_false_iff.mpr notShut
                  rw [← split]
                  split
                  next stops =>
                    have last := @afterQueue_follows k cfg after fd parsedSound.queues
                    rw [parsed] at last
                    have whole := @Reads.short _ (rules k cfg) fd _ _ _ _ _
                      (bytes.drop want) script client some stops.1 parse (stillOpen.mpr afterOpen) last
                    rw [← split] at whole
                    exact ⟨whole, afterQueue_sends.sound parsedSound⟩
                  next goesOn =>
                    have cost := pushBack_cost (bytes.drop want) script
                    have sizes := congrArg List.length split
                    have nonempty := List.length_pos_iff.mpr some
                    rw [List.length_append] at sizes
                    simp only [scriptCost] at enough
                    have afterShort : after.state.Short := by
                      rw [parsed]
                      exact parse.endsShort fun other apart =>
                        (short other).congr (State.update_clients_ne _ apart)
                    obtain ⟨reads, last⟩ := ih (pushBack (bytes.drop want) script) parsedSound
                      afterShort afterOpen (by omega)
                    rw [parsed] at reads
                    have whole := Reads.again client some parse (stillOpen.mpr afterOpen) reads
                    rw [← split] at whole
                    exact ⟨whole, last⟩

/-! ## The main loop -/

theorem threaded_range (slots start count : Nat) (whole : start + count = slots) :
    Threaded (fun idx => if idx + 1 < slots then some (idx + 1) else none)
      (List.range' start count) := by
  induction count generalizing start with
  | zero => trivial
  | succ count ih =>
      refine ⟨?_, ih (start + 1) (by omega)⟩
      cases count with
      | zero => exact if_neg (by omega)
      | succ count => exact if_pos (by omega)

theorem RoomsOk.init (cfg : Config) : RoomsOk cfg none (init cfg) := by
  have granted : heap.array (CstrHashMap.nextPowerOfTwo 1024) = true := by decide
  obtain ⟨index, made⟩ : ∃ index, CstrHashMap.Map.construct (V := Nat) heap 1024 = some index :=
    ⟨_, if_pos granted⟩
  have same : (World.init cfg).roomIndex = index := by
    rw [World.init, made]
    rfl
  obtain ⟨ok, empty, usable⟩ := @CstrHashMap.Map.construct_ok _ (World.init cfg).names _ _ _
    (by decide) made
  refine ⟨nofun, nofun, fun _ _ => ⟨rfl, rfl⟩, nofun, ⟨List.range cfg.slots, List.nodup_range, ?_, ?_,
    fun idx => ?_⟩, same ▸ ok, same ▸ usable, fun node => ?_, nofun⟩
  · rw [List.head?_range]
    exact (if_neg (Nat.succ_ne_zero _)).symm
  · rw [List.range_eq_range']
    exact threaded_range cfg.slots 0 cfg.slots (Nat.zero_add _)
  · rw [List.mem_range]
    exact (and_iff_left rfl).symm
  · rw [same, empty]
    exact iff_of_false nofun fun both => nomatch both.1

theorem Sound.init (cfg : Config) : Sound cfg (init cfg) :=
  ⟨.init cfg, nofun, nofun, ⟨[], .nil, by simp [State.Live, World.init, state, clients], rfl⟩, rfl⟩

theorem close_state : (w.close fd).state = w.state.remove fd := by
  have clients : (fun other => (Function.update w.conns fd none other).map (Conn.client w.rooms)) =
      Function.update w.clients fd none := by
    funext other
    by_cases own : other = fd
    · subst own
      simp
    · simp [own, World.clients]
  simp only [state, State.remove, close, World.emit, State.emit]
  exact congrArg (State.mk · _ _ _ _ _) clients

theorem construct_state : (w.construct fd).state = w.state.insert fd := by
  have clients : (fun other => (Function.update w.conns fd (some {}) other).map
      (Conn.client w.rooms)) = Function.update w.clients fd (some {}) := by
    funext other
    by_cases own : other = fd
    · subst own
      simp only [Function.update_self, Option.map_some]
      rfl
    · simp [own, World.clients]
  simp only [state, State.insert, construct, World.emit, State.emit]
  exact congrArg (State.mk · _ _ _ _ _) clients

/-- A slot that is in no room may be emptied or filled. -/
theorem RoomsOk.replace (ok : RoomsOk cfg none w) {slot : Option Conn}
    (outside : w.roomOf fd = none) (fresh : slot.bind (·.room) = none ∧
      slot.bind (·.roomPrev) = none ∧ slot.bind (·.roomNext) = none)
    (conns : after.conns = Function.update w.conns fd slot) (rooms : after.rooms = w.rooms)
    (roomFree : after.roomFree = w.roomFree) (roomIndex : after.roomIndex = w.roomIndex)
    (inside : fd < cfg.slots ∨ slot = none) : RoomsOk cfg none after := by
  obtain ⟨prev, next⟩ := ok.homeless fd outside
  have field : ∀ {α : Type} (field : Conn → Option α), slot.bind field = none →
      (w.conns fd).bind field = none →
      (fun fd => (after.conns fd).bind field) = fun fd => (w.conns fd).bind field := by
    intro α field new old
    funext other
    rw [conns, Function.update_apply]
    split
    next own => rw [own, new, old]
    · rfl
  refine ok.congr (field _ fresh.1 outside) (field _ fresh.2.1 prev) (field _ fresh.2.2 next) rooms
    roomFree roomIndex fun other c found => ?_
  rw [conns, Function.update_apply] at found
  split at found
  next own =>
    rcases inside with inside | empty
    · exact own ▸ inside
    · rw [empty] at found
      cases found
  · exact ok.slots other c found

theorem close_sound (sound : Sound cfg w) (live : w.state.Live fd) (outside : w.roomOf fd = none) :
    Sound cfg (w.close fd) := by
  refine ⟨sound.rooms.replace outside ⟨rfl, rfl, rfl⟩ rfl rfl rfl rfl (.inr rfl),
    fun other c found => ?_, fun other c found => ?_, ?_, sound.healthy⟩
  · simp only [close, emit, Function.update_apply] at found
    split at found
    · cases found
    · exact sound.queues other c found
  · simp only [close, emit, Function.update_apply] at found
    split at found
    · cases found
    · exact sound.rings other c found
  · rw [close_state]
    exact State.remove_counted sound.counted live

theorem construct_sound (sound : Sound cfg w) (free : w.conns fd = none) (inside : fd < cfg.slots) :
    Sound cfg (w.construct fd) := by
  have outside : w.roomOf fd = none := by simp [roomOf, free]
  refine ⟨sound.rooms.replace outside ⟨rfl, rfl, rfl⟩ rfl rfl rfl rfl (.inl inside),
    fun other c found => ?_, fun other c found => ?_, ?_, sound.healthy⟩
  · simp only [construct, emit, Function.update_apply] at found
    split at found
    · rw [Option.some.injEq] at found
      subst found
      exact ⟨Nat.le_refl 0, Nat.zero_le _⟩
    · exact sound.queues other c found
  · simp only [construct, emit, Function.update_apply] at found
    split at found
    · rw [Option.some.injEq] at found
      subst found
      exact ⟨[], .empty⟩
    · exact sound.rings other c found
  · rw [construct_state]
    exact State.insert_counted sound.counted (by simp [State.Live, free])

theorem onAccept_accepts (answers : List AcceptAnswer) (sound : Sound cfg w) :
    (onAccept cfg answers w).state = State.onAccept (rules k cfg) answers w.state ∧
      Sound cfg (onAccept cfg answers w) := by
  induction answers generalizing w with
  | nil => exact ⟨rfl, sound⟩
  | cons answer answers ih =>
      cases answer with
      | interrupted | aborted => exact ih sound
      | outOfFds | failed | wouldBlock => exact ⟨rfl, sound⟩
      | arrived fd added =>
          cases found : w.conns fd with
          | some c =>
              simp only [onAccept, State.onAccept, state_clients, found, Option.map_some,
                Option.isSome_some, if_true]
              exact ih sound
          | none =>
              have full_iff : (rules k cfg).full w.state.size fd = true ↔
                  (cfg.maxConns ≤ w.totalLive ∨ cfg.slots ≤ fd) := decide_eq_true_iff
              simp only [onAccept, State.onAccept, state_clients, found, Option.map_none,
                Option.isSome_none, Bool.false_eq_true, if_false, full_iff]
              by_cases full : cfg.maxConns ≤ w.totalLive ∨ cfg.slots ≤ fd
              · rw [if_pos full, if_pos (Or.inl full)]
                exact ih (emit_sound sound _)
              · rw [if_neg full]
                cases added with
                | false =>
                    rw [if_pos rfl, if_pos (Or.inr rfl)]
                    exact ih (emit_sound sound _)
                | true =>
                    have free : ¬ ((cfg.maxConns ≤ w.totalLive ∨ cfg.slots ≤ fd) ∨ true = false) := by
                      rintro (wrong | wrong)
                      · exact full wrong
                      · cases wrong
                    rw [if_neg Bool.noConfusion, if_neg free]
                    have inside : fd < cfg.slots := Nat.not_le.mp fun beyond => full (.inr beyond)
                    obtain ⟨same, last⟩ := ih (construct_sound sound found inside)
                    exact ⟨same.trans (congrArg _ construct_state), last⟩

theorem handleReady_handles {what : Ready} (sound : Sound cfg w) (short : w.state.Short) :
    Handles (rules k cfg) (.ready what) w.state (w.handleReady k cfg what).state ∧
      Sound cfg (w.handleReady k cfg what) := by
  cases found : w.conns what.fd with
  | none =>
      simp only [handleReady, found]
      exact ⟨.gone (by simp [State.Open, found]), sound⟩
  | some c =>
      have client : w.state.clients what.fd = some (c.client w.rooms) := by simp [found]
      cases closing : c.closing with
      | true =>
          simp only [handleReady, found, closing, if_true]
          exact ⟨.gone (by simp [State.open_iff client, Conn.client, closing]), sound⟩
      | false =>
          have opened : w.state.Open what.fd := ⟨_, client, closing⟩
          cases hangup : what.hangup with
          | true =>
              simp only [handleReady, found, closing, hangup, Bool.false_eq_true, if_true, if_false]
              exact ⟨state_doom ▸ .hangup opened hangup, doom_sends.sound sound⟩
          | false =>
              obtain ⟨flushed, flushes, flushedSound, flushedShort, same⟩ : ∃ flushed : World,
                  (what.writable = true ∧ Flushes (rules k cfg) what.fd w.state flushed.state ∨
                    what.writable = false ∧ flushed.state = w.state) ∧ Sound cfg flushed ∧
                  flushed.state.Short ∧
                  (if what.writable then w.flushSend k what.fd else w) = flushed := by
                cases writable : what.writable with
                | true =>
                    have flushes : Flushes (rules k cfg) what.fd w.state _ :=
                      flushSend_flushes sound.queues
                    exact ⟨_, .inl ⟨rfl, flushes⟩, flushSend_sends.sound sound,
                      flushes.keepsShort short, if_pos rfl⟩
                | false => exact ⟨w, .inr ⟨rfl, rfl⟩, sound, short, if_neg Bool.noConfusion⟩
              simp only [handleReady, found, closing, hangup, Bool.false_eq_true, if_false, same]
              by_cases reads : flushed.state.Open what.fd ∧ what.readable = true
              · rw [if_pos ⟨open_iff.mp reads.1, reads.2⟩]
                obtain ⟨read, after⟩ := @onReadable_reads k cfg flushed what.fd
                  (scriptCost what.script) what.script flushedSound flushedShort reads.1
                  (Nat.le_refl _)
                exact ⟨.serve opened hangup flushes (.inl ⟨reads.1, reads.2, read⟩), after⟩
              · rw [if_neg fun both => reads ⟨open_iff.mpr both.1, both.2⟩]
                exact ⟨.serve opened hangup flushes (.inr ⟨reads, rfl⟩), flushedSound⟩

theorem handleEvent_handles (event : Event) (sound : Sound cfg w) (short : w.state.Short) :
    Handles (rules k cfg) event w.state (w.handleEvent k cfg event).state ∧
      Sound cfg (w.handleEvent k cfg event) := by
  cases event with
  | accept answers =>
      obtain ⟨same, after⟩ := @onAccept_accepts k cfg w answers sound
      simp only [handleEvent, same]
      exact ⟨.accept, after⟩
  | signal =>
      exact ⟨.signal, sound.rooms.congr rfl rfl rfl rfl rfl rfl sound.rooms.slots, sound.queues,
        sound.rings, sound.counted, sound.healthy⟩
  | ready what => exact handleReady_handles sound short

theorem drain_drains (events : List Event) (sound : Sound cfg w) (short : w.state.Short) :
    Drains (rules k cfg) events w.state (events.foldl (handleEvent k cfg) w).state ∧
      Sound cfg (events.foldl (handleEvent k cfg) w) ∧
      (events.foldl (handleEvent k cfg) w).state.Short := by
  induction events generalizing w with
  | nil => exact ⟨.nil, sound, short⟩
  | cons event events ih =>
      obtain ⟨handles, next⟩ := @handleEvent_handles k cfg w event sound short
      obtain ⟨drains, last⟩ := ih next (handles.keepsShort short)
      exact ⟨.cons handles drains, last⟩

/-! ### The flush pass and the reaping -/

theorem flushDirtyOne_sends : Sends w (flushDirtyOne k w fd) := by
  have cleaned : Sends w (w.update fd fun c => { c with dirty := false }) :=
    .update fun _ _ => ⟨rfl, rfl, rfl, rfl, id, fun queue => ⟨queue.1, queue.2⟩⟩
  unfold flushDirtyOne
  split
  · exact .refl w
  · simp only
    split
    · exact cleaned
    · exact cleaned.trans flushSend_sends

theorem state_flushDirtyOne_open (cfg : Config) (queues : Queues w) (opened : w.state.Open fd) :
    ∃ done, (rules k cfg).modifies done ∧
      (flushDirtyOne k w fd).state = (w.state.clean fd).flushSend (k.send w.clock) done fd := by
  obtain ⟨c, found, closing⟩ := conn_of_open opened
  have one : flushDirtyOne k w fd =
      (w.update fd fun c => { c with dirty := false }).flushSend k fd := by
    simp only [flushDirtyOne, found, closing, Bool.false_eq_true, if_false]
  have cleaned : (w.update fd fun c => { c with dirty := false }).state = w.state.clean fd :=
    state_update fun _ _ => rfl
  have cleans : Sends w (w.update fd fun c => { c with dirty := false }) :=
    .update fun _ _ => ⟨rfl, rfl, rfl, rfl, id, fun queue => ⟨queue.1, queue.2⟩⟩
  rw [one, ← cleaned]
  exact state_flushSend cfg (cleans.queues queues)

theorem state_flushDirtyOne_shut (shut : ¬ w.state.Open fd) :
    (flushDirtyOne k w fd).state = w.state.clean fd := by
  cases found : w.conns fd with
  | none =>
      have same : (w.state.clean fd).clients = w.state.clients := by
        funext other
        by_cases own : other = fd
        · subst own
          simp [State.clean, found]
        · simp [State.clean, own]
      simp only [flushDirtyOne, found]
      exact (congrArg (fun clients => ({ w.state with clients } : State Bytes)) same).symm
  | some c =>
      simp only [flushDirtyOne, found, closing_of_shut shut found, if_true]
      exact state_update fun _ _ => rfl

theorem flushDirty_flushes (sound : Sound cfg w) :
    FlushDirty (rules k cfg) w.state.dirty w.state (w.flushDirty k).state ∧
      Sound cfg (w.flushDirty k) := by
  have walk : ∀ (fds : List Fd) (w : World), Queues w →
      FlushDirty (rules k cfg) fds w.state
          (World.state { fds.foldl (flushDirtyOne k) w with dirty := [] }) ∧
        Sends w (fds.foldl (flushDirtyOne k) w) := by
    intro fds
    induction fds with
    | nil => exact fun w _ => ⟨.nil, .refl w⟩
    | cons fd fds ih =>
        intro w queues
        have sends : Sends w (flushDirtyOne k w fd) := flushDirtyOne_sends
        obtain ⟨rest, restSends⟩ := ih (flushDirtyOne k w fd) (sends.queues queues)
        refine ⟨?_, sends.trans restSends⟩
        by_cases opened : w.state.Open fd
        · obtain ⟨done, modifies, same⟩ := @state_flushDirtyOne_open k w fd cfg queues opened
          exact .flush opened ⟨_, done, modifies, same⟩ rest
        · rw [state_flushDirtyOne_shut opened] at rest
          exact .skip opened rest
  obtain ⟨flushes, sends⟩ := walk w.dirty w sound.queues
  have cleared : Sends (w.dirty.foldl (flushDirtyOne k) w) (w.flushDirty k) :=
    .of_conns rfl rfl rfl rfl rfl rfl
  exact ⟨flushes, (sends.trans cleared).sound sound⟩

theorem depart_departs {c : Conn} (sound : Sound cfg w) (found : w.conns fd = some c) :
    Depart (rules k cfg) fd (c.client w.rooms) w.state (w.depart k cfg fd c).state ∧
      Sound cfg (w.depart k cfg fd c) ∧ (w.depart k cfg fd c).roomOf fd = none := by
  obtain ⟨_, outside, _⟩ := leaveRoom_ok found sound.rooms
  obtain ⟨state, _⟩ := leaveRoom_state found sound.rooms
  have left := leaveRoom_sound found sound
  by_cases announces : c.room ≠ none ∧ c.nick ≠ []
  · obtain ⟨idx, room⟩ := Option.ne_none_iff_exists'.mp announces.1
    have live := sound.rooms.housed fd idx ((roomOf_eq found).trans room)
    obtain ⟨leaves, _, ends⟩ := leaveRoom_left sound.rooms found room
    have name : ((w.leaveRoom cfg fd).rooms idx).name = (w.rooms idx).name := by
      rcases ends with ⟨_, rooms, _⟩ | ⟨_, rooms, _⟩ <;> rw [rooms, Function.update_self]
    have own : ∀ other, (w.leaveRoom cfg fd).state.InRoom ((w.leaveRoom cfg fd).rooms idx).name other ↔
        (w.leaveRoom cfg fd).roomOf other = some idx := by
      intro other
      rw [name, state, leaves.roomOf, Function.update_apply]
      by_cases same : other = fd
      · subst same
        simp [State.InRoom, State.enterRoom, found]
      · rw [if_neg same, ← sound.rooms.inRoom_iff live]
        simp [State.InRoom, State.enterRoom, same]
    obtain ⟨told, sends⟩ := @broadcast_broadcasts k cfg _ idx sNotice (leftNotice c.nick) (some fd)
      left own
    rw [name, state] at told
    simp only [depart, announces, ne_eq, not_false_eq_true, and_self, if_true]
    rw [room]
    refine ⟨.notice (by simp [Conn.client, room]) announces.2 told, sends.sound left, ?_⟩
    rw [sends.roomOf]
    exact outside
  · rw [depart, if_neg announces]
    refine ⟨?_, left, outside⟩
    rw [state]
    refine .silent ?_
    by_cases empty : c.room = none
    · exact .inl (by simp [Conn.client, empty])
    · exact .inr (by
        by_contra named
        exact announces ⟨empty, named⟩)

/-- The bound on the index loop is the doomed plus the open connections: what a
departure dooms was open. A larger bound changes nothing. -/
theorem reapLoop_reaps (fds : List Fd) (nodup : fds.Nodup) (fuel index : Nat) (sound : Sound cfg w)
    (covers : ∀ fd, w.state.Open fd → fd ∈ fds)
    (enough : (w.state.opens fds).length + w.state.doomed.length < fuel + index)
    (inside : index ≤ w.state.doomed.length) :
    Reap (rules k cfg) index w.state (reapLoop k cfg fuel index w).state ∧
      Sound cfg (reapLoop k cfg fuel index w) ∧
      ∀ more, reapLoop k cfg (fuel + more) index w = reapLoop k cfg fuel index w := by
  induction fuel generalizing w index with
  | zero => omega
  | succ fuel ih =>
      have longer : ∀ more, fuel + 1 + more = fuel + more + 1 := by omega
      cases at_index : w.doomed[index]? with
      | none =>
          have cleared : Sends w { w with doomed := [] } := .of_conns rfl rfl rfl rfl rfl rfl
          simp only [longer, reapLoop, at_index]
          exact ⟨.done (List.getElem?_eq_none_iff.mp at_index), cleared.sound sound,
            fun _ => trivial⟩
      | some fd =>
          have bound : index < w.state.doomed.length := by
            by_contra beyond
            have past : w.doomed[index]? = none := List.getElem?_eq_none (Nat.not_lt.mp beyond)
            rw [past] at at_index
            cases at_index
          cases found : w.conns fd with
          | none =>
              simp only [longer, reapLoop, at_index, found]
              obtain ⟨rest, last, same⟩ := ih (index + 1) sound covers (by omega) bound
              exact ⟨.gone at_index (by simp [State.Live, found]) rest, last, same⟩
          | some c =>
              simp only [longer, reapLoop, at_index, found]
              obtain ⟨departs, told, outside⟩ := @depart_departs k cfg
                (w.emit (.departs w.clients fd)) fd c (emit_sound sound _) found
              have sends : Epoll.Sends False (fun _ => True)
                (w.emit (.departs w.clients fd)).state _ := departs.sends trivial
              have live : w.state.Live fd := live_iff.mpr ⟨c, found⟩
              generalize (w.emit (.departs w.clients fd)).depart k cfg fd c = after at *
              obtain ⟨lighter, longer, fewer⟩ := sends.remove_weight nodup covers fd
              rw [← close_state] at lighter longer fewer
              have removed := close_sound told ((sends.live_iff fd).mpr live) outside
              have light : ((after.close fd).state.opens fds).length +
                  (after.close fd).state.doomed.length < fuel + (index + 1) :=
                Nat.lt_of_le_of_lt lighter (by rw [← Nat.add_assoc, Nat.add_right_comm]; exact enough)
              obtain ⟨rest, last, same⟩ := ih (index + 1) removed
                (fun other opened => covers other (fewer other opened)) light
                (Nat.le_trans bound longer)
              rw [close_state] at rest
              have client : w.state.clients fd = some (c.client w.rooms) := by simp [found]
              exact ⟨.close at_index client departs rest, last, same⟩

theorem reapDoomed_reaps (sound : Sound cfg w) :
    Reap (rules k cfg) 0 w.state (w.reapDoomed k cfg).state ∧ Sound cfg (w.reapDoomed k cfg) ∧
      ∀ more, reapLoop k cfg (w.doomed.length + w.totalLive + 1 + more) 0 w = w.reapDoomed k cfg := by
  obtain ⟨fds, nodup, member, size⟩ := id sound.counted
  have covers : ∀ fd, w.state.Open fd → fd ∈ fds := fun fd ⟨client, found, _⟩ =>
    (member fd).mpr ⟨client, found⟩
  have few : (w.state.opens fds).length ≤ fds.length := List.length_filter_le _ _
  have doomed : w.state.doomed = w.doomed := rfl
  change fds.length = w.totalLive at size
  exact reapLoop_reaps fds nodup _ 0 sound covers (by rw [doomed]; omega) (Nat.zero_le _)

theorem tail_tails (sound : Sound cfg w) :
    Tail (rules k cfg) w.state (w.tail k cfg).state ∧ Sound cfg (w.tail k cfg) := by
  cases batch : cfg.batchFlush with
  | true =>
      obtain ⟨flush, flushed⟩ := @flushDirty_flushes k cfg w sound
      obtain ⟨reap, reaped, _⟩ := @reapDoomed_reaps k cfg _ flushed
      obtain ⟨again, last⟩ := @flushDirty_flushes k cfg _ reaped
      simp only [tail, batch, if_true]
      exact ⟨.batch batch flush reap again, last⟩
  | false =>
      obtain ⟨reap, reaped, _⟩ := @reapDoomed_reaps k cfg w sound
      simp only [tail, batch, Bool.false_eq_true, if_false]
      exact ⟨.immediate batch reap, reaped⟩

theorem iterate_iterates (batch : Batch) (sound : Sound cfg w) (short : w.state.Short) :
    Iterates (rules k cfg) batch w.state (w.iterate k cfg batch).state ∧
      Sound cfg (w.iterate k cfg batch) ∧ (w.iterate k cfg batch).state.Short := by
  obtain ⟨drains, drained, _⟩ := @drain_drains k cfg (w.emit .wake) batch.events
    (emit_sound sound _) short
  obtain ⟨tails, last⟩ := @tail_tails k cfg _ drained
  have iterates : Iterates (rules k cfg) batch w.state (w.iterate k cfg batch).state :=
    .mk drains (.inr rfl) tails
  exact ⟨iterates, last, iterates.keepsShort short⟩

theorem runFrom_runs (batches : List Batch) (sound : Sound cfg w) (short : w.state.Short) :
    Runs (rules k cfg) batches w.state
        (batches.foldl (fun w batch => if w.running then w.iterate k cfg batch else w) w).state ∧
      Sound cfg (batches.foldl (fun w batch => if w.running then w.iterate k cfg batch else w) w) := by
  induction batches generalizing w with
  | nil => exact ⟨.nil, sound⟩
  | cons batch batches ih =>
      rw [List.foldl_cons]
      cases running : w.running with
      | false =>
          simp only [Bool.false_eq_true, if_false]
          have same : ∀ batches : List Batch, batches.foldl
              (fun w batch => if w.running then w.iterate k cfg batch else w) w = w := by
            intro batches
            induction batches with
            | nil => rfl
            | cons batch batches ih =>
                rw [List.foldl_cons, running]
                exact ih
          rw [same]
          exact ⟨.stop running, sound⟩
      | true =>
          simp only [if_true]
          obtain ⟨iterates, next, nextShort⟩ := @iterate_iterates k cfg w batch sound short
          obtain ⟨runs, last⟩ := ih next nextShort
          exact ⟨.cons running iterates runs, last⟩

theorem run_sound (k : Kernel) (cfg : Config) (batches : List Batch) :
    Runs (rules k cfg) batches State.init (run k cfg batches).state ∧
      Sound cfg (run k cfg batches) :=
  @runFrom_runs k cfg (init cfg) batches (.init cfg) State.init_short

/-- Every run of `server_sds.cpp` is a run of the event loop. -/
theorem run_runs (k : Kernel) (cfg : Config) (batches : List Batch) :
    Runs (rules k cfg) batches State.init (run k cfg batches).state :=
  (run_sound k cfg batches).1

end NetEngine.Epoll.ServerSds.World
