import Mathlib.Data.List.Nodup
import NetEngine.Epoll.JoinNotices
import NetEngine.Epoll.ServerRule

/-! What each call of `server.cpp` does to the tick buffers: a chat goes onto the buffer of
its room, the last member takes the buffer along, and a tick empties them all. -/

set_option autoImplicit false

namespace NetEngine.Epoll

variable {ρ : Type} {rules : Rules ρ} {state after : State ρ} {fd : Fd}

/-- Without an entering join nobody changes rooms. -/
theorem Packet.roomIn_stays {type : UInt16} {payload : Bytes}
    (packet : Packet rules fd payload type state after)
    (stays : type = cJoin → enters state.clients fd payload = false) :
    Epoll.roomIn after.clients = Epoll.roomIn state.clients := by
  have sent : ∀ {before later : State ρ}, Sends True (fun _ => True) before later →
      Epoll.roomIn later.clients = Epoll.roomIn before.clients := fun sends => sends.roomIn
  cases packet with
  | setNick =>
      refine (sent (State.queueSend_sends trivial)).trans ?_
      exact roomIn_update _ fun _ => rfl
  | nickFirst _ _ | roomRequired _ _ _ | joinFirst _ _ => exact sent (State.queueSend_sends trivial)
  | record _ _ _ => rfl
  | chat _ _ _ told => exact sent (told.sends trivial)
  | unknown _ _ _ => exact sent State.doom_sends
  | join found named nonempty _ _ _ =>
      have entering := stays rfl
      simp [enters, found, named, nonempty] at entering

namespace Server

/-! ## The entries -/

namespace World

variable {bufs : List (Bytes × Bytes)} {room other buf : Bytes}

theorem setTickEntry_present (present : room ∈ bufs.map Prod.fst) :
    setTickEntry bufs room buf =
      bufs.map fun entry => if entry.1 = room then (room, buf) else entry := by
  refine if_pos ?_
  obtain ⟨entry, member, same⟩ := List.mem_map.mp present
  exact List.any_eq_true.mpr ⟨entry, member, decide_eq_true same⟩

theorem setTickEntry_absent (absent : room ∉ bufs.map Prod.fst) :
    setTickEntry bufs room buf = bufs ++ [(room, buf)] := by
  refine if_neg fun present => ?_
  obtain ⟨entry, member, same⟩ := List.any_eq_true.mp present
  exact absent (List.mem_map.mpr ⟨entry, member, of_decide_eq_true same⟩)

theorem setTickEntry_keys :
    (setTickEntry bufs room buf).map Prod.fst =
      if room ∈ bufs.map Prod.fst then bufs.map Prod.fst else bufs.map Prod.fst ++ [room] := by
  split
  next present =>
    rw [setTickEntry_present present, List.map_map]
    refine List.map_congr_left fun entry _ => ?_
    by_cases own : entry.1 = room
    · simp [own]
    · simp [own]
  next absent => simp [setTickEntry_absent absent]

theorem setTickEntry_mem {entry : Bytes × Bytes} (member : entry ∈ setTickEntry bufs room buf) :
    entry = (room, buf) ∨ entry ∈ bufs ∧ entry.1 ≠ room := by
  by_cases present : room ∈ bufs.map Prod.fst
  · rw [setTickEntry_present present] at member
    obtain ⟨old, held, same⟩ := List.mem_map.mp member
    by_cases own : old.1 = room
    · rw [if_pos own] at same
      exact .inl same.symm
    · rw [if_neg own] at same
      exact .inr ⟨same ▸ held, same ▸ own⟩
  · rw [setTickEntry_absent present, List.mem_append, List.mem_singleton] at member
    rcases member with held | same
    · exact .inr ⟨held, fun own => present (List.mem_map.mpr ⟨entry, held, own⟩)⟩
    · exact .inl same

theorem setTickEntry_nodup (nodup : (bufs.map Prod.fst).Nodup) :
    ((setTickEntry bufs room buf).map Prod.fst).Nodup := by
  rw [setTickEntry_keys]
  split
  · exact nodup
  next absent => exact List.nodup_append.mpr ⟨nodup, List.nodup_singleton room, by
      rintro key member _ last rfl
      exact absent (List.mem_singleton.mp last ▸ member)⟩

theorem tickEntry_mem (nodup : (bufs.map Prod.fst).Nodup) (member : (room, buf) ∈ bufs) :
    tickEntry bufs room = buf := by
  unfold tickEntry
  induction bufs with
  | nil => cases member
  | cons entry bufs ih =>
      obtain ⟨key, held⟩ := entry
      obtain ⟨fresh, rest⟩ := List.nodup_cons.mp nodup
      rcases List.mem_cons.mp member with same | later
      · cases same
        simp
      · have apart : (room == key) = false := by
          rw [beq_eq_false_iff_ne]
          rintro rfl
          exact fresh (List.mem_map.mpr ⟨_, later, rfl⟩)
        rw [List.lookup_cons, apart]
        exact ih rest later

theorem tickEntry_absent (absent : room ∉ bufs.map Prod.fst) : tickEntry bufs room = [] := by
  have none : bufs.lookup room = none := by
    rw [List.lookup_eq_none_iff]
    intro entry member
    rw [bne_iff_ne]
    rintro rfl
    exact absent (List.mem_map.mpr ⟨entry, member, rfl⟩)
  rw [tickEntry, none]
  rfl

/-- A buffer with something in it has an entry. -/
theorem tickEntry_held (held : tickEntry bufs room ≠ []) : (room, tickEntry bufs room) ∈ bufs := by
  unfold tickEntry at held ⊢
  cases found : bufs.lookup room with
  | none => simp [found] at held
  | some buf =>
      obtain ⟨front, back, whole, _⟩ := List.lookup_eq_some_iff.mp found
      simp [whole]

theorem tickEntry_set (bufs : List (Bytes × Bytes)) (room buf : Bytes) :
    tickEntry (setTickEntry bufs room buf) room = buf := by
  unfold tickEntry setTickEntry
  split
  next present =>
    induction bufs with
    | nil => simp at present
    | cons entry bufs ih =>
        obtain ⟨key, held⟩ := entry
        by_cases own : key = room
        · simp [own]
        · have other : (room == key) = false := by simpa using Ne.symm own
          simp only [List.any_cons, own, decide_false, Bool.false_or] at present
          simp only [List.map_cons, own, if_false, List.lookup_cons, other]
          exact ih present
  next missing =>
    have none : bufs.lookup room = none := by
      rw [List.lookup_eq_none_iff]
      intro entry member
      simp only [List.any_eq_true, decide_eq_true_eq, not_exists, not_and] at missing
      simpa using Ne.symm (missing entry member)
    simp [List.lookup_append, none]

theorem tickEntry_set_ne (apart : other ≠ room) :
    tickEntry (setTickEntry bufs room buf) other = tickEntry bufs other := by
  have missed : (other == room) = false := beq_eq_false_iff_ne.mpr apart
  unfold tickEntry
  congr 1
  by_cases present : room ∈ bufs.map Prod.fst
  · rw [setTickEntry_present present]
    clear present
    induction bufs with
    | nil => rfl
    | cons entry bufs ih =>
        obtain ⟨key, held⟩ := entry
        by_cases own : key = room
        · simp only [List.map_cons, own, if_true, List.lookup_cons, missed]
          exact ih
        · simp only [List.map_cons, own, if_false, List.lookup_cons, ih]
  · rw [setTickEntry_absent present, List.lookup_append]
    simp [List.lookup_cons, missed]

theorem tickEntry_filter (room other : Bytes) :
    tickEntry (bufs.filter fun entry => entry.1 ≠ room) other =
      if other = room then [] else tickEntry bufs other := by
  split
  next same =>
    refine tickEntry_absent fun present => ?_
    obtain ⟨entry, member, key⟩ := List.mem_map.mp present
    have kept := (List.mem_filter.mp member).2
    simp [key, same] at kept
  next apart =>
    have missed : (other == room) = false := beq_eq_false_iff_ne.mpr apart
    unfold tickEntry
    congr 1
    induction bufs with
    | nil => rfl
    | cons entry bufs ih =>
        obtain ⟨key, held⟩ := entry
        by_cases own : key = room
        · simp only [ne_eq, own, not_true_eq_false, decide_false, Bool.false_eq_true,
            not_false_eq_true, List.filter_cons_of_neg, List.lookup_cons, missed]
          exact ih
        · simp only [ne_eq, own, not_false_eq_true, decide_true, List.filter_cons_of_pos,
            List.lookup_cons]
          split
          · rfl
          · exact ih

/-! ## Calls -/

variable {k : Kernel} {cfg : Config} {w : World} {fd : Fd} {c : Conn}

theorem roomIn_conn (found : w.conns fd = some c) :
    roomIn w.clients fd = if c.room = [] then none else some c.room := by
  simp [roomIn, World.clients, found, Conn.client]

theorem roomIn_some (found : w.conns fd = some c) (inside : c.room ≠ []) :
    roomIn w.clients fd = some c.room := by
  rw [roomIn_conn found, if_neg inside]

theorem member_iff (agree : RoomsAgree w) {name : Bytes} {other : Fd} :
    other ∈ (w.rooms name).getD [] ↔ roomIn w.clients other = some name :=
  (agree.member name other).trans inRoom_iff_roomIn

/-- A departure keeps the buffer as long as somebody else is inside. -/
theorem leaveRoom_ledger (agree : RoomsAgree w) (found : w.conns fd = some c)
    (inside : c.room ≠ []) :
    ((w.leaveRoom cfg fd).ledger = w.ledger ∧
      (cfg.coalesce = true → ∃ other, other ≠ fd ∧ roomIn w.clients other = some c.room)) ∨
    (w.leaveRoom cfg fd).ledger = (w.tickBuf.filter fun entry => entry.1 ≠ c.room, w.tickDropped) ∧
      ∀ other, other ≠ fd → roomIn w.clients other ≠ some c.room := by
  have own : fd ∈ (w.rooms c.room).getD [] := (member_iff agree).mpr (roomIn_some found inside)
  have nodup := agree.nodup_getD c.room
  have same : (w.leaveRoom cfg fd).ledger = (w.dropMember cfg c.room fd).ledger := by
    simp only [leaveRoom, found, inside, if_false, update_ledger]
  cases members : w.rooms c.room with
  | none => simp [members] at own
  | some fds =>
      have listed : ∀ other, other ∈ fds ↔ roomIn w.clients other = some c.room := fun other => by
        rw [← member_iff agree, members, Option.getD_some]
      rw [members, Option.getD_some] at nodup
      by_cases last : fds.erase fd = []
      · have alone : ∀ other, other ≠ fd → roomIn w.clients other ≠ some c.room := by
          intro other apart within
          have kept := (nodup.mem_erase_iff).mpr ⟨apart, (listed other).mpr within⟩
          rw [last] at kept
          cases kept
        cases coalesce : cfg.coalesce with
        | false =>
            refine .inl ⟨?_, Bool.noConfusion⟩
            rw [same]
            simp [dropMember, members, last, coalesce, ledger]
        | true =>
            refine .inr ⟨?_, alone⟩
            rw [same]
            simp [dropMember, members, last, coalesce, ledger]
      · refine .inl ⟨?_, fun _ => ?_⟩
        · rw [same]
          simp [dropMember, members, last, ledger]
        · obtain ⟨other, kept⟩ := List.exists_mem_of_ne_nil _ last
          obtain ⟨apart, within⟩ := nodup.mem_erase_iff.mp kept
          exact ⟨other, apart, (listed other).mp within⟩

theorem leaveRoom_outside_ledger (found : w.conns fd = some c) (outside : c.room = []) :
    (w.leaveRoom cfg fd).ledger = w.ledger := by
  simp only [leaveRoom, found, outside, if_true]

/-- What a departure does to the buffers depends on the room sets only. -/
theorem leaveRoom_ledger_congr {after : World} {c' : Conn} (found : w.conns fd = some c)
    (found' : after.conns fd = some c') (room : c'.room = c.room) (rooms : after.rooms = w.rooms)
    (same : after.ledger = w.ledger) :
    (after.leaveRoom cfg fd).ledger = (w.leaveRoom cfg fd).ledger := by
  have bufs : after.tickBuf = w.tickBuf := congrArg Prod.fst same
  have dropped : after.tickDropped = w.tickDropped := congrArg Prod.snd same
  by_cases outside : c.room = []
  · rw [leaveRoom_outside_ledger found outside, leaveRoom_outside_ledger found' (room.trans outside),
      same]
  · simp only [leaveRoom, found, found', outside, if_false, update_ledger, dropMember, rooms,
      room]
    split
    · exact same
    · split <;> simp only [ledger, bufs, dropped]

theorem broadcast_conn {room text : Bytes} {exceptFd : Option Fd} (agree : RoomsAgree w)
    (found : w.conns fd = some c) :
    ∃ c', (w.broadcast k cfg room sNotice text exceptFd).conns fd = some c' ∧
      c'.room = c.room ∧ c'.nick = c.nick := by
  have sends : Sends True (fun type => type = sNotice) w.state _ :=
    (@broadcast_quiet k cfg w room text exceptFd agree).sends
  obtain ⟨later, laterFound, carries⟩ := sends.present fd c.client (by simp [found])
  obtain ⟨c', found', rfl⟩ : ∃ c', (w.broadcast k cfg room sNotice text exceptFd).conns fd = some c' ∧
      c'.client = later := by simpa using laterFound
  refine ⟨c', found', ?_, carries.nick trivial⟩
  have room := carries.room trivial
  simp only [Conn.client] at room
  by_cases outside : c.room = []
  · rw [outside]
    by_contra inside
    rw [if_neg inside, if_pos outside] at room
    cases room
  · by_cases empty : c'.room = []
    · rw [if_pos empty, if_neg outside] at room
      cases room
    · rw [if_neg empty, if_neg outside, Option.some.injEq] at room
      exact room

theorem joinPacket_ledger {payload : Bytes} (agree : RoomsAgree w) (found : w.conns fd = some c) :
    (w.joinPacket k cfg fd c payload).ledger =
      if c.nick ≠ [] ∧ payload.take roomMax ≠ [] then (w.leaveRoom cfg fd).ledger else w.ledger := by
  by_cases nameless : c.nick = []
  · simp [joinPacket, nameless]
  · by_cases empty : payload.take roomMax = []
    · simp [joinPacket, nameless, empty]
    · have entered : ∀ (left : World) (name : Bytes), (left.enterRoom fd name).ledger = left.ledger :=
        fun _ _ => rfl
      simp only [joinPacket, nameless, empty, if_false, broadcast_ledger, queueSend_ledger, entered,
        ne_eq, not_false_eq_true, and_self, if_true]
      split
      next outside => exact (leaveRoom_outside_ledger found outside).symm
      next inside =>
        obtain ⟨c', found', room, _⟩ := @broadcast_conn k cfg w fd c c.room
          (leftNotice c.nick) (some fd) agree found
        exact leaveRoom_ledger_congr found found' room broadcast_rooms broadcast_ledger

theorem enters_conn {payload : Bytes} (found : w.conns fd = some c) :
    enters w.clients fd payload = true ↔ c.nick ≠ [] ∧ payload.take roomMax ≠ [] := by
  simp [enters, World.clients, found, Conn.client]

/-- The buffers behind a packet of any type. -/
theorem handlePacket_ledger {type : UInt16} {payload : Bytes} (agree : RoomsAgree w)
    (found : w.conns fd = some c) :
    (w.handlePacket k cfg fd type payload).ledger =
      if type = cJoin ∧ enters w.clients fd payload = true then (w.leaveRoom cfg fd).ledger
      else if type = cChat ∧ cfg.coalesce = true ∧ c.room ≠ [] then
        (w.record c.room (chatLine c.nick payload)).ledger
      else w.ledger := by
  have apart : cSetNick ≠ cJoin ∧ cSetNick ≠ cChat ∧ cJoin ≠ cChat ∧ cChat ≠ cJoin := by decide
  by_cases isNick : type = cSetNick
  · subst isNick
    simp [handlePacket, found, apart]
  · by_cases isJoin : type = cJoin
    · subst isJoin
      simp only [handlePacket, found, isNick, if_true, if_false, joinPacket_ledger agree found,
        enters_conn found, true_and, apart.2.2.1, false_and]
    · by_cases isChat : type = cChat
      · subst isChat
        simp only [handlePacket, found, isNick, isJoin, if_true, if_false, chatPacket, false_and,
          true_and]
        by_cases outside : c.room = []
        · simp [outside]
        · cases coalesce : cfg.coalesce <;> simp [outside]
      · simp only [handlePacket, found, isNick, isJoin, isChat, if_false, doom_ledger, false_and]

theorem depart_ledger :
    (w.depart k cfg fd c).ledger = (w.leaveRoom cfg fd).ledger := by
  unfold depart
  split
  · exact broadcast_ledger
  · rfl

/-! ## Ticks -/

@[simp] theorem deliverTick_ledger {buf : Bytes} :
    (w.deliverTick k cfg buf fd).ledger = w.ledger := by
  unfold deliverTick
  split
  · rfl
  · split
    · rfl
    · rw [afterQueue_ledger]
      exact queueTickFrame_ledger

theorem foldl_deliverTick_ledger {buf : Bytes} (fds : List Fd) :
    (fds.foldl (fun w fd => w.deliverTick k cfg buf fd) w).ledger = w.ledger := by
  induction fds generalizing w with
  | nil => rfl
  | cons fd fds ih => rw [List.foldl_cons, ih, deliverTick_ledger]

theorem flushTickRoom_ledger {entry : Bytes × Bytes} :
    (w.flushTickRoom k cfg entry).ledger =
      if entry.2 = [] then w.ledger else (setTickEntry w.tickBuf entry.1 [], w.tickDropped) := by
  unfold flushTickRoom
  split
  · rfl
  · simp only
    cases w.rooms entry.1 with
    | none => rfl
    | some members =>
        have same := @foldl_deliverTick_ledger k cfg w.asked entry.2
          (k.walk w.clock members)
        have bufs := congrArg Prod.fst same
        have dropped := congrArg Prod.snd same
        simp only [ledger] at bufs dropped
        simp only [ledger, bufs, dropped]
        rfl

/-- A pass over all rooms keeps the entries, and leaves nothing in them. -/
theorem flushTickRooms_ledger :
    (w.flushTickRooms k cfg).tickBuf.map Prod.fst = w.tickBuf.map Prod.fst ∧
      (∀ entry ∈ (w.flushTickRooms k cfg).tickBuf, entry.2 = []) ∧
      (w.flushTickRooms k cfg).tickDropped = w.tickDropped := by
  have walk : ∀ (entries : List (Bytes × Bytes)) (w : World),
      (∀ entry ∈ entries, entry.1 ∈ w.tickBuf.map Prod.fst) →
      (∀ entry ∈ w.tickBuf, entry.2 = [] ∨ entry ∈ entries) →
      (entries.foldl (flushTickRoom k cfg) w).tickBuf.map Prod.fst = w.tickBuf.map Prod.fst ∧
        (∀ entry ∈ (entries.foldl (flushTickRoom k cfg) w).tickBuf, entry.2 = []) ∧
        (entries.foldl (flushTickRoom k cfg) w).tickDropped = w.tickDropped := by
    intro entries
    induction entries with
    | nil =>
        intro w _ left
        exact ⟨rfl, fun entry member => (left entry member).resolve_right List.not_mem_nil, rfl⟩
    | cons entry entries ih =>
        intro w known left
        have bufs := congrArg Prod.fst (@flushTickRoom_ledger k cfg w entry)
        have dropped := congrArg Prod.snd (@flushTickRoom_ledger k cfg w entry)
        have present := known entry List.mem_cons_self
        have keys : (w.flushTickRoom k cfg entry).tickBuf.map Prod.fst = w.tickBuf.map Prod.fst := by
          simp only [ledger] at bufs
          rw [bufs]
          split
          · rfl
          · rw [setTickEntry_keys, if_pos present]
        have same : (w.flushTickRoom k cfg entry).tickDropped = w.tickDropped := by
          simp only [ledger] at dropped
          rw [dropped]
          split <;> rfl
        obtain ⟨lastKeys, empty, lastDropped⟩ := ih (w.flushTickRoom k cfg entry)
          (fun other member => keys ▸ known other (List.mem_cons_of_mem _ member)) (by
            intro other member
            simp only [ledger] at bufs
            rw [bufs] at member
            split at member
            next none =>
              rcases left other member with done | listed
              · exact .inl done
              · rcases List.mem_cons.mp listed with rfl | later
                · exact .inl none
                · exact .inr later
            · rcases setTickEntry_mem member with rfl | ⟨held, apart⟩
              · exact .inl rfl
              · rcases left other held with done | listed
                · exact .inl done
                · rcases List.mem_cons.mp listed with rfl | later
                  · exact absurd rfl apart
                  · exact .inr later)
        exact ⟨lastKeys.trans keys, empty, lastDropped.trans same⟩
  refine walk _ w.asked (fun entry member => ?_) fun entry member => .inr ?_
  · exact List.mem_map_of_mem ((k.walk_perm w.clock w.tickBuf).mem_iff.mp member)
  · exact (k.walk_perm w.clock w.tickBuf).mem_iff.mpr member

end World

end Server

end NetEngine.Epoll
