import Mathlib.Data.List.Nodup
import NetEngine.Engine.CstrHashMapProperties
import NetEngine.Epoll.ServerSdsSends
import NetEngine.Library.Links

/-! The room structures of `server_sds.cpp` agree with the connections: the
member lists, the counts, the name index and the free list. Between `acquire`
and `join` one room may be without members. -/

set_option autoImplicit false

namespace NetEngine.Epoll.ServerSds.World

open Socket Links

variable {k : Kernel} {cfg : Config} {w after : World} {fd other : Fd} {idx : Nat}

def roomOf (w : World) (fd : Fd) : Option Nat := (w.conns fd).bind (·.room)
def prevOf (w : World) (fd : Fd) : Option Fd := (w.conns fd).bind (·.roomPrev)
def nextOf (w : World) (fd : Fd) : Option Fd := (w.conns fd).bind (·.roomNext)
def nextFree (w : World) (idx : Nat) : Option Nat := (w.rooms idx).nextFree

/-- The C string behind each room's key. -/
def names (w : World) : CstrHashMap.Memory := fun idx => text (w.rooms idx).name

/-- The list of a room holds exactly the connections that say they are inside. -/
structure Lists (w : World) (idx : Nat) (members : List Fd) : Prop where
  nodup : members.Nodup
  member : ∀ fd, fd ∈ members ↔ w.roomOf fd = some idx
  linked : Linked w.prevOf w.nextOf none members
  head : (w.rooms idx).head = members.head?
  count : (w.rooms idx).count = members.length

/-- Of the live rooms only the spare one may be without members. -/
structure RoomsOk (cfg : Config) (spare : Option Nat) (w : World) : Prop where
  listed : ∀ idx, (w.rooms idx).live = true →
    ∃ members, w.Lists idx members ∧ (spare ≠ some idx → members ≠ [])
  housed : ∀ fd idx, w.roomOf fd = some idx → (w.rooms idx).live = true
  homeless : ∀ fd, w.roomOf fd = none → w.prevOf fd = none ∧ w.nextOf fd = none
  inside : ∀ idx, (w.rooms idx).live = true → idx < cfg.slots
  free : ∃ free : List Nat, free.Nodup ∧ w.roomFree = free.head? ∧ Threaded w.nextFree free ∧
    ∀ idx, idx ∈ free ↔ idx < cfg.slots ∧ (w.rooms idx).live = false
  index : w.roomIndex.Ok w.names
  usable : w.roomIndex.capacity ≠ 0
  entries : ∀ node, node ∈ w.roomIndex.entries ↔
    (w.rooms node.key).live = true ∧ node.value = node.key
  slots : ∀ fd c, w.conns fd = some c → fd < cfg.slots

/-! ## Writes -/

theorem roomOf_eq {c : Conn} (found : w.conns fd = some c) : w.roomOf fd = c.room := by
  simp [roomOf, found]

theorem conn_of_room {room : Nat} (inside : w.roomOf fd = some room) :
    ∃ c, w.conns fd = some c ∧ c.room = some room :=
  Option.bind_eq_some_iff.mp inside

theorem update_apply {change : Conn → Conn} :
    (w.update fd change).conns other =
      if other = fd then (w.conns fd).map change else w.conns other := by
  simp [update, Function.update_apply]

/-- A connection's field read off an updated table. -/
theorem update_field {α : Type} {change : Conn → Conn} {c : Conn} (found : w.conns fd = some c)
    (field : Conn → Option α) :
    (fun fd' => ((w.update fd change).conns fd').bind field) =
      Function.update (fun fd' => (w.conns fd').bind field) fd (field (change c)) := by
  funext other
  by_cases own : other = fd
  · subst own
    simp [update, found]
  · simp [update, own]

theorem update_field_same {α : Type} {change : Conn → Conn} (field : Conn → Option α)
    (same : ∀ c, field (change c) = field c) :
    (fun fd' => ((w.update fd change).conns fd').bind field) =
      fun fd' => (w.conns fd').bind field := by
  funext other
  by_cases own : other = fd
  · subst own
    cases found : w.conns other <;> simp [update, found, same]
  · simp [update, own]

/-- A write through a link changes at most the field it is about. -/
theorem touch_field {α : Type} {change : Conn → Conn} {link : Option Fd} (field : Conn → Option α)
    (same : ∀ c, field (change c) = field c) :
    (fun fd' => ((w.touch link change).conns fd').bind field) =
      fun fd' => (w.conns fd').bind field := by
  unfold touch
  split
  · rfl
  · split
    · exact update_field_same field same
    · rfl

theorem touch_written {change : Conn → Conn} {link value : Option Fd} (field : Conn → Option Fd)
    (alive : ∀ fd, link = some fd → ∃ c, w.conns fd = some c)
    (written : ∀ c, field (change c) = value) :
    (fun fd' => ((w.touch link change).conns fd').bind field) =
      writeAt (fun fd' => (w.conns fd').bind field) link value := by
  cases link with
  | none => rfl
  | some target =>
      obtain ⟨c, found⟩ := alive target rfl
      have one : w.touch (some target) change = w.update target change := by
        simp [touch, found]
      rw [one, update_field found, written]
      rfl

/-- Received bytes, marks to close and sound queues stay. -/
def Kept (w after : World) : Prop :=
  ∀ fd c, after.conns fd = some c → ∃ c', w.conns fd = some c' ∧ c.input = c'.input ∧
    c.closing = c'.closing ∧ (c'.Queue → c.Queue)

theorem Kept.refl (w : World) : Kept w w := fun _ c found => ⟨c, found, rfl, rfl, id⟩

theorem Kept.trans {middle : World} (left : Kept w middle) (right : Kept middle after) :
    Kept w after := by
  intro fd c found
  obtain ⟨c', between, input, closing, queue⟩ := right fd c found
  obtain ⟨c'', before, input', closing', queue'⟩ := left fd c' between
  exact ⟨c'', before, input.trans input', closing.trans closing', fun old => queue (queue' old)⟩

theorem Kept.update {change : Conn → Conn} (input : ∀ c, (change c).input = c.input)
    (closing : ∀ c, (change c).closing = c.closing) (queue : ∀ c : Conn, c.Queue → (change c).Queue) :
    Kept w (w.update fd change) := by
  intro other c found
  rw [update_apply] at found
  split at found
  next own =>
    obtain ⟨c', before, rfl⟩ := Option.map_eq_some_iff.mp found
    exact ⟨c', own ▸ before, input c', closing c', queue c'⟩
  · exact ⟨c, found, rfl, rfl, id⟩

theorem Kept.queues (kept : Kept w after) (queues : Queues w) : Queues after := by
  intro fd c found
  obtain ⟨c', before, _, _, queue⟩ := kept fd c found
  exact queue (queues fd c' before)

/-- The connections as their peers know them, and what else is not room business. -/
structure Quiet (w after : World) : Prop where
  state : after.state = w.state
  kept : Kept w after

namespace Quiet

theorem refl (w : World) : Quiet w w := ⟨rfl, .refl w⟩

theorem trans {middle : World} (left : Quiet w middle) (right : Quiet middle after) :
    Quiet w after :=
  ⟨right.state.trans left.state, left.kept.trans right.kept⟩

theorem present (quiet : Quiet w after) {c : Conn} (found : w.conns fd = some c) :
    ∃ c', after.conns fd = some c' := by
  rw [← live_iff, quiet.state]
  exact live_iff.mpr ⟨c, found⟩

theorem update {change : Conn → Conn}
    (client : ∀ c, (change c).client w.rooms = c.client w.rooms)
    (input : ∀ c, (change c).input = c.input) (queue : ∀ c : Conn, c.Queue → (change c).Queue) :
    Quiet w (w.update fd change) := by
  have same : w.state.update fd id = w.state := by
    have clients : (w.state.update fd id).clients = w.state.clients := by
      funext other
      by_cases own : other = fd
      · subst own
        simp
      · simp [own]
    exact congrArg (fun clients => ({ w.state with clients } : State Bytes)) clients
  exact ⟨(state_update fun c _ => client c).trans same,
    .update input (fun c => congrArg Client.closing (client c)) queue⟩

theorem touch {change : Conn → Conn} {link : Option Fd}
    (client : ∀ c, (change c).client w.rooms = c.client w.rooms)
    (input : ∀ c, (change c).input = c.input) (queue : ∀ c : Conn, c.Queue → (change c).Queue) :
    Quiet w (w.touch link change) := by
  unfold World.touch
  split
  · exact .refl w
  · split
    · exact .update client input queue
    · exact ⟨rfl, .refl w⟩

/-- A change of the rooms that leaves the names of those with members. -/
theorem rename (conns : after.conns = w.conns) (totalLive : after.totalLive = w.totalLive)
    (doomed : after.doomed = w.doomed) (dirty : after.dirty = w.dirty)
    (running : after.running = w.running) (trace : after.trace = w.trace)
    (names : ∀ fd idx, w.roomOf fd = some idx → (after.rooms idx).name = (w.rooms idx).name) :
    Quiet w after := by
  have clients : after.clients = w.clients := by
    funext fd
    rw [clients, clients, conns]
    cases found : w.conns fd with
    | none => rfl
    | some c =>
        have room : (c.room.map fun idx => (after.rooms idx).name) =
            c.room.map fun idx => (w.rooms idx).name := by
          cases inside : c.room with
          | none => rfl
          | some idx => exact congrArg some (names fd idx ((roomOf_eq found).trans inside))
        simp only [Option.map_some, Conn.client, room]
  refine ⟨?_, fun fd c found => ⟨c, conns ▸ found, rfl, rfl, id⟩⟩
  simp only [World.state, clients, totalLive, doomed, dirty, running, trace]

theorem updateRoom {change : Room → Room} (name : (change (w.rooms idx)).name = (w.rooms idx).name) :
    Quiet w (w.updateRoom idx change) := by
  refine .rename rfl rfl rfl rfl rfl rfl fun fd room _ => ?_
  by_cases own : room = idx
  · subst own
    simpa [World.updateRoom] using name
  · simp [World.updateRoom, own]

end Quiet

/-! ## Leaving -/

/-- The links around a connection that has left, and its own. -/
structure Unlinked (w after : World) (fd : Fd) (c : Conn) (idx : Nat) : Prop where
  roomOf : after.roomOf = w.roomOf
  prevOf : after.prevOf = Function.update (writeAt w.prevOf c.roomNext c.roomPrev) fd none
  nextOf : after.nextOf = Function.update (writeAt w.nextOf c.roomPrev c.roomNext) fd none
  rooms : after.rooms = Function.update w.rooms idx { w.rooms idx with
    head := if c.roomPrev = none then c.roomNext else (w.rooms idx).head
    count := (w.rooms idx).count - 1 }
  roomFree : after.roomFree = w.roomFree
  roomIndex : after.roomIndex = w.roomIndex
  faulted : after.faulted = w.faulted
  quiet : Quiet w after

theorem touch_rooms {change : Conn → Conn} {link : Option Fd} :
    (w.touch link change).rooms = w.rooms ∧ (w.touch link change).roomFree = w.roomFree ∧
      (w.touch link change).roomIndex = w.roomIndex := by
  unfold touch
  split
  · exact ⟨rfl, rfl, rfl⟩
  · split <;> exact ⟨rfl, rfl, rfl⟩

theorem touch_faulted {change : Conn → Conn} {link : Option Fd}
    (alive : ∀ fd, link = some fd → ∃ c, w.conns fd = some c) :
    (w.touch link change).faulted = w.faulted := by
  cases link with
  | none => rfl
  | some target =>
      obtain ⟨c, found⟩ := alive target rfl
      simp [touch, found, update]

/-- What the first write of `leave_room` reaches: the neighbour or the head. -/
def behind (w : World) (c : Conn) (idx : Nat) : World :=
  match c.roomPrev with
  | none => w.updateRoom idx fun r => { r with head := c.roomNext }
  | some before => w.touch (some before) fun b => { b with roomNext := c.roomNext }

theorem behind_spec {c : Conn} (alive : ∀ fd, c.roomPrev = some fd → ∃ c, w.conns fd = some c) :
    (w.behind c idx).roomOf = w.roomOf ∧ (w.behind c idx).prevOf = w.prevOf ∧
      (w.behind c idx).nextOf = writeAt w.nextOf c.roomPrev c.roomNext ∧
      (w.behind c idx).rooms = Function.update w.rooms idx { w.rooms idx with
        head := if c.roomPrev = none then c.roomNext else (w.rooms idx).head } ∧
      (w.behind c idx).roomFree = w.roomFree ∧ (w.behind c idx).roomIndex = w.roomIndex ∧
      (w.behind c idx).faulted = w.faulted ∧ Quiet w (w.behind c idx) := by
  cases before : c.roomPrev with
  | none =>
      simp only [behind, before, if_true]
      exact ⟨rfl, rfl, rfl, rfl, rfl, rfl, rfl, .updateRoom rfl⟩
  | some target =>
      rw [before] at alive
      obtain ⟨rooms, roomFree, roomIndex⟩ := @touch_rooms w
        (fun b => { b with roomNext := c.roomNext }) (some target)
      simp only [behind, before, reduceCtorEq, if_false]
      refine ⟨touch_field (·.room) fun _ => rfl, touch_field (·.roomPrev) fun _ => rfl,
        touch_written (·.roomNext) alive fun _ => rfl, ?_, roomFree, roomIndex,
        touch_faulted alive, .touch (fun _ => rfl) (fun _ => rfl) fun _ queue => ⟨queue.1, queue.2⟩⟩
      rw [rooms]
      exact (Function.update_eq_self idx w.rooms).symm

theorem unlink_unlinked {c : Conn} (found : w.conns fd = some c)
    (prevLive : ∀ fd, c.roomPrev = some fd → ∃ c, w.conns fd = some c)
    (nextLive : ∀ fd, c.roomNext = some fd → ∃ c, w.conns fd = some c) :
    Unlinked w (w.unlink fd c idx) fd c idx := by
  obtain ⟨roomOf, prevOf, nextOf, rooms, roomFree, roomIndex, faulted, quiet⟩ :=
    @behind_spec w idx c prevLive
  have whole : w.unlink fd c idx =
      (((w.behind c idx).touch c.roomNext fun b => { b with roomPrev := c.roomPrev }).update fd
        fun c => { c with roomPrev := none, roomNext := none }).updateRoom idx
          fun r => { r with count := r.count - 1 } := rfl
  generalize w.behind c idx = first at *
  have alive : ∀ fd, c.roomNext = some fd → ∃ c, first.conns fd = some c := by
    intro other next
    obtain ⟨c', before⟩ := nextLive other next
    exact quiet.present before
  obtain ⟨sameRooms, sameFree, sameIndex⟩ := @touch_rooms first
    (fun b => { b with roomPrev := c.roomPrev }) c.roomNext
  have sameFaulted := @touch_faulted first (fun b => { b with roomPrev := c.roomPrev }) _ alive
  have secondRoom := @touch_field first Nat (fun b => { b with roomPrev := c.roomPrev }) c.roomNext
    (·.room) fun _ => rfl
  have secondPrev := @touch_written first (fun b => { b with roomPrev := c.roomPrev }) c.roomNext
    c.roomPrev (·.roomPrev) alive fun _ => rfl
  have secondNext := @touch_field first Fd (fun b => { b with roomPrev := c.roomPrev }) c.roomNext
    (·.roomNext) fun _ => rfl
  have secondQuiet : Quiet first (first.touch c.roomNext fun b => { b with roomPrev := c.roomPrev }) :=
    .touch (fun _ => rfl) (fun _ => rfl) fun _ queue => ⟨queue.1, queue.2⟩
  rw [whole]
  generalize (first.touch c.roomNext fun b => { b with roomPrev := c.roomPrev }) = second at *
  obtain ⟨c', still⟩ := (quiet.trans secondQuiet).present found
  refine ⟨?_, ?_, ?_, ?_, sameFree.trans roomFree, sameIndex.trans roomIndex,
    sameFaulted.trans faulted, ?_⟩
  · refine Eq.trans ?_ (secondRoom.trans roomOf)
    exact update_field_same (·.room) fun _ => rfl
  · exact (update_field still (·.roomPrev)).trans
      (congrArg (Function.update · fd none) (secondPrev.trans (congrArg (writeAt · _ _) prevOf)))
  · exact (update_field still (·.roomNext)).trans
      (congrArg (Function.update · fd none) (secondNext.trans nextOf))
  · change Function.update second.rooms idx
      { second.rooms idx with count := (second.rooms idx).count - 1 } = _
    rw [sameRooms, rooms, Function.update_idem, Function.update_self]
  · refine (quiet.trans secondQuiet).trans (Quiet.trans (Quiet.update ?_ ?_ ?_) (.updateRoom rfl))
    · exact fun _ => rfl
    · exact fun _ => rfl
    · exact fun _ queue => ⟨queue.1, queue.2⟩

/-! ### The lists -/

variable {members front back : List Fd} {room : Nat}

theorem Lists.congr (lists : w.Lists room members)
    (inside : ∀ fd, after.roomOf fd = some room ↔ w.roomOf fd = some room)
    (prev : ∀ fd, w.roomOf fd = some room → after.prevOf fd = w.prevOf fd)
    (next : ∀ fd, w.roomOf fd = some room → after.nextOf fd = w.nextOf fd)
    (head : (after.rooms room).head = (w.rooms room).head)
    (count : (after.rooms room).count = (w.rooms room).count) : after.Lists room members where
  nodup := lists.nodup
  member fd := by rw [lists.member, inside]
  linked := lists.linked.congr (fun fd member => prev fd ((lists.member fd).mp member))
    fun fd member => next fd ((lists.member fd).mp member)
  head := head.trans lists.head
  count := count.trans lists.count

/-- The neighbours of a member are members. -/
theorem Lists.neighbours (lists : w.Lists idx (front ++ fd :: back)) :
    w.nextOf fd = back.head? ∧ (front = [] ∧ w.prevOf fd = none ∨
      ∃ other ∈ front, w.prevOf fd = some other) ∧
      (∀ other, w.prevOf fd = some other → w.roomOf other = some idx) ∧
      ∀ other, w.nextOf fd = some other → w.roomOf other = some idx := by
  have next := lists.linked.next_eq
  have prev := lists.linked.prev_mem
  refine ⟨next, prev, fun other same => ?_, fun other same => ?_⟩
  · rcases prev with ⟨_, none⟩ | ⟨before, member, found⟩
    · rw [none] at same
      cases same
    · rw [found, Option.some.injEq] at same
      subst same
      exact (lists.member before).mp (List.mem_append_left _ member)
  · rw [next] at same
    exact (lists.member other).mp
      (List.mem_append_right _ (List.mem_cons_of_mem _ (List.mem_of_mem_head? same)))

/-- What `leave_room` does to links and rooms, up to the release of the room. -/
structure Left (w after : World) (fd : Fd) (idx : Nat) : Prop where
  roomOf : after.roomOf = Function.update w.roomOf fd none
  prevOf : after.prevOf = Function.update (writeAt w.prevOf (w.nextOf fd) (w.prevOf fd)) fd none
  nextOf : after.nextOf = Function.update (writeAt w.nextOf (w.prevOf fd) (w.nextOf fd)) fd none
  others : ∀ room, room ≠ idx → after.rooms room = w.rooms room

namespace Left

variable {c : Conn}

/-- The lists of the other rooms stay. -/
theorem lists (left : Left w after fd idx) (own : w.Lists idx (front ++ fd :: back))
    (apart : room ≠ idx) (lists : w.Lists room members) : after.Lists room members := by
  obtain ⟨_, _, prevInside, nextInside⟩ := own.neighbours
  have mine : w.roomOf fd = some idx := (own.member fd).mp (by simp)
  have elsewhere : ∀ other, w.roomOf other = some room → other ≠ fd ∧
      w.prevOf fd ≠ some other ∧ w.nextOf fd ≠ some other := by
    intro other inside
    refine ⟨?_, fun same => ?_, fun same => ?_⟩
    · rintro rfl
      rw [mine, Option.some.injEq] at inside
      exact apart inside.symm
    · rw [prevInside other same, Option.some.injEq] at inside
      exact apart inside.symm
    · rw [nextInside other same, Option.some.injEq] at inside
      exact apart inside.symm
  refine lists.congr (fun other => ?_) (fun other inside => ?_) (fun other inside => ?_)
    (by rw [left.others room apart]) (by rw [left.others room apart])
  · rw [left.roomOf, Function.update_apply]
    split
    next same =>
      subst same
      rw [mine, Option.some.injEq]
      exact iff_of_false nofun (Ne.symm apart)
    · exact .rfl
  · obtain ⟨notMe, _, notNext⟩ := elsewhere other inside
    rw [left.prevOf, Function.update_of_ne notMe, writeAt_other notNext]
  · obtain ⟨notMe, notPrev, _⟩ := elsewhere other inside
    rw [left.nextOf, Function.update_of_ne notMe, writeAt_other notPrev]

/-- The room's own list, without who left. -/
theorem own_list (left : Left w after fd idx) (own : w.Lists idx (front ++ fd :: back))
    (head : (after.rooms idx).head =
      if w.prevOf fd = none then w.nextOf fd else (w.rooms idx).head)
    (count : (after.rooms idx).count = (w.rooms idx).count - 1) :
    after.Lists idx (front ++ back) := by
  obtain ⟨next, prev, _, _⟩ := own.neighbours
  have nodup : (front ++ back).Nodup :=
    own.nodup.sublist (List.Sublist.append_left (List.sublist_cons_self fd back) front)
  have fresh : fd ∉ front ++ back := by
    have perm : (front ++ fd :: back).Perm (fd :: (front ++ back)) := List.perm_middle
    exact (List.nodup_cons.mp (perm.nodup_iff.mp own.nodup)).1
  refine ⟨nodup, fun other => ?_, ?_, ?_, ?_⟩
  · rw [left.roomOf, Function.update_apply]
    split
    next same =>
      subst same
      exact iff_of_false fresh nofun
    next apart =>
      rw [← own.member]
      simp [apart]
  · rw [left.prevOf, left.nextOf]
    refine (own.linked.unlink own.nodup nofun).congr (fun other member => ?_) fun other member => ?_
    · refine Function.update_of_ne ?_ _ _
      rintro rfl
      exact fresh member
    · refine Function.update_of_ne ?_ _ _
      rintro rfl
      exact fresh member
  · rw [head]
    rcases prev with ⟨rfl, none⟩ | ⟨before, member, found⟩
    · rw [if_pos none, next, List.nil_append]
    · rw [if_neg (by rw [found]; exact nofun), own.head]
      cases front with
      | nil => cases member
      | cons first rest => rfl
  · rw [count, own.count]
    simp only [List.length_append, List.length_cons]
    omega

theorem homeless (left : Left w after fd idx) (own : w.Lists idx (front ++ fd :: back))
    (homeless : ∀ fd, w.roomOf fd = none → w.prevOf fd = none ∧ w.nextOf fd = none) (other : Fd)
    (outside : after.roomOf other = none) :
    after.prevOf other = none ∧ after.nextOf other = none := by
  obtain ⟨_, _, prevInside, nextInside⟩ := own.neighbours
  rw [left.prevOf, left.nextOf]
  rw [left.roomOf, Function.update_apply] at outside
  by_cases same : other = fd
  · subst same
    exact ⟨Function.update_self .., Function.update_self ..⟩
  · rw [if_neg same] at outside
    rw [Function.update_of_ne same, Function.update_of_ne same, writeAt_other, writeAt_other]
    · exact homeless other outside
    · intro linked
      rw [prevInside other linked] at outside
      cases outside
    · intro linked
      rw [nextInside other linked] at outside
      cases outside

end Left

/-! ### leave_room -/

namespace RoomsOk

variable {spare : Option Nat}

theorem names_injective (ok : RoomsOk cfg spare w) {left right : Nat}
    (leftLive : (w.rooms left).live = true) (rightLive : (w.rooms right).live = true)
    (same : text (w.rooms left).name = text (w.rooms right).name) : left = right := by
  have leftMember := (ok.entries ⟨left, left⟩).mpr ⟨leftLive, rfl⟩
  have rightMember := (ok.entries ⟨right, right⟩).mpr ⟨rightLive, rfl⟩
  have distinct := List.inj_on_of_nodup_map ok.index.distinct leftMember rightMember same
  exact congrArg CstrHashMap.Node.key distinct

/-- Where a connection stands in the list of its room. -/
theorem place (ok : RoomsOk cfg spare w) (inside : w.roomOf fd = some idx) :
    ∃ front back, w.Lists idx (front ++ fd :: back) := by
  obtain ⟨members, lists, _⟩ := ok.listed idx (ok.housed fd idx inside)
  obtain ⟨front, back, rfl⟩ := List.append_of_mem ((lists.member fd).mpr inside)
  exact ⟨front, back, lists⟩

theorem neighbours_live (ok : RoomsOk cfg spare w) {c : Conn} (found : w.conns fd = some c)
    (room : c.room = some idx) :
    (∀ fd, c.roomPrev = some fd → ∃ c, w.conns fd = some c) ∧
      ∀ fd, c.roomNext = some fd → ∃ c, w.conns fd = some c := by
  obtain ⟨front, back, lists⟩ := ok.place ((roomOf_eq found).trans room)
  obtain ⟨_, _, prevInside, nextInside⟩ := lists.neighbours
  have prev : w.prevOf fd = c.roomPrev := by simp [prevOf, found]
  have next : w.nextOf fd = c.roomNext := by simp [nextOf, found]
  refine ⟨fun other same => ?_, fun other same => ?_⟩
  · obtain ⟨c', before, _⟩ := conn_of_room (prevInside other (prev.trans same))
    exact ⟨c', before⟩
  · obtain ⟨c', before, _⟩ := conn_of_room (nextInside other (next.trans same))
    exact ⟨c', before⟩

end RoomsOk

theorem leaveRoom_none {c : Conn} (found : w.conns fd = some c) (outside : c.room = none) :
    w.leaveRoom cfg fd = w := by
  simp only [leaveRoom, found, outside]

/-- The two ends of `leave_room`: the room stays with the others, or is released. -/
theorem leaveRoom_left (ok : RoomsOk cfg none w) {c : Conn} (found : w.conns fd = some c)
    (room : c.room = some idx) :
    Left w (w.leaveRoom cfg fd) fd idx ∧ (w.leaveRoom cfg fd).faulted = w.faulted ∧
      ((w.rooms idx).count - 1 ≠ 0 ∧
          (w.leaveRoom cfg fd).rooms = Function.update w.rooms idx { w.rooms idx with
            head := if w.prevOf fd = none then w.nextOf fd else (w.rooms idx).head
            count := (w.rooms idx).count - 1 } ∧
          (w.leaveRoom cfg fd).roomFree = w.roomFree ∧
          (w.leaveRoom cfg fd).roomIndex = w.roomIndex ∨
        (w.rooms idx).count - 1 = 0 ∧
          (w.leaveRoom cfg fd).rooms = Function.update w.rooms idx { w.rooms idx with
            head := none
            count := (w.rooms idx).count - 1
            live := false
            nextFree := w.roomFree } ∧
          (w.leaveRoom cfg fd).roomFree = some idx ∧
          (w.leaveRoom cfg fd).roomIndex = w.roomIndex.erase (w.memory cfg []) idx) := by
  obtain ⟨prevLive, nextLive⟩ := ok.neighbours_live found room
  have prev : w.prevOf fd = c.roomPrev := by simp [World.prevOf, found]
  have next : w.nextOf fd = c.roomNext := by simp [World.nextOf, found]
  have unlinked := @unlink_unlinked w fd idx c found prevLive nextLive
  have whole : w.leaveRoom cfg fd =
      (if ((w.unlink fd c idx).rooms idx).count = 0 then (w.unlink fd c idx).roomRelease cfg idx
        else w.unlink fd c idx).update fd fun c => { c with room := none } := by
    simp only [leaveRoom, found, room]
  rw [whole, prev, next]
  generalize w.unlink fd c idx = u at *
  obtain ⟨c', still⟩ := unlinked.quiet.present found
  have count : (u.rooms idx).count = (w.rooms idx).count - 1 := by
    rw [unlinked.rooms, Function.update_self]
  have links : ∀ v : World, v.conns = u.conns → (∀ room, room ≠ idx → v.rooms room = u.rooms room) →
      Left w (v.update fd fun c => { c with room := none }) fd idx := by
    intro v conns rooms
    have again : v.conns fd = some c' := conns ▸ still
    refine ⟨?_, ?_, ?_, fun other apart => ?_⟩
    · refine (update_field again (·.room)).trans ?_
      rw [conns]
      exact congrArg (Function.update · fd none) unlinked.roomOf
    · refine Eq.trans (update_field_same (·.roomPrev) fun _ => rfl) ?_
      rw [conns, prev, next]
      exact unlinked.prevOf
    · refine Eq.trans (update_field_same (·.roomNext) fun _ => rfl) ?_
      rw [conns, prev, next]
      exact unlinked.nextOf
    · refine (rooms other apart).trans ?_
      rw [unlinked.rooms, Function.update_of_ne apart]
  have memory : u.memory cfg [] = w.memory cfg [] := by
    funext address
    simp only [World.memory, unlinked.rooms, Function.update_apply]
    split
    · rfl
    · split
      next same => rw [same]
      · rfl
  split
  next zero =>
    refine ⟨links _ rfl fun other apart => ?_, unlinked.faulted, .inr ⟨count ▸ zero, ?_, rfl, ?_⟩⟩
    · exact Function.update_of_ne apart _ _
    · change Function.update u.rooms idx
        { u.rooms idx with live := false, head := none, nextFree := u.roomFree } = _
      rw [unlinked.rooms, Function.update_idem, Function.update_self, unlinked.roomFree]
    · change u.roomIndex.erase (u.memory cfg []) idx = _
      rw [memory, unlinked.roomIndex]
  next some =>
    refine ⟨links _ rfl fun _ _ => rfl, unlinked.faulted, .inl ⟨count ▸ some, ?_, unlinked.roomFree,
      unlinked.roomIndex⟩⟩
    exact unlinked.rooms

theorem memory_inside {scratch : Bytes} (inside : idx < cfg.slots) :
    w.memory cfg scratch idx = w.names idx := by
  rw [memory, if_neg (Nat.ne_of_lt inside), names]

theorem RoomsOk.index_memory {spare : Option Nat} (ok : RoomsOk cfg spare w) (scratch : Bytes) :
    w.roomIndex.Ok (w.memory cfg scratch) :=
  ok.index.congr fun node member => memory_inside (ok.inside _ ((ok.entries node).mp member).1)

theorem leaveRoom_state {c : Conn} (found : w.conns fd = some c) (ok : RoomsOk cfg none w) :
    (w.leaveRoom cfg fd).state = w.state.enterRoom fd none ∧ Kept w (w.leaveRoom cfg fd) := by
  cases room : c.room with
  | none =>
      rw [leaveRoom_none found room]
      refine ⟨?_, .refl w⟩
      have kept : (w.state.enterRoom fd none).clients = w.state.clients := by
        funext other
        by_cases own : other = fd
        · subst own
          simp [State.enterRoom, found, Conn.client, room]
        · simp [State.enterRoom, own]
      exact congrArg (fun clients => ({ w.state with clients } : State Bytes)) kept.symm
  | some idx =>
      obtain ⟨prevLive, nextLive⟩ := ok.neighbours_live found room
      have quiet := (@unlink_unlinked w fd idx c found prevLive nextLive).quiet
      have released : Quiet (w.unlink fd c idx) ((w.unlink fd c idx).roomRelease cfg idx) := by
        refine .rename rfl rfl rfl rfl rfl rfl fun fd room _ => ?_
        by_cases own : room = idx
        · subst own
          simp [roomRelease, updateRoom]
        · simp [roomRelease, updateRoom, own]
      have leaves : ∀ v, Quiet w v →
          (v.update fd fun c => { c with room := none }).state = w.state.enterRoom fd none ∧
            Kept w (v.update fd fun c => { c with room := none }) := by
        intro v same
        have outside : (v.update fd fun c => { c with room := none }).state =
            v.state.enterRoom fd none := state_update fun _ _ => rfl
        rw [outside, same.state]
        refine ⟨rfl, same.kept.trans (.update ?_ ?_ ?_)⟩
        · exact fun _ => rfl
        · exact fun _ => rfl
        · exact fun _ queue => ⟨queue.1, queue.2⟩
      simp only [leaveRoom, found, room]
      split
      · exact leaves _ (quiet.trans released)
      · exact leaves _ quiet

theorem leaveRoom_ok {c : Conn} (found : w.conns fd = some c) (ok : RoomsOk cfg none w) :
    RoomsOk cfg none (w.leaveRoom cfg fd) ∧ (w.leaveRoom cfg fd).roomOf fd = none ∧
      (w.leaveRoom cfg fd).faulted = w.faulted := by
  cases room : c.room with
  | none =>
      rw [leaveRoom_none found room]
      exact ⟨ok, (roomOf_eq found).trans room, rfl⟩
  | some idx =>
      obtain ⟨left, faulted, ends⟩ := leaveRoom_left ok found room
      obtain ⟨state, _⟩ := leaveRoom_state found ok
      have mine : w.roomOf fd = some idx := (roomOf_eq found).trans room
      obtain ⟨front, back, own⟩ := ok.place mine
      have live := ok.housed fd idx mine
      have fresh := ok.inside idx live
      have slots : ∀ other c', (w.leaveRoom cfg fd).conns other = some c' → other < cfg.slots := by
        intro other c' present
        have before : w.state.Live other := by
          have after := live_iff.mpr ⟨c', present⟩
          rw [state] at after
          exact ((State.update_sameFds _ _ _).1 other).mp after
        obtain ⟨c'', old⟩ := live_iff.mp before
        exact ok.slots other c'' old
      generalize w.leaveRoom cfg fd = after at *
      have gone : after.roomOf fd = none := by
        rw [left.roomOf, Function.update_self]
      have housed : ∀ other room, after.roomOf other = some room → w.roomOf other = some room := by
        intro other room inside
        rw [left.roomOf, Function.update_apply] at inside
        split at inside
        · cases inside
        · exact inside
      refine ⟨?_, gone, faulted⟩
      have others : ∀ other, other ≠ idx → after.rooms other = w.rooms other := left.others
      have names : after.names = w.names := by
        have name : ∀ room, (after.rooms room).name = (w.rooms room).name := by
          intro other
          by_cases own : other = idx
          · subst own
            rcases ends with ⟨_, rooms, _⟩ | ⟨_, rooms, _⟩ <;> rw [rooms, Function.update_self]
          · rw [others other own]
        exact funext fun other => congrArg text (name other)
      rcases ends with ⟨some, rooms, roomFree, roomIndex⟩ | ⟨none, rooms, roomFree, roomIndex⟩
      · -- the room stays with the others
        have kept : ∀ other, (after.rooms other).live = (w.rooms other).live ∧
            (after.rooms other).nextFree = (w.rooms other).nextFree := by
          intro other
          by_cases same : other = idx
          · subst same
            rw [rooms, Function.update_self]
            exact ⟨rfl, rfl⟩
          · rw [others other same]
            exact ⟨rfl, rfl⟩
        refine ⟨fun other live => ?_, fun other room inside => ?_, left.homeless own ok.homeless,
          fun other live => ok.inside other ((kept other).1 ▸ live), ?_, ?_, ?_, fun node => ?_,
          slots⟩
        · by_cases same : other = idx
          · subst same
            refine ⟨front ++ back, left.own_list own ?_ ?_, fun _ empty => ?_⟩
            · rw [rooms, Function.update_self]
            · rw [rooms, Function.update_self]
            · have count := own.count
              have length := congrArg List.length empty
              simp only [List.length_append, List.length_cons, List.length_nil] at count length
              omega
          · rw [(kept other).1] at live
            obtain ⟨members, lists, nonempty⟩ := ok.listed other live
            exact ⟨members, left.lists own same lists, nonempty⟩
        · rw [(kept room).1]
          exact ok.housed other room (housed other room inside)
        · obtain ⟨free, nodup, head, threaded, member⟩ := ok.free
          refine ⟨free, nodup, roomFree.trans head, ?_, fun other => ?_⟩
          · exact threaded.congr fun other _ => (kept other).2
          · rw [member, (kept other).1]
        · rw [roomIndex, names]
          exact ok.index
        · rw [roomIndex]
          exact ok.usable
        · rw [roomIndex, ok.entries, (kept node.key).1]
      · -- it was the last one: the room goes back to the free list
        obtain ⟨rfl, rfl⟩ : front = [] ∧ back = [] := by
          have count := own.count
          simp only [List.length_append, List.length_cons] at count
          exact ⟨List.length_eq_zero_iff.mp (by omega), List.length_eq_zero_iff.mp (by omega)⟩
        have released : (after.rooms idx).live = false := by
          rw [rooms, Function.update_self]
        have alive : ∀ other, (after.rooms other).live = true →
            other ≠ idx ∧ (w.rooms other).live = true := by
          intro other lives
          have apart : other ≠ idx := by
            rintro rfl
            rw [released] at lives
            cases lives
          exact ⟨apart, others other apart ▸ lives⟩
        refine ⟨fun other live => ?_, fun other room inside => ?_, left.homeless own ok.homeless,
          fun other live => ok.inside other (alive other live).2, ?_, ?_, ?_, fun node => ?_, slots⟩
        · obtain ⟨apart, lives⟩ := alive other live
          obtain ⟨members, lists, nonempty⟩ := ok.listed other lives
          exact ⟨members, left.lists own apart lists, nonempty⟩
        · have before := housed other room inside
          have apart : room ≠ idx := by
            rintro rfl
            have only := (own.member other).mpr before
            rw [List.nil_append, List.mem_singleton] at only
            rw [only, gone] at inside
            cases inside
          rw [others room apart]
          exact ok.housed other room before
        · obtain ⟨free, nodup, head, threaded, member⟩ := ok.free
          have new : idx ∉ free := by
            rw [member, live]
            exact fun both => absurd both.2 (by simp)
          refine ⟨idx :: free, List.nodup_cons.mpr ⟨new, nodup⟩, roomFree, ⟨?_, ?_⟩, fun other => ?_⟩
          · rw [nextFree, rooms, Function.update_self]
            exact head
          · refine threaded.congr fun other inside => ?_
            rw [nextFree, others other fun same => new (same ▸ inside), nextFree]
          · rw [List.mem_cons, member]
            by_cases same : other = idx
            · subst same
              exact iff_of_true (.inl rfl) ⟨fresh, released⟩
            · rw [others other same]
              simp [same]
        · rw [roomIndex, names]
          have erased := ((ok.index_memory []).erase idx).1
          refine erased.congr fun node member => ?_
          rw [((ok.index_memory []).erase idx).2] at member
          exact (memory_inside (ok.inside _
            ((ok.entries node).mp (List.mem_filter.mp member).1).1)).symm
        · rw [roomIndex, CstrHashMap.Map.erase_capacity]
          exact ok.usable
        · rw [roomIndex, ((ok.index_memory []).erase idx).2, List.mem_filter, ok.entries,
            Bool.not_eq_true', Bool.eq_false_iff, ne_eq, CstrHashMap.same_iff,
            memory_inside fresh]
          constructor
          · rintro ⟨⟨nodeLive, value⟩, apart⟩
            have other : node.key ≠ idx := by
              intro same
              rw [same, memory_inside fresh] at apart
              exact apart rfl
            rw [others _ other]
            exact ⟨nodeLive, value⟩
          · rintro ⟨nodeLive, value⟩
            obtain ⟨apart, nodeLive⟩ := alive _ nodeLive
            refine ⟨⟨nodeLive, value⟩, fun same => apart ?_⟩
            rw [memory_inside (ok.inside _ nodeLive)] at same
            exact ok.names_injective nodeLive live same

/-! ## Joining -/

theorem text_writeName (buffer name : Bytes) : text (writeName buffer name) = text name := by
  have same : (name ++ 0 :: buffer.drop (name.length + 1)).takeWhile (· ≠ 0) =
      name.takeWhile (· ≠ 0) := by
    rw [List.takeWhile_append]
    split
    next whole =>
      have all : name.takeWhile (· ≠ 0) = name :=
        List.Sublist.eq_of_length (List.takeWhile_sublist _) whole
      rw [List.takeWhile_cons_of_neg (by simp), List.append_nil, all]
    · rfl
  simp only [text, writeName, same]

namespace RoomsOk

theorem spared {spare : Option Nat} (ok : RoomsOk cfg none w) : RoomsOk cfg spare w := by
  refine { ok with listed := fun idx live => ?_ }
  obtain ⟨members, lists, nonempty⟩ := ok.listed idx live
  exact ⟨members, lists, fun _ => nonempty nofun⟩

/-- A homeless connection leaves a room free: each live one has another member. -/
theorem free_room (ok : RoomsOk cfg none w) {c : Conn} (found : w.conns fd = some c)
    (outside : w.roomOf fd = none) : ∃ idx, w.roomFree = some idx := by
  obtain ⟨free, _, head, _, member⟩ := ok.free
  cases free with
  | cons idx rest => exact ⟨idx, head⟩
  | nil =>
      have covered : List.range cfg.slots ⊆ ((List.range cfg.slots).erase fd).filterMap w.roomOf := by
        intro idx inside
        rw [List.mem_range] at inside
        have live : (w.rooms idx).live = true := by
          by_contra free
          cases (member idx).mpr ⟨inside, Bool.eq_false_iff.mpr free⟩
        obtain ⟨members, lists, nonempty⟩ := ok.listed idx live
        obtain ⟨other, member⟩ := List.exists_mem_of_ne_nil _ (nonempty nofun)
        have room := (lists.member other).mp member
        obtain ⟨c', present, _⟩ := conn_of_room room
        refine List.mem_filterMap.mpr ⟨other, ?_, room⟩
        refine (List.mem_erase_of_ne ?_).mpr (List.mem_range.mpr (ok.slots other c' present))
        rintro rfl
        rw [outside] at room
        cases room
      have few := List.nodup_range.length_le_of_subset covered
      have fewer := List.length_filterMap_le w.roomOf ((List.range cfg.slots).erase fd)
      rw [List.length_erase_of_mem (List.mem_range.mpr (ok.slots fd c found))] at fewer
      rw [List.length_range] at few fewer
      have positive : 0 < cfg.slots := Nat.zero_lt_of_lt (ok.slots fd c found)
      omega

/-- Every entry is a live room, so the index is no larger than the table. -/
theorem index_size {spare : Option Nat} (ok : RoomsOk cfg spare w) :
    w.roomIndex.size ≤ cfg.slots := by
  have distinct : (w.roomIndex.entries.map CstrHashMap.Node.key).Nodup := by
    have texts : ((w.roomIndex.entries.map CstrHashMap.Node.key).map w.names).Nodup := by
      rw [List.map_map]
      exact ok.index.distinct
    exact texts.of_map
  have inside : w.roomIndex.entries.map CstrHashMap.Node.key ⊆ List.range cfg.slots := by
    intro idx member
    obtain ⟨node, entry, rfl⟩ := List.mem_map.mp member
    exact List.mem_range.mpr (ok.inside _ ((ok.entries node).mp entry).1)
  have few := distinct.length_le_of_subset inside
  rwa [List.length_map, List.length_range, ← ok.index.size] at few

end RoomsOk

/-- The room behind a name, found or made, and the world in which it is. -/
structure Acquired (cfg : Config) (w after : World) (name : Bytes) (idx : Nat) : Prop where
  ok : RoomsOk cfg (some idx) after
  live : (after.rooms idx).live = true
  conns : after.conns = w.conns
  quiet : Quiet w after
  faulted : after.faulted = w.faulted
  named : text (after.rooms idx).name = text name
  resolved : (∃ fd, w.roomOf fd = some idx) ∨ (after.rooms idx).name.take name.length = name ∧
    ∀ fd room, w.roomOf fd = some room → text (w.rooms room).name ≠ text name

/-- The new room in front of the index, still without members. -/
def named (w : World) (name : Bytes) (idx : Nat) : World :=
  { w.updateRoom idx fun r =>
      { r with name := writeName r.name name, head := none, count := 0, live := true } with
    roomFree := (w.rooms idx).nextFree }

theorem heap_lasts {count : Nat} (small : count < 2 ^ 60) : heap.array count = true :=
  decide_eq_true (by omega)

/-- The index takes the name of a new room. -/
theorem named_insert (ok : RoomsOk cfg none w) {name : Bytes} (free : w.roomFree = some idx)
    (fresh : ∀ node ∈ w.roomIndex.entries, w.names node.key ≠ text name) :
    idx < cfg.slots ∧ (w.rooms idx).live = false ∧
      ∃ later, (w.named name idx).roomIndex.insert ((w.named name idx).memory cfg name) heap idx idx =
          some later ∧
        later.Ok (w.named name idx).names ∧ later.capacity ≠ 0 ∧
        later.entries.Perm (⟨idx, idx⟩ :: w.roomIndex.entries) := by
  obtain ⟨idle, _, head, _, member⟩ := ok.free
  have listed : idx ∈ idle := List.mem_of_mem_head? (head.symm.trans free)
  obtain ⟨inside, dead⟩ := (member idx).mp listed
  have away : ∀ node ∈ w.roomIndex.entries, node.key < cfg.slots ∧ node.key ≠ idx := by
    intro node entry
    have live := ((ok.entries node).mp entry).1
    refine ⟨ok.inside _ live, ?_⟩
    rintro rfl
    rw [dead] at live
    cases live
  have old : ∀ node ∈ w.roomIndex.entries,
      (w.named name idx).memory cfg name node.key = w.names node.key := by
    intro node entry
    obtain ⟨within, apart⟩ := away node entry
    rw [memory_inside within]
    simp [names, named, updateRoom, apart]
  have own : (w.named name idx).memory cfg name idx = text name := by
    rw [memory_inside inside]
    simp [names, named, updateRoom, text_writeName]
  have base : w.roomIndex.Ok ((w.named name idx).memory cfg name) := ok.index.congr old
  have size := ok.index_size
  have limit := cfg.indexable
  simp only [Config.slots] at size
  have absent : ∀ node ∈ w.roomIndex.entries, (w.named name idx).memory cfg name node.key ≠
      (w.named name idx).memory cfg name idx := by
    intro node entry
    rw [old node entry, own]
    exact fresh node entry
  obtain ⟨later, inserted, laterOk, perm, usable⟩ := base.insert_fresh ok.usable idx absent
    (show heap.node = true from rfl) fun count small => heap_lasts (by omega)
  refine ⟨inside, dead, later, inserted, laterOk.congr fun node entry => ?_, usable, perm⟩
  rw [memory_inside]
  rcases List.mem_cons.mp (perm.mem_iff.mp entry) with rfl | entry
  · exact inside
  · exact (away node entry).1

theorem roomCreate_acquired (ok : RoomsOk cfg none w) {name : Bytes} (free : w.roomFree = some idx)
    (fresh : ∀ node ∈ w.roomIndex.entries, w.names node.key ≠ text name) :
    Acquired cfg w (w.roomCreate cfg name idx) name idx := by
  obtain ⟨inside, dead, later, inserted, laterOk, usable, perm⟩ := named_insert ok free fresh
  have whole : w.roomCreate cfg name idx = { w.named name idx with roomIndex := later } := by
    simp only [named] at inserted
    simp only [roomCreate, named, inserted]
  have rooms : ∀ other, other ≠ idx → (w.named name idx).rooms other = w.rooms other := by
    intro other apart
    simp [named, updateRoom, apart]
  have new : (w.named name idx).rooms idx =
      { w.rooms idx with name := writeName (w.rooms idx).name name, head := none, count := 0, live := true } := by
    simp [named, updateRoom]
  have housed : ∀ fd room, w.roomOf fd = some room → room ≠ idx := by
    rintro fd room at_room rfl
    have live := ok.housed fd room at_room
    rw [dead] at live
    cases live
  have homeless : ∀ fd, w.roomOf fd ≠ some idx := fun fd at_room => housed fd idx at_room rfl
  rw [whole]
  refine ⟨⟨fun other live => ?_, fun fd room at_room => ?_, ok.homeless, fun other live => ?_, ?_,
    laterOk, usable, fun node => ?_, ok.slots⟩, ?_, rfl, ?_, rfl, ?_, .inr ⟨?_, ?_⟩⟩
  · by_cases own : other = idx
    · subst own
      refine ⟨[], ⟨.nil, fun fd => iff_of_false (by simp) (homeless fd), trivial, ?_, ?_⟩,
        fun apart => absurd rfl apart⟩
      · change ((w.named name other).rooms other).head = _
        rw [new]
        rfl
      · change ((w.named name other).rooms other).count = _
        rw [new]
        rfl
    · have same := rooms other own
      obtain ⟨members, lists, nonempty⟩ := ok.listed other (same ▸ live)
      refine ⟨members, lists.congr (fun _ => .rfl) (fun _ _ => rfl) (fun _ _ => rfl) ?_ ?_,
        fun _ => nonempty (by simp)⟩
      · exact congrArg Room.head same
      · exact congrArg Room.count same
  · change ((w.named name idx).rooms room).live = true
    rw [rooms room (housed fd room at_room)]
    exact ok.housed fd room at_room
  · by_cases own : other = idx
    · exact own ▸ inside
    · exact ok.inside other (rooms other own ▸ live)
  · obtain ⟨idle, nodup, head, threaded, member⟩ := ok.free
    cases idle with
    | nil => rw [free] at head; cases head
    | cons first rest =>
        have first_eq : first = idx := Option.some.inj (head.symm.trans free)
        subst first_eq
        obtain ⟨gone, distinct⟩ := List.nodup_cons.mp nodup
        refine ⟨rest, distinct, threaded.1, ?_, fun other => ?_⟩
        · refine threaded.2.congr fun other inRest => ?_
          change ((w.named name first).rooms other).nextFree = _
          rw [rooms other fun same => gone (same ▸ inRest), nextFree]
        · change _ ↔ _ ∧ ((w.named name first).rooms other).live = false
          by_cases own : other = first
          · subst own
            rw [new]
            exact iff_of_false gone fun both => absurd both.2 (by simp)
          · rw [rooms other own, ← member, List.mem_cons]
            simp [own]
  · change _ ↔ ((w.named name idx).rooms node.key).live = true ∧ _
    rw [perm.mem_iff, List.mem_cons, ok.entries]
    by_cases own : node.key = idx
    · rw [own, new]
      constructor
      · rintro (rfl | ⟨live, _⟩)
        · exact ⟨rfl, rfl⟩
        · rw [dead] at live
          cases live
      · rintro ⟨_, value⟩
        obtain ⟨key, held⟩ := node
        cases own
        cases value
        exact .inl rfl
    · rw [rooms _ own]
      constructor
      · rintro (rfl | old)
        · exact absurd rfl own
        · exact old
      · exact .inr
  · change ((w.named name idx).rooms idx).live = true
    rw [new]
  · refine .rename rfl rfl rfl rfl rfl rfl fun fd room at_room => ?_
    exact congrArg Room.name (rooms room (housed fd room at_room))
  · change text ((w.named name idx).rooms idx).name = _
    rw [new]
    exact text_writeName _ _
  · change ((w.named name idx).rooms idx).name.take name.length = name
    rw [new]
    exact List.take_left
  · intro fd room at_room
    exact fresh ⟨room, room⟩ ((ok.entries ⟨room, room⟩).mpr ⟨ok.housed fd room at_room, rfl⟩)

theorem roomAcquire_acquired (ok : RoomsOk cfg none w) {c : Conn} (found : w.conns fd = some c)
    (outside : w.roomOf fd = none) (name : Bytes) :
    Acquired cfg w (w.roomAcquire cfg name).1 name (w.roomAcquire cfg name).2 := by
  have scratch : w.memory cfg name cfg.slots = text name := by
    rw [memory, if_pos rfl]
  have same : ∀ node ∈ w.roomIndex.entries, w.memory cfg name node.key = w.names node.key :=
    fun node entry => memory_inside (ok.inside _ ((ok.entries node).mp entry).1)
  rcases (ok.index_memory name).find_cases cfg.slots with ⟨missing, fresh⟩ |
    ⟨node, rest, hit, entry, own⟩
  · obtain ⟨idx, free⟩ := ok.free_room found outside
    have whole : w.roomAcquire cfg name = (w.roomCreate cfg name idx, idx) := by
      simp only [roomAcquire, missing, free]
    rw [whole]
    refine roomCreate_acquired ok free fun node entry => ?_
    rw [← same node entry, ← scratch]
    exact fresh node entry
  · have whole : w.roomAcquire cfg name = (w, node.value) := by
      simp only [roomAcquire, hit]
    obtain ⟨live, value⟩ := (ok.entries node).mp entry
    rw [same node entry, scratch] at own
    rw [whole, value]
    obtain ⟨members, lists, nonempty⟩ := ok.listed _ live
    obtain ⟨other, member⟩ := List.exists_mem_of_ne_nil _ (nonempty nofun)
    exact ⟨ok.spared, live, rfl, .refl w, rfl, own, .inl ⟨other, (lists.member other).mp member⟩⟩

/-- What `join_room` writes. -/
structure Joined (w after : World) (fd : Fd) (idx : Nat) : Prop where
  roomOf : after.roomOf = Function.update w.roomOf fd (some idx)
  prevOf : after.prevOf =
    writeAt (Function.update w.prevOf fd none) (w.rooms idx).head (some fd)
  nextOf : after.nextOf = Function.update w.nextOf fd (w.rooms idx).head
  rooms : after.rooms = Function.update w.rooms idx { w.rooms idx with
    head := some fd
    count := (w.rooms idx).count + 1 }
  roomFree : after.roomFree = w.roomFree
  roomIndex : after.roomIndex = w.roomIndex
  faulted : after.faulted = w.faulted
  state : after.state = w.state.enterRoom fd (some (w.rooms idx).name)
  kept : Kept w after

/-- The first writes of `join_room`, to the connection itself. -/
def seated (w : World) (fd : Fd) (idx : Nat) : World :=
  w.update fd fun c =>
    { c with room := some idx, roomPrev := none, roomNext := (w.rooms idx).head }

theorem joinRoom_joined {c : Conn} (found : w.conns fd = some c)
    (headLive : ∀ fd, (w.rooms idx).head = some fd → ∃ c, w.conns fd = some c) :
    Joined w (w.joinRoom fd idx) fd idx := by
  have whole : w.joinRoom fd idx =
      ((w.seated fd idx).touch (w.rooms idx).head fun c => { c with roomPrev := some fd }).updateRoom
        idx fun r => { r with head := some fd, count := r.count + 1 } := rfl
  have seatedRoom : (w.seated fd idx).roomOf = Function.update w.roomOf fd (some idx) :=
    update_field found (·.room)
  have seatedPrev : (w.seated fd idx).prevOf = Function.update w.prevOf fd none :=
    update_field found (·.roomPrev)
  have seatedNext : (w.seated fd idx).nextOf = Function.update w.nextOf fd (w.rooms idx).head :=
    update_field found (·.roomNext)
  have seatedState : (w.seated fd idx).state = w.state.enterRoom fd (some (w.rooms idx).name) :=
    state_update fun _ _ => rfl
  have seatedKept : Kept w (w.seated fd idx) :=
    .update (fun _ => rfl) (fun _ => rfl) fun _ queue => ⟨queue.1, queue.2⟩
  have alive : ∀ other, (w.rooms idx).head = some other →
      ∃ c, (w.seated fd idx).conns other = some c := by
    intro other first
    obtain ⟨c', present⟩ := headLive other first
    rw [seated, update_apply]
    split
    · exact ⟨_, by rw [found]; rfl⟩
    · exact ⟨c', present⟩
  obtain ⟨rooms, roomFree, roomIndex⟩ := @touch_rooms (w.seated fd idx)
    (fun c => { c with roomPrev := some fd }) (w.rooms idx).head
  have faulted := @touch_faulted _ (fun c => { c with roomPrev := some fd }) _ alive
  have nextRoom := @touch_field (w.seated fd idx) Nat (fun c => { c with roomPrev := some fd })
    (w.rooms idx).head (·.room) fun _ => rfl
  have nextPrev := @touch_written (w.seated fd idx) (fun c => { c with roomPrev := some fd })
    (w.rooms idx).head (some fd) (·.roomPrev) alive fun _ => rfl
  have nextNext := @touch_field (w.seated fd idx) Fd (fun c => { c with roomPrev := some fd })
    (w.rooms idx).head (·.roomNext) fun _ => rfl
  have quiet : Quiet (w.seated fd idx)
      ((w.seated fd idx).touch (w.rooms idx).head fun c => { c with roomPrev := some fd }) :=
    .touch (fun _ => rfl) (fun _ => rfl) fun _ queue => ⟨queue.1, queue.2⟩
  rw [whole]
  generalize ((w.seated fd idx).touch (w.rooms idx).head fun c => { c with roomPrev := some fd }) =
    linked at *
  have counted : Quiet linked
      (linked.updateRoom idx fun r => { r with head := some fd, count := r.count + 1 }) :=
    .updateRoom rfl
  refine ⟨nextRoom.trans seatedRoom, nextPrev.trans (congrArg (writeAt · _ _) seatedPrev),
    nextNext.trans seatedNext, ?_, roomFree, roomIndex, faulted, ?_,
    seatedKept.trans (quiet.trans counted).kept⟩
  · change Function.update linked.rooms idx
      { linked.rooms idx with head := some fd, count := (linked.rooms idx).count + 1 } = _
    rw [rooms]
    rfl
  · rw [(quiet.trans counted).state, seatedState]

/-- The joined connection stands in front of the members that were there. -/
theorem joinRoom_ok (ok : RoomsOk cfg (some idx) w) (live : (w.rooms idx).live = true) {c : Conn}
    (found : w.conns fd = some c) (outside : w.roomOf fd = none) :
    RoomsOk cfg none (w.joinRoom fd idx) ∧ Joined w (w.joinRoom fd idx) fd idx := by
  obtain ⟨members, own, _⟩ := ok.listed idx live
  have inside : ∀ other, other ∈ members → w.roomOf other = some idx :=
    fun other => (own.member other).mp
  have headLive : ∀ other, (w.rooms idx).head = some other → ∃ c, w.conns other = some c := by
    intro other first
    rw [own.head] at first
    obtain ⟨c', present, _⟩ := conn_of_room (inside other (List.mem_of_mem_head? first))
    exact ⟨c', present⟩
  have joined := joinRoom_joined found headLive
  have fresh : fd ∉ members := by
    intro member
    rw [inside fd member] at outside
    cases outside
  have nodup : (fd :: members).Nodup := List.nodup_cons.mpr ⟨fresh, own.nodup⟩
  refine ⟨?_, joined⟩
  have slots : ∀ other c', (w.joinRoom fd idx).conns other = some c' → other < cfg.slots := by
    intro other c' present
    obtain ⟨c'', before, _⟩ := joined.kept other c' present
    exact ok.slots other c'' before
  generalize w.joinRoom fd idx = after at *
  have others : ∀ room, room ≠ idx → after.rooms room = w.rooms room := by
    intro room apart
    rw [joined.rooms, Function.update_of_ne apart]
  have kept : ∀ room, (after.rooms room).live = (w.rooms room).live ∧
      (after.rooms room).nextFree = (w.rooms room).nextFree ∧
      (after.rooms room).name = (w.rooms room).name := by
    intro room
    by_cases same : room = idx
    · subst same
      rw [joined.rooms, Function.update_self]
      exact ⟨rfl, rfl, rfl⟩
    · rw [others room same]
      exact ⟨rfl, rfl, rfl⟩
  have names : after.names = w.names := funext fun room => congrArg text (kept room).2.2
  have headInside : ∀ other, (w.rooms idx).head = some other → w.roomOf other = some idx := by
    intro other first
    rw [own.head] at first
    exact inside other (List.mem_of_mem_head? first)
  refine ⟨fun room lives => ?_, fun other room at_room => ?_, fun other free => ?_,
    fun room lives => ok.inside room ((kept room).1 ▸ lives), ?_, ?_, ?_, fun node => ?_, slots⟩
  · rw [(kept room).1] at lives
    by_cases same : room = idx
    · subst same
      refine ⟨fd :: members, ⟨nodup, fun other => ?_, ?_, ?_, ?_⟩, fun _ => List.cons_ne_nil _ _⟩
      · rw [List.mem_cons, own.member, joined.roomOf, Function.update_apply]
        split
        next me => exact iff_of_true (.inl me) rfl
        next apart => simp [apart]
      · rw [joined.prevOf, joined.nextOf, own.head]
        exact own.linked.push nodup
      · rw [joined.rooms, Function.update_self]
        rfl
      · rw [joined.rooms, Function.update_self, List.length_cons, ← own.count]
    · obtain ⟨list, lists, nonempty⟩ := ok.listed room lives
      have apart : ∀ other, w.roomOf other = some room → other ≠ fd := by
        rintro other at_room rfl
        rw [outside] at at_room
        cases at_room
      refine ⟨list, lists.congr (fun other => ?_) (fun other at_room => ?_) (fun other at_room => ?_)
        (by rw [others room same]) (by rw [others room same]), fun _ => nonempty ?_⟩
      · rw [joined.roomOf, Function.update_apply]
        split
        next me =>
          subst me
          rw [outside]
          exact iff_of_false (fun wrong => same (Option.some.inj wrong).symm) nofun
        · exact .rfl
      · rw [joined.prevOf, writeAt_other, Function.update_of_ne (apart other at_room)]
        intro first
        rw [headInside other first, Option.some.injEq] at at_room
        exact same at_room.symm
      · rw [joined.nextOf, Function.update_of_ne (apart other at_room)]
      · exact fun spare => same (Option.some.inj spare).symm
  · rw [(kept room).1]
    rw [joined.roomOf, Function.update_apply] at at_room
    split at at_room
    · exact Option.some.inj at_room ▸ live
    · exact ok.housed other room at_room
  · rw [joined.roomOf, Function.update_apply] at free
    split at free
    · cases free
    next apart =>
      rw [joined.prevOf, joined.nextOf, writeAt_other, Function.update_of_ne apart,
        Function.update_of_ne apart]
      · exact ok.homeless other free
      · intro first
        rw [headInside other first] at free
        cases free
  · obtain ⟨idle, idleNodup, head, threaded, member⟩ := ok.free
    refine ⟨idle, idleNodup, joined.roomFree.trans head, threaded.congr fun room _ => (kept room).2.1,
      fun room => ?_⟩
    rw [member, (kept room).1]
  · rw [joined.roomIndex, names]
    exact ok.index
  · rw [joined.roomIndex]
    exact ok.usable
  · rw [joined.roomIndex, ok.entries, (kept node.key).1]

end NetEngine.Epoll.ServerSds.World
