import NetEngine.Epoll.JoinNotices
import NetEngine.Epoll.TickLedger

/-! Coalesced delivery as an account: which lines a room holds for the next tick, and
which frames each connection is handed. It is read off what happens to the connections,
never off the tick buffers. -/

set_option autoImplicit false

namespace NetEngine.Epoll.Server

open Socket

/-- A `c_chat` input of a member; inputs are numbered as they are handled. -/
structure Line where
  number : Nat
  text : Bytes

/-- Its entry in a tick frame. -/
def Line.entry (line : Line) : Bytes :=
  LittleEndian.encode (UInt16.ofNat line.text.length) ++ line.text

def frameOf (lines : List Line) : Bytes := lines.flatMap Line.entry

/-- A tick: the connections it finds, and what their rooms hold. -/
structure Round where
  clients : Table Bytes
  held : Bytes → List Line

/-- What the tick hands to a connection: all lines of its room, as one frame, if it is open
and its queue can take that. -/
def Round.shown (tick : Round) (fd : Fd) : List (List Line) :=
  match tick.clients fd with
  | none => []
  | some client =>
      let lines := client.room.elim [] tick.held
      if client.closing = false ∧ lines ≠ [] ∧
          client.pending.length + headerSize + (frameOf lines).length ≤ sendCap then [lines]
      else []

structure Books where
  count : Nat
  dropped : List Nat
  discarded : List Nat
  held : Bytes → List Line
  ticks : List Round

namespace Books

def init : Books := ⟨0, [], [], fun _ => [], []⟩

def frames (books : Books) (fd : Fd) : List (List Line) := books.ticks.flatMap (·.shown fd)

/-- An input is held for the room of its sender, or dropped if the room holds too much. -/
def hear (books : Books) (room text : Bytes) : Books :=
  if tickCap < (frameOf (books.held room)).length + 2 + text.length then
    { books with count := books.count + 1, dropped := books.dropped ++ [books.count] }
  else
    { books with
      count := books.count + 1
      held := Function.update books.held room (books.held room ++ [⟨books.count, text⟩]) }

open Classical in
/-- What a room holds goes with its last member. -/
noncomputable def leave (books : Books) (clients : Table Bytes) (fd : Fd) (room : Bytes) : Books :=
  if ∃ other, other ≠ fd ∧ roomIn clients other = some room then books
  else
    { books with
      discarded := books.discarded ++ (books.held room).map Line.number
      held := Function.update books.held room [] }

noncomputable def note (books : Books) : Obs Bytes → Books
  | .packet clients fd type payload =>
      match roomIn clients fd with
      | none => books
      | some room =>
          if type = cChat then
            books.hear room (chatLine ((clients fd).elim [] (·.nick)) payload)
          else if type = cJoin ∧ enters clients fd payload then books.leave clients fd room
          else books
  | .departs clients fd =>
      match roomIn clients fd with
      | none => books
      | some room => books.leave clients fd room
  | _ => books

noncomputable def read (books : Books) (trace : List (Obs Bytes)) : Books := trace.foldl note books

def tick (books : Books) (clients : Table Bytes) : Books :=
  { books with held := fun _ => [], ticks := books.ticks ++ [⟨clients, books.held⟩] }

/-! ## Order -/

/-- An input is held, was left out, went with its room, or was there at a tick. -/
def Placed (books : Books) (number : Nat) : Prop :=
  number ∈ books.dropped ∨ number ∈ books.discarded ∨
    (∃ room, number ∈ (books.held room).map Line.number) ∨
    ∃ tick ∈ books.ticks, ∃ room, number ∈ (tick.held room).map Line.number

/-- Lines are held in the order of the inputs, behind all that was there at a tick. -/
structure Ordered (books : Books) : Prop where
  handed : ∀ fd, ((books.frames fd).flatten.map Line.number).Pairwise (· < ·)
  held : ∀ room, ((books.held room).map Line.number).Pairwise (· < ·)
  behind : ∀ tick ∈ books.ticks, ∀ room, ∀ line ∈ tick.held room, ∀ other,
    ∀ later ∈ books.held other, line.number < later.number
  counted : ∀ room, ∀ line ∈ books.held room, line.number < books.count
  numbered : ∀ tick ∈ books.ticks, ∀ room, ∀ line ∈ tick.held room, line.number < books.count
  placed : ∀ number < books.count, books.Placed number

variable {books : Books}

theorem Ordered.init : Ordered init where
  handed _ := .nil
  held _ := .nil
  behind _ member := by cases member
  counted _ _ member := by cases member
  numbered _ member := by cases member
  placed _ below := by cases below

theorem Ordered.drop (ordered : books.Ordered) :
    Ordered { books with
      count := books.count + 1, dropped := books.dropped ++ [books.count] } where
  handed := ordered.handed
  held := ordered.held
  behind := ordered.behind
  counted room line member := Nat.lt_succ_of_lt (ordered.counted room line member)
  numbered tick member room line inside :=
    Nat.lt_succ_of_lt (ordered.numbered tick member room line inside)
  placed number below := by
    rcases Nat.lt_succ_iff_lt_or_eq.mp below with before | rfl
    · rcases ordered.placed number before with dropped | other
      · exact .inl (List.mem_append_left _ dropped)
      · exact .inr other
    · exact .inl (List.mem_append_right _ (List.mem_singleton_self _))

theorem mem_hold {held : Bytes → List Line} {room other : Bytes} {line new : Line}
    (member : line ∈ Function.update held room (held room ++ [new]) other) :
    line ∈ held other ∨ other = room ∧ line = new := by
  by_cases same : other = room
  · rw [same, Function.update_self] at member
    rcases List.mem_append.mp member with before | last
    · exact .inl (same ▸ before)
    · exact .inr ⟨same, List.mem_singleton.mp last⟩
  · rw [Function.update_of_ne same] at member
    exact .inl member

theorem mem_discard {held : Bytes → List Line} {room other : Bytes} {line : Line}
    (member : line ∈ Function.update held room [] other) : other ≠ room ∧ line ∈ held other := by
  by_cases same : other = room
  · rw [same, Function.update_self] at member
    cases member
  · rw [Function.update_of_ne same] at member
    exact ⟨same, member⟩

theorem Ordered.hold (ordered : books.Ordered) (room text : Bytes) :
    Ordered { books with
      count := books.count + 1
      held := Function.update books.held room (books.held room ++ [⟨books.count, text⟩]) } := by
  have own : Function.update books.held room (books.held room ++ [⟨books.count, text⟩]) room =
      books.held room ++ [⟨books.count, text⟩] := Function.update_self ..
  have off : ∀ other, other ≠ room →
      Function.update books.held room (books.held room ++ [⟨books.count, text⟩]) other =
        books.held other := fun other apart => Function.update_of_ne apart ..
  have new : ∀ other, ∀ line ∈ Function.update books.held room
      (books.held room ++ [⟨books.count, text⟩]) other,
      line ∈ books.held other ∨ line.number = books.count := by
    intro other line member
    rcases mem_hold member with before | ⟨_, rfl⟩
    · exact .inl before
    · exact .inr rfl
  generalize Function.update books.held room (books.held room ++ [⟨books.count, text⟩]) = held
    at own off new
  refine ⟨ordered.handed, fun other => ?_, fun tick member name line inside other later held => ?_,
    fun other line member => ?_, fun tick member name line inside =>
      Nat.lt_succ_of_lt (ordered.numbered tick member name line inside), fun number below => ?_⟩
  · by_cases same : other = room
    · simp only [same, own, List.map_append, List.pairwise_append]
      refine ⟨ordered.held room, List.pairwise_singleton _ _, fun number member last final => ?_⟩
      obtain ⟨line, inside, rfl⟩ := List.mem_map.mp member
      rw [List.map_singleton, List.mem_singleton] at final
      exact final ▸ ordered.counted room line inside
    · simp only [off other same]
      exact ordered.held other
  · rcases new other later held with before | last
    · exact ordered.behind tick member name line inside other later before
    · exact last ▸ ordered.numbered tick member name line inside
  · rcases new other line member with before | last
    · exact Nat.lt_succ_of_lt (ordered.counted other line before)
    · exact last ▸ Nat.lt_succ_self _
  · have kept : ∀ other, number ∈ (books.held other).map Line.number →
        number ∈ (held other).map Line.number := by
      intro other member
      by_cases same : other = room
      · rw [same, own, List.map_append]
        exact List.mem_append_left _ (same ▸ member)
      · rwa [off other same]
    rcases Nat.lt_succ_iff_lt_or_eq.mp below with before | rfl
    · rcases ordered.placed number before with dropped | discarded | ⟨other, inside⟩ | ticked
      · exact .inl dropped
      · exact .inr (.inl discarded)
      · exact .inr (.inr (.inl ⟨other, kept other inside⟩))
      · exact .inr (.inr (.inr ticked))
    · exact .inr (.inr (.inl ⟨room, by simp only [own, List.map_append, List.map_singleton,
        List.mem_append, List.mem_singleton, or_true]⟩))

theorem Ordered.hear (ordered : books.Ordered) (room text : Bytes) :
    (books.hear room text).Ordered := by
  unfold Books.hear
  split
  · exact ordered.drop
  · exact ordered.hold room text

theorem Ordered.discard (ordered : books.Ordered) (room : Bytes) :
    Ordered { books with
      discarded := books.discarded ++ (books.held room).map Line.number
      held := Function.update books.held room [] } := by
  have own : Function.update books.held room [] room = [] := Function.update_self ..
  have off : ∀ other, other ≠ room →
      Function.update books.held room [] other = books.held other :=
    fun other apart => Function.update_of_ne apart ..
  have fewer : ∀ other, ∀ line ∈ Function.update books.held room [] other, line ∈ books.held other :=
    fun _ _ member => (mem_discard member).2
  generalize Function.update books.held room [] = held at own off fewer
  refine ⟨ordered.handed, fun other => ?_, fun tick member name line inside other later within =>
      ordered.behind tick member name line inside other later (fewer other later within),
    fun other line member => ordered.counted other line (fewer other line member),
    ordered.numbered, fun number below => ?_⟩
  · by_cases same : other = room
    · simp only [same, own]
      exact .nil
    · simp only [off other same]
      exact ordered.held other
  · rcases ordered.placed number below with dropped | discarded | ⟨other, inside⟩ | ticked
    · exact .inl dropped
    · exact .inr (.inl (List.mem_append_left _ discarded))
    · by_cases same : other = room
      · exact .inr (.inl (List.mem_append_right _ (same ▸ inside)))
      · exact .inr (.inr (.inl ⟨other, by simpa only [off other same] using inside⟩))
    · exact .inr (.inr (.inr ticked))

theorem Ordered.leave (ordered : books.Ordered) (clients : Table Bytes) (fd : Fd) (room : Bytes) :
    (books.leave clients fd room).Ordered := by
  unfold Books.leave
  split
  · exact ordered
  · exact ordered.discard room

theorem Ordered.note (ordered : books.Ordered) (obs : Obs Bytes) : (books.note obs).Ordered := by
  cases obs with
  | packet clients fd type payload =>
      simp only [Books.note]
      split
      · exact ordered
      · split
        · exact ordered.hear _ _
        · split
          · exact ordered.leave clients fd _
          · exact ordered
  | departs clients fd =>
      simp only [Books.note]
      split
      · exact ordered
      · exact ordered.leave clients fd _
  | _ => exact ordered

theorem Ordered.read (ordered : books.Ordered) (trace : List (Obs Bytes)) :
    (books.read trace).Ordered := by
  induction trace generalizing books with
  | nil => exact ordered
  | cons obs trace ih => exact ih (ordered.note obs)

end Books

theorem Round.shown_cases (tick : Round) (fd : Fd) :
    tick.shown fd = [] ∨ ∃ room, tick.shown fd = [tick.held room] := by
  unfold Round.shown
  split
  · exact .inl rfl
  next client _ =>
    simp only
    split
    next takes =>
      cases inside : client.room with
      | none =>
          rw [inside] at takes
          exact absurd rfl takes.2.1
      | some room => exact .inr ⟨room, rfl⟩
    · exact .inl rfl

/-- An open member of the room. -/
def Sits (clients : Table Bytes) (room : Bytes) (fd : Fd) : Prop :=
  ∃ client, clients fd = some client ∧ client.closing = false ∧ client.room = some room

/-- So much more fits its queue. -/
def Roomy (clients : Table Bytes) (fd : Fd) (size : Nat) : Prop :=
  ∀ client, clients fd = some client → client.pending.length + headerSize + size ≤ sendCap

/-- An open member at the tick, with a queue that can take what its room holds. -/
def Round.Reaches (tick : Round) (room : Bytes) (fd : Fd) : Prop :=
  Sits tick.clients room fd ∧ Roomy tick.clients fd (frameOf (tick.held room)).length

theorem Round.mem_shown {tick : Round} {fd : Fd} {lines : List Line} :
    lines ∈ tick.shown fd ↔
      ∃ room, tick.Reaches room fd ∧ lines = tick.held room ∧ tick.held room ≠ [] := by
  unfold Round.shown
  constructor
  · intro member
    split at member
    · cases member
    next client found =>
      simp only at member
      split at member
      next takes =>
        obtain ⟨opened, some, fits⟩ := takes
        cases inside : client.room with
        | none =>
            rw [inside] at some
            exact absurd rfl some
        | some room =>
            rw [inside] at some fits member
            refine ⟨room, ⟨⟨client, found, opened, inside⟩, fun again present => ?_⟩,
              List.mem_singleton.mp member, some⟩
            obtain rfl : client = again := Option.some.inj (found.symm.trans present)
            exact fits
      · cases member
  · rintro ⟨room, ⟨⟨client, found, opened, inside⟩, fits⟩, rfl, some⟩
    simp only [found, inside, Option.elim_some]
    rw [if_pos ⟨opened, some, fits client found⟩]
    exact List.mem_singleton_self _

namespace Books

variable {books : Books}

theorem mem_frames {fd : Fd} {line : Line} :
    line ∈ (books.frames fd).flatten ↔
      ∃ tick ∈ books.ticks, ∃ room, tick.Reaches room fd ∧ line ∈ tick.held room := by
  constructor
  · intro member
    obtain ⟨lines, inside, within⟩ := List.mem_flatten.mp member
    obtain ⟨tick, ticked, shown⟩ := List.mem_flatMap.mp inside
    obtain ⟨room, reaches, rfl, _⟩ := Round.mem_shown.mp shown
    exact ⟨tick, ticked, room, reaches, within⟩
  · rintro ⟨tick, ticked, room, reaches, within⟩
    refine List.mem_flatten.mpr ⟨tick.held room, List.mem_flatMap.mpr ⟨tick, ticked, ?_⟩, within⟩
    exact Round.mem_shown.mpr ⟨room, reaches, rfl, List.ne_nil_of_mem within⟩

theorem tick_frames (clients : Table Bytes) (fd : Fd) :
    (books.tick clients).frames fd = books.frames fd ++ Round.shown ⟨clients, books.held⟩ fd := by
  simp [tick, frames]

theorem mem_tick {clients : Table Bytes} {tick : Round}
    (member : tick ∈ (books.tick clients).ticks) :
    tick ∈ books.ticks ∨ tick.held = books.held := by
  rcases List.mem_append.mp member with before | last
  · exact .inl before
  · exact .inr (List.mem_singleton.mp last ▸ rfl)

theorem Ordered.tick (ordered : books.Ordered) (clients : Table Bytes) :
    (books.tick clients).Ordered := by
  refine ⟨fun fd => ?_, fun _ => .nil, fun _ _ _ _ _ _ _ later => (List.not_mem_nil later).elim,
    fun _ _ member => (List.not_mem_nil member).elim, fun tick member room line inside => ?_,
    fun number below => ?_⟩
  · rw [tick_frames, List.flatten_append, List.map_append, List.pairwise_append]
    rcases Round.shown_cases ⟨clients, books.held⟩ fd with none | ⟨room, one⟩
    · rw [none]
      exact ⟨ordered.handed fd, .nil, fun _ _ _ later => by cases later⟩
    · rw [one, List.flatten_singleton]
      refine ⟨ordered.handed fd, ordered.held room, fun number member later laterMember => ?_⟩
      obtain ⟨line, inside, rfl⟩ := List.mem_map.mp member
      obtain ⟨next, nextInside, rfl⟩ := List.mem_map.mp laterMember
      obtain ⟨tick, ticked, other, _, held⟩ := mem_frames.mp inside
      exact ordered.behind tick ticked other line held room next nextInside
  · rcases mem_tick member with before | same
    · exact ordered.numbered tick before room line inside
    · exact ordered.counted room line (same ▸ inside)
  · rcases ordered.placed number below with dropped | discarded | held | ⟨tick, ticked, inside⟩
    · exact .inl dropped
    · exact .inr (.inl discarded)
    · exact .inr (.inr (.inr ⟨⟨clients, books.held⟩,
        List.mem_append_right _ (List.mem_singleton_self _), held⟩))
    · exact .inr (.inr (.inr ⟨tick, List.mem_append_left _ ticked, inside⟩))

end Books

end NetEngine.Epoll.Server
