import Mathlib.Data.List.Pairwise
import NetEngine.Epoll.TickDelivery

/-! Who is shown a chat with coalescing, against who is sent it at once without: the inputs
as the trace has them, and what becomes of each. -/

set_option autoImplicit false

namespace NetEngine.Epoll.Server

open Socket

/-! ## Inputs -/

instance (clients : Table Bytes) (room line : Bytes) (fd : Fd) :
    Decidable (Hears clients room line fd) :=
  decidable_of_iff (line.length ≤ maxPayload ∧ ((clients fd).any fun client =>
      decide (client.closing = false ∧ client.room = some room ∧
        client.pending.length + headerSize + line.length ≤ sendCap)) = true)
    (by simp [Hears, Option.any_eq_true])

/-- A `c_chat` of a member, and the connections that it is handled among. -/
structure Input where
  clients : Table Bytes
  fd : Fd
  payload : Bytes

namespace Input

def room (input : Input) : Option Bytes := roomIn input.clients input.fd

def line (input : Input) : Bytes :=
  chatLine ((input.clients input.fd).elim [] (·.nick)) input.payload

/-- Immediate mode sends it to this connection. -/
def Heard (input : Input) (fd : Fd) : Prop :=
  ∃ room, input.room = some room ∧ Hears input.clients room input.line fd

/-- What was queued while it was handled: its line, once, for who hears it. -/
def SentBy (input : Input) (body : List (Obs Bytes)) : Prop :=
  ∀ fd, (input.Heard fd → appendsTo fd body = [(sChat, input.line)]) ∧
    (¬ input.Heard fd → appendsTo fd body = [])

instance (input : Input) (fd : Fd) : Decidable (input.Heard fd) :=
  decidable_of_iff
    ((input.room.any fun room => decide (Hears input.clients room input.line fd)) = true)
    (by simp [Heard, Option.any_eq_true])

end Input

/-- The inputs of a run, in order. -/
def inputs (trace : List (Obs Bytes)) : List Input :=
  trace.filterMap fun
    | .packet clients fd type payload =>
        if type = cChat ∧ (roomIn clients fd).isSome then some ⟨clients, fd, payload⟩ else none
    | _ => none

theorem inputs_append (trace more : List (Obs Bytes)) :
    inputs (trace ++ more) = inputs trace ++ inputs more := List.filterMap_append ..

/-- The line is an input of this room. -/
def Line.Of (trace : List (Obs Bytes)) (room : Bytes) (line : Line) : Prop :=
  ∃ input, (inputs trace)[line.number]? = some input ∧ input.room = some room ∧
    line.text = input.line

theorem Line.Of.grow {trace : List (Obs Bytes)} {room : Bytes} {line : Line}
    (known : line.Of trace room) (more : List (Obs Bytes)) : line.Of (trace ++ more) room := by
  obtain ⟨input, found, rest⟩ := known
  refine ⟨input, ?_, rest⟩
  obtain ⟨inside, _⟩ := List.getElem?_eq_some_iff.mp found
  rw [inputs_append, List.getElem?_append_left inside]
  exact found

/-- A line is of one room. -/
theorem Line.Of.one {trace : List (Obs Bytes)} {room other : Bytes} {line later : Line}
    (known : line.Of trace room) (also : later.Of trace other) (same : line.number = later.number) :
    room = other := by
  obtain ⟨input, found, inside, _⟩ := known
  obtain ⟨again, foundAgain, insideAgain, _⟩ := also
  rw [same, foundAgain, Option.some.injEq] at found
  rw [found, inside, Option.some.injEq] at insideAgain
  exact insideAgain

/-- No input is there at both ticks. -/
def Round.Apart (tick again : Round) : Prop :=
  ∀ room, ∀ line ∈ tick.held room, ∀ other, ∀ later ∈ again.held other, line.number ≠ later.number

instance : Std.Symm Round.Apart where
  symm _ _ apart room line inside other later within :=
    (apart other later within room line inside).symm

namespace Books

/-- What an event can do to the books. -/
inductive Noting (books : Books) : List Input → Books → Prop where
  | same : Noting books [] books
  | drop (input : Input) :
      Noting books [input] { books with
        count := books.count + 1, dropped := books.dropped ++ [books.count] }
  | hold (input : Input) (room : Bytes) : input.room = some room →
      Noting books [input] { books with
        count := books.count + 1
        held := Function.update books.held room
          (books.held room ++ [⟨books.count, input.line⟩]) }
  | discard (room : Bytes) :
      Noting books [] { books with
        discarded := books.discarded ++ (books.held room).map Line.number
        held := Function.update books.held room [] }

variable {books : Books} {trace : List (Obs Bytes)}

theorem noting_leave (books : Books) (clients : Table Bytes) (fd : Fd) (room : Bytes) :
    Noting books [] (books.leave clients fd room) := by
  unfold leave
  split
  · exact .same
  · exact .discard room

theorem noting_note (books : Books) (obs : Obs Bytes) :
    Noting books (inputs [obs]) (books.note obs) := by
  cases obs with
  | packet clients fd type payload =>
      cases inside : roomIn clients fd with
      | none =>
          simp only [note, inputs, List.filterMap_cons, inside, Option.isSome_none]
          simpa using Noting.same
      | some room =>
          by_cases chats : type = cChat
          · have input : inputs [.packet clients fd type payload] = [⟨clients, fd, payload⟩] := by
              simp [inputs, inside, chats]
            rw [input]
            simp only [note, inside, chats, if_true, hear]
            split
            · exact .drop _
            · exact .hold ⟨clients, fd, payload⟩ room inside
          · have none : inputs [.packet clients fd type payload] = [] := by
              simp [inputs, chats]
            rw [none]
            simp only [note, inside, chats, if_false]
            split
            · exact noting_leave books clients fd room
            · exact .same
  | departs clients fd =>
      simp only [note]
      split
      · exact .same
      · exact noting_leave books clients fd _
  | _ => exact .same

/-! ## What becomes of an input -/

/-- The books number the inputs of the trace, hold each under its room, and keep what was
left out apart from what is held or was there at a tick. -/
structure Fates (books : Books) (trace : List (Obs Bytes)) : Prop where
  count : books.count = (inputs trace).length
  held : ∀ room, ∀ line ∈ books.held room, line.Of trace room
  ticked : ∀ tick ∈ books.ticks, ∀ room, ∀ line ∈ tick.held room, line.Of trace room
  once : books.dropped.Nodup
  lost : ∀ number, number ∈ books.dropped ∨ number ∈ books.discarded → number < books.count ∧
    (∀ room, ∀ line ∈ books.held room, line.number ≠ number) ∧
    ∀ tick ∈ books.ticks, ∀ room, ∀ line ∈ tick.held room, line.number ≠ number
  apart : books.ticks.Pairwise Round.Apart

namespace Fates

theorem init : Books.init.Fates [] where
  count := rfl
  held _ _ member := by cases member
  ticked _ member := by cases member
  once := .nil
  lost _ gone := by rcases gone with gone | gone <;> cases gone
  apart := .nil

theorem quiet (fates : books.Fates trace) {more : List (Obs Bytes)} (none : inputs more = []) :
    books.Fates (trace ++ more) where
  count := by rw [inputs_append, none, List.append_nil, fates.count]
  held room line member := (fates.held room line member).grow more
  ticked tick member room line inside := (fates.ticked tick member room line inside).grow more
  once := fates.once
  lost := fates.lost
  apart := fates.apart

theorem drop (fates : books.Fates trace) (ordered : books.Ordered) {more : List (Obs Bytes)}
    {input : Input} (one : inputs more = [input]) :
    Fates { books with
      count := books.count + 1, dropped := books.dropped ++ [books.count] } (trace ++ more) := by
  refine ⟨by simp [inputs_append, one, fates.count],
    fun room line member => (fates.held room line member).grow more,
    fun tick member room line inside => (fates.ticked tick member room line inside).grow more,
    List.nodup_append.mpr ⟨fates.once, List.nodup_singleton _, fun number member last final => ?_⟩,
    fun number gone => ?_, fates.apart⟩
  · rw [List.mem_singleton.mp final]
    exact Nat.ne_of_lt (fates.lost number (.inl member)).1
  have before_or_now : (number ∈ books.dropped ∨ number ∈ books.discarded) ∨ number = books.count := by
    simp only [List.mem_append, List.mem_singleton] at gone
    rcases gone with (dropped | now) | discarded
    · exact .inl (.inl dropped)
    · exact .inr now
    · exact .inl (.inr discarded)
  rcases before_or_now with before | rfl
  · obtain ⟨below, out, never⟩ := fates.lost number before
    exact ⟨Nat.lt_succ_of_lt below, out, never⟩
  · exact ⟨Nat.lt_succ_self _,
      fun room line member => Nat.ne_of_lt (ordered.counted room line member),
      fun tick member room line inside =>
        Nat.ne_of_lt (ordered.numbered tick member room line inside)⟩

theorem hold (fates : books.Fates trace) {more : List (Obs Bytes)} {input : Input} {room : Bytes}
    (one : inputs more = [input]) (inside : input.room = some room) :
    Fates { books with
      count := books.count + 1
      held := Function.update books.held room
        (books.held room ++ [⟨books.count, input.line⟩]) } (trace ++ more) := by
  refine ⟨by simp [inputs_append, one, fates.count], fun other line member => ?_,
    fun tick member room line inside => (fates.ticked tick member room line inside).grow more,
    fates.once, fun number gone => ?_, fates.apart⟩
  · rcases mem_hold member with before | ⟨rfl, rfl⟩
    · exact (fates.held other line before).grow more
    · refine ⟨input, ?_, inside, rfl⟩
      rw [inputs_append, one]
      exact fates.count ▸ List.getElem?_concat_length ..
  · obtain ⟨below, out, never⟩ := fates.lost number gone
    refine ⟨Nat.lt_succ_of_lt below, fun other line member => ?_, never⟩
    rcases mem_hold member with before | ⟨_, rfl⟩
    · exact out other line before
    · exact (Nat.ne_of_lt below).symm

theorem discard (fates : books.Fates trace) (ordered : books.Ordered) (room : Bytes) :
    Fates { books with
      discarded := books.discarded ++ (books.held room).map Line.number
      held := Function.update books.held room [] } trace := by
  refine ⟨fates.count, fun other line member => fates.held other line (mem_discard member).2,
    fates.ticked, fates.once, fun number gone => ?_, fates.apart⟩
  have before_or_now : (number ∈ books.dropped ∨ number ∈ books.discarded) ∨
      ∃ line ∈ books.held room, line.number = number := by
    simp only [List.mem_append, List.mem_map] at gone
    rcases gone with dropped | before | now
    · exact .inl (.inl dropped)
    · exact .inl (.inr before)
    · exact .inr now
  rcases before_or_now with before | ⟨last, member, rfl⟩
  · obtain ⟨below, out, never⟩ := fates.lost number before
    exact ⟨below, fun other line member => out other line (mem_discard member).2, never⟩
  · refine ⟨ordered.counted room last member, fun other line later same => ?_,
      fun tick before other line inside =>
        Nat.ne_of_lt (ordered.behind tick before other line inside room last member)⟩
    obtain ⟨apart, inside⟩ := mem_discard later
    exact apart ((fates.held other line inside).one (fates.held room last member) same)

theorem note (fates : books.Fates trace) (ordered : books.Ordered) (obs : Obs Bytes) :
    (books.note obs).Fates (trace ++ [obs]) := by
  have noting := noting_note books obs
  generalize books.note obs = next at noting ⊢
  generalize heard : inputs [obs] = one at noting
  cases noting with
  | same => exact fates.quiet heard
  | drop input => exact fates.drop ordered heard
  | hold input room inside => exact fates.hold heard inside
  | discard room => exact (fates.discard ordered room).quiet heard

theorem read (fates : books.Fates trace) (ordered : books.Ordered) (more : List (Obs Bytes)) :
    (books.read more).Fates (trace ++ more) := by
  induction more generalizing trace books with
  | nil => rwa [List.append_nil]
  | cons obs more ih =>
      rw [← List.singleton_append, ← List.append_assoc]
      exact ih (fates.note ordered obs) (ordered.note obs)

theorem tick (fates : books.Fates trace) (ordered : books.Ordered) (clients : Table Bytes) :
    (books.tick clients).Fates trace := by
  refine ⟨fates.count, fun _ _ member => (List.not_mem_nil member).elim,
    fun tick member room line inside => ?_, fates.once, fun number gone => ?_, ?_⟩
  · rcases mem_tick member with before | same
    · exact fates.ticked tick before room line inside
    · exact fates.held room line (same ▸ inside)
  · obtain ⟨below, out, never⟩ := fates.lost number gone
    refine ⟨below, fun _ _ member => (List.not_mem_nil member).elim,
      fun tick member room line inside => ?_⟩
    rcases mem_tick member with before | same
    · exact never tick before room line inside
    · exact out room line (same ▸ inside)
  · refine List.pairwise_append.mpr ⟨fates.apart, List.pairwise_singleton _ _,
      fun tick member last final room line inside other later held => ?_⟩
    rw [List.mem_singleton] at final
    subst final
    exact Nat.ne_of_lt (ordered.behind tick member room line inside other later held)

end Fates

end Books

/-! ## Who is shown an input -/

theorem Input.heard_iff {input : Input} {room : Bytes} {fd : Fd} (inside : input.room = some room) :
    input.Heard fd ↔ input.line.length ≤ maxPayload ∧ Sits input.clients room fd ∧
      Roomy input.clients fd input.line.length := by
  constructor
  · rintro ⟨other, same, short, client, found, opened, sits, fits⟩
    obtain rfl : room = other := Option.some.inj (inside.symm.trans same)
    refine ⟨short, ⟨client, found, opened, sits⟩, fun again present => ?_⟩
    obtain rfl : client = again := Option.some.inj (found.symm.trans present)
    exact fits
  · rintro ⟨short, ⟨client, found, opened, sits⟩, fits⟩
    exact ⟨room, inside, short, client, found, opened, sits, fits client found⟩

namespace Books

variable {books : Books} {trace : List (Obs Bytes)}

/-- The inputs that a connection is shown, frame after frame. -/
def handed (books : Books) (fd : Fd) : List Nat := (books.frames fd).flatten.map Line.number

/-- An input that is there at a tick is shown to whom that tick reaches in its room. -/
theorem Fates.handed_iff (fates : books.Fates trace) {tick : Round} (ticked : tick ∈ books.ticks)
    {room : Bytes} {line : Line} (held : line ∈ tick.held room) (fd : Fd) :
    line.number ∈ books.handed fd ↔ tick.Reaches room fd := by
  constructor
  · intro member
    obtain ⟨other, inside, same⟩ := List.mem_map.mp member
    obtain ⟨again, before, place, reaches, within⟩ := mem_frames.mp inside
    have one : tick = again := by
      by_contra different
      exact fates.apart.forall ticked before different room line held place other within same.symm
    subst one
    have whole : room = place :=
      (fates.ticked tick ticked room line held).one (fates.ticked tick ticked place other within)
        same.symm
    rwa [whole]
  · intro reaches
    exact List.mem_map_of_mem (mem_frames.mpr ⟨tick, ticked, room, reaches, held⟩)

theorem Fates.not_handed (fates : books.Fates trace) {number : Nat}
    (gone : number ∈ books.dropped ∨ number ∈ books.discarded) (fd : Fd) :
    number ∉ books.handed fd := by
  intro member
  obtain ⟨line, inside, same⟩ := List.mem_map.mp member
  obtain ⟨tick, ticked, room, _, within⟩ := mem_frames.mp inside
  exact (fates.lost number gone).2.2 tick ticked room line within same

end Books

/-! ## Runs -/

namespace World

variable {k : Kernel} {cfg : Config} {w : World} {books : Books}

/-- The trace grows up to the tick, and then behind it. -/
theorem iterate_grows (batch : Batch) (sound : Sound w) :
    w.trace <+: (batch.events.foldl (handleEvent k cfg) (w.emit .wake)).trace ∧
      (batch.events.foldl (handleEvent k cfg) (w.emit .wake)).trace <+:
        (w.iterate k cfg batch).trace := by
  obtain ⟨drains, drained⟩ := @drain_drains k cfg (w.emit .wake) batch.events (sound.emit _)
  refine ⟨(grows_events _ _).drains drains (List.prefix_append ..), ?_⟩
  unfold iterate
  simp only
  generalize batch.events.foldl (handleEvent k cfg) (w.emit .wake) = next at drained
  split
  · obtain ⟨ticks, rooms⟩ := @flushTickRooms_ticks k cfg next
    have sends : Sends True (fun _ => True) next.state _ := ticks.sends trivial
    obtain ⟨tails, _⟩ := @tail_tails k cfg _ (drained.of_sends rooms sends)
    exact (grows_preserves _ _).tail tails sends.grows
  · obtain ⟨tails, _⟩ := @tail_tails k cfg _ drained
    exact (grows_preserves _ _).tail tails (List.prefix_refl _)

theorem iterate_fates (batch : Batch) (sound : Sound w) (ordered : books.Ordered)
    (fates : books.Fates w.trace) :
    (keepBooks k cfg w books batch).Fates (w.iterate k cfg batch).trace := by
  obtain ⟨⟨early, drained⟩, ⟨late, whole⟩⟩ := @iterate_grows k cfg w batch sound
  have heard := fates.read ordered early
  have stillOrdered := ordered.read early
  unfold keepBooks
  simp only
  rw [← whole, List.drop_left, ← drained, List.drop_left]
  split
  · exact (heard.tick stillOrdered _).read (stillOrdered.tick _) late
  · exact heard.read stillOrdered late

/-- Without coalescing a chat is sent to who hears it, and to nobody else. -/
theorem sent_at_once {fd : Fd} {c : Conn} {payload : Bytes} (plain : cfg.coalesce = false)
    (agree : RoomsAgree w) (found : w.conns fd = some c) (opened : c.closing = false)
    (inside : c.room ≠ []) :
    Input.SentBy ⟨w.clients, fd, payload⟩
      ((w.handlePacket k cfg fd cChat payload).trace.drop w.trace.length) := by
  obtain ⟨packet, _⟩ := @handlePacket_packet k cfg w fd c cChat payload agree found
  have present : w.clients fd = some c.client := by simp [clients, found]
  obtain ⟨body, grown, _, chat, _⟩ := packet.does plain ⟨c.client, present, opened⟩
  have grown : (w.handlePacket k cfg fd cChat payload).trace = w.trace ++ body := grown
  have delivered := chat rfl
  have room : c.client.room = some c.room := by simp [Conn.client, inside]
  have line : Input.line ⟨w.clients, fd, payload⟩ = chatLine c.client.nick payload := by
    simp [Input.line, present]
  have own : Input.room ⟨w.clients, fd, payload⟩ = some c.room := by
    simp [Input.room, roomIn, present, room]
  have heard : ∀ other, Input.Heard ⟨w.clients, fd, payload⟩ other ↔
      Hears w.clients c.room (chatLine c.client.nick payload) other := by
    intro other
    unfold Input.Heard
    rw [line]
    constructor
    · rintro ⟨place, same, hears⟩
      obtain rfl : c.room = place := Option.some.inj (own.symm.trans same)
      exact hears
    · exact fun hears => ⟨c.room, own, hears⟩
  intro other
  rw [grown, List.drop_left, line, heard other]
  exact ⟨delivered.heard c.client c.room present room other,
    delivered.others c.client c.room present room other⟩

end World

/-- The input is in its room's buffer when the tick finds it. -/
structure Stands (trace : List (Obs Bytes)) (books : Books) (number : Nat) (input : Input)
    (room : Bytes) (tick : Round) : Prop where
  found : (inputs trace)[number]? = some input
  inside : input.room = some room
  ticked : tick ∈ books.ticks
  held : ⟨number, input.line⟩ ∈ tick.held room

/-- Inputs against frames. Besides notices a connection is queued the frames of the ticks; in
them an input has at most one entry, and the entries are in the order of the inputs. An input
that is neither dropped at the cap nor discarded with its emptied room is held, or shown at a
tick to just those whom the tick reaches. If the line is short, and a connection sits in the
room and has space both times, that is whether it hears the line without coalescing. -/
structure CoalescedChats (w : World) (books : Books) : Prop where
  frames : ∀ fd, framesTo fd w.trace = (books.frames fd).map fun lines => (sTick, frameOf lines)
  genuine : ∀ fd, ∀ line ∈ (books.frames fd).flatten, ∃ input,
    (inputs w.trace)[line.number]? = some input ∧ line.text = input.line
  ordered : ∀ fd, (books.handed fd).Pairwise (· < ·)
  dropped : w.tickDropped = books.dropped.length ∧ books.dropped.Nodup
  placed : ∀ number input, (inputs w.trace)[number]? = some input →
    number ∈ books.dropped ∨ number ∈ books.discarded ∨
      (∃ room, input.room = some room ∧ ⟨number, input.line⟩ ∈ books.held room) ∨
      ∃ room tick, Stands w.trace books number input room tick
  lost : ∀ number, number ∈ books.dropped ∨ number ∈ books.discarded → ∀ fd,
    number ∉ books.handed fd
  shown : ∀ number input room tick, Stands w.trace books number input room tick → ∀ fd,
    number ∈ books.handed fd ↔ tick.Reaches room fd
  alike : ∀ number input room tick, Stands w.trace books number input room tick → ∀ fd,
    input.line.length ≤ maxPayload →
    (Sits input.clients room fd ↔ Sits tick.clients room fd) →
    Roomy input.clients fd input.line.length →
    Roomy tick.clients fd (frameOf (tick.held room)).length →
      (number ∈ books.handed fd ↔ input.Heard fd)

theorem Books.Fates.placed {books : Books} {trace : List (Obs Bytes)} (fates : books.Fates trace)
    (ordered : books.Ordered) {number : Nat} {input : Input}
    (found : (inputs trace)[number]? = some input) :
    number ∈ books.dropped ∨ number ∈ books.discarded ∨
      (∃ room, input.room = some room ∧ ⟨number, input.line⟩ ∈ books.held room) ∨
      ∃ room tick, Stands trace books number input room tick := by
  obtain ⟨below, _⟩ := List.getElem?_eq_some_iff.mp found
  have known : ∀ {room : Bytes} {line : Line}, line.Of trace room → line.number = number →
      input.room = some room ∧ line = ⟨number, input.line⟩ := by
    rintro room ⟨own, text⟩ ⟨other, present, inside, rfl⟩ rfl
    obtain rfl : input = other := Option.some.inj (found.symm.trans present)
    exact ⟨inside, rfl⟩
  rcases ordered.placed number (fates.count ▸ below) with
    dropped | discarded | ⟨room, held⟩ | ⟨tick, ticked, room, held⟩
  · exact .inl dropped
  · exact .inr (.inl discarded)
  · obtain ⟨line, member, same⟩ := List.mem_map.mp held
    obtain ⟨inside, rfl⟩ := known (fates.held room line member) same
    exact .inr (.inr (.inl ⟨room, inside, member⟩))
  · obtain ⟨line, member, same⟩ := List.mem_map.mp held
    obtain ⟨inside, rfl⟩ := known (fates.ticked tick ticked room line member) same
    exact .inr (.inr (.inr ⟨room, tick, found, inside, ticked, member⟩))

theorem CoalescedChats.of_fates {w : World} {books : Books} (delivery : CoalescedDelivery w books)
    (fates : books.Fates w.trace) : CoalescedChats w books where
  frames := delivery.frames
  genuine fd line member := by
    obtain ⟨tick, ticked, room, _, held⟩ := Books.mem_frames.mp member
    obtain ⟨input, found, _, text⟩ := fates.ticked tick ticked room line held
    exact ⟨input, found, text⟩
  ordered := delivery.ordered.handed
  dropped := ⟨delivery.agrees.dropped, fates.once⟩
  placed _ _ found := fates.placed delivery.ordered found
  lost _ gone := fates.not_handed gone
  shown _ _ _ _ stands := fates.handed_iff stands.ticked stands.held
  alike _ _ _ _ stands fd short same early late := by
    rw [fates.handed_iff stands.ticked stands.held fd, Input.heard_iff stands.inside]
    exact ⟨fun reaches => ⟨short, same.mpr reaches.1, early⟩,
      fun heard => ⟨same.mp heard.2.1, late⟩⟩

namespace World

/-- Who is shown a chat with coalescing, in every run and in both flush modes, and who is sent
it without. -/
theorem coalesced_recipients (k : Kernel) (cfg : Config) (coalesces : cfg.coalesce = true)
    (batches : List Batch) :
    CoalescedChats (run k cfg batches) (books k cfg batches) ∧
      ∀ (w : World) (fd : Fd) (c : Conn) (payload : Bytes), RoomsAgree w → w.conns fd = some c →
        c.closing = false → c.room ≠ [] →
          Input.SentBy ⟨w.clients, fd, payload⟩
            ((w.handlePacket k { cfg with coalesce := false } fd cChat payload).trace.drop
              w.trace.length) := by
  refine ⟨?_, fun w fd c payload agree found opened inside =>
    sent_at_once rfl agree found opened inside⟩
  have pass : ∀ (w : World) (books : Books) (batch : Batch), Sound w → Tidy cfg w →
      CoalescedDelivery w books ∧ books.Fates w.trace →
      CoalescedDelivery (w.iterate k cfg batch) (keepBooks k cfg w books batch) ∧
        (keepBooks k cfg w books batch).Fates (w.iterate k cfg batch).trace :=
    fun w books batch sound tidy before => ⟨before.1.iterate coalesces sound tidy batch,
      iterate_fates batch sound before.1.ordered before.2⟩
  obtain ⟨delivery, fates⟩ := account_keeps k cfg ⟨.init, .init⟩ pass batches
  exact .of_fates delivery fates

/-- The chat of one of two members is heard, recorded and shown to both. -/
theorem coalesced_recipients_talk :
    (CoalescedChats (run eager ⟨true, true, 2⟩ [talkBatch, ⟨[], true⟩])
        (books eager ⟨true, true, 2⟩ [talkBatch, ⟨[], true⟩]) ∧
      ∀ (w : World) (fd : Fd) (c : Conn) (payload : Bytes), RoomsAgree w → w.conns fd = some c →
        c.closing = false → c.room ≠ [] →
          (Input.mk w.clients fd payload).SentBy
            ((w.handlePacket eager ⟨true, false, 2⟩ fd cChat payload).trace.drop w.trace.length)) ∧
      ∀ fd ∈ [5, 6],
        (inputs (run eager ⟨true, true, 2⟩ [talkBatch, ⟨[], true⟩]).trace).map
          (fun input => (input.line, decide (input.Heard fd))) = [(ascii "a: hi", true)] ∧
        framesTo fd (run eager ⟨true, true, 2⟩ [talkBatch, ⟨[], true⟩]).trace =
          [(sTick, [5, 0] ++ ascii "a: hi")] :=
  ⟨coalesced_recipients eager ⟨true, true, 2⟩ rfl [talkBatch, ⟨[], true⟩], by decide⟩

/-- Two connections arrive and send what they will in turn, before a tick. -/
def beforeTick (scripts : List (Fd × Bytes)) : Batch where
  events := .accept [.arrived 5 true, .arrived 6 true] ::
    scripts.map fun script => .ready ⟨script.1, false, false, true, [.data script.2]⟩
  tickDue := true

/-- What a tick has left out, which inputs a connection would have been sent at once, whether it
is closing, and what it is shown. -/
structure Outcome where
  dropped : Nat
  heard : List Bool
  closing : Option Bool
  shown : List (UInt16 × Bytes)
  deriving DecidableEq

def outcome (scripts : List (Fd × Bytes)) (fd : Fd) : Outcome :=
  let w := run eager ⟨true, true, 2⟩ [beforeTick scripts]
  ⟨w.tickDropped, (inputs w.trace).map fun input => decide (input.Heard fd),
    (w.conns fd).map (·.closing), framesTo fd w.trace⟩

def entering (nick room : Bytes) : Bytes :=
  Framing.encode cSetNick nick ++ Framing.encode cJoin room

/-- A tick shows a chat to who came behind it, and a line that is too long to be sent at once. It
shows none to who has moved on, nor to anybody when the room was left empty. -/
theorem recipients_differ :
    outcome [(5, entering (ascii "a") (ascii "r") ++ Framing.encode cChat (ascii "hi")),
        (6, entering (ascii "b") (ascii "r"))] 6 =
      ⟨0, [false], some false, [(sTick, [5, 0] ++ ascii "a: hi")]⟩ ∧
    outcome [(5, entering (ascii "a") (ascii "r") ++
        Framing.encode cChat (List.replicate 1022 0))] 5 =
      ⟨0, [false], some false, [(sTick, [1, 4] ++ ascii "a: " ++ List.replicate 1022 0)]⟩ ∧
    outcome [(6, entering (ascii "b") (ascii "r")),
        (5, entering (ascii "a") (ascii "r") ++ Framing.encode cChat (ascii "hi")),
        (6, Framing.encode cJoin (ascii "s"))] 6 = ⟨0, [true], some false, []⟩ ∧
    outcome [(5, entering (ascii "a") (ascii "r") ++ Framing.encode cChat (ascii "hi") ++
        Framing.encode cJoin (ascii "s"))] 5 = ⟨0, [true], some false, []⟩ :=
  ⟨by decide, by decide +kernel, by decide, by decide⟩

end World

end NetEngine.Epoll.Server
