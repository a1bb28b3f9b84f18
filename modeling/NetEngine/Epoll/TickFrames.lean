import NetEngine.Bench.ConsumeProperties
import NetEngine.Bench.Setup
import NetEngine.Epoll.TickDelivery

/-! The tick frame from end to end: what `c_chat` records into a room's buffer in one
period, the frame that `flush_tick_rooms` makes of it, and what `consume_frames` of the
load generator reads back. -/

set_option autoImplicit false

namespace NetEngine.Epoll.Server

open Bench (Note Tally)

/-! ## Inputs -/

/-- A message of the load generator: its blob header, and whatever text fills it. -/
structure ChatInput where
  cfg : Bench.Config
  sender : Bench.Conn
  due : Int
  text : Bytes
  int64 : -2 ^ 63 ≤ due ∧ due < 2 ^ 63
  small : Bench.blobHeader + text.length ≤ maxPayload

namespace ChatInput

/-- The name as `c_set_nick` keeps it. -/
def nick (input : ChatInput) : Bytes :=
  (Bench.nickOf input.cfg.node input.sender.index).take nickMax

def payload (input : ChatInput) : Bytes :=
  Bench.Traffic.blob input.cfg input.due input.sender input.text

def line (input : ChatInput) : Bytes := chatLine input.nick input.payload

/-- What `c_chat` appends to the buffer. -/
def entry (input : ChatInput) : Bytes :=
  LittleEndian.encode (UInt16.ofNat input.line.length) ++ input.line

theorem payload_length (input : ChatInput) :
    input.payload.length = Bench.blobHeader + input.text.length := by
  simp [payload, Bench.Traffic.blob, Bench.blobHeader]
  omega

theorem line_length (input : ChatInput) :
    input.line.length = input.nick.length + 2 + input.payload.length := by
  have colon : (ascii ": ").length = 2 := rfl
  rw [line, chatLine, List.length_append, List.length_append, colon]

theorem line_small (input : ChatInput) : input.line.length ≤ nickMax + 2 + maxPayload := by
  have nick : input.nick.length ≤ nickMax := List.length_take_le _ _
  have payload := input.small
  rw [line_length, payload_length]
  omega

theorem entry_read (input : ChatInput) (rest : Bytes) :
    (LittleEndian.read (input.entry ++ rest)).toNat = input.line.length := by
  have word : nickMax + 2 + maxPayload < 2 ^ 16 := by decide
  rw [entry, List.append_assoc, LittleEndian.read_encode, UInt16.toNat_ofNat',
    Nat.mod_eq_of_lt (Nat.lt_of_le_of_lt input.line_small word)]

theorem entry_length (input : ChatInput) : input.entry.length = 2 + input.line.length := by
  rw [entry, List.length_append, LittleEndian.encode_length]

theorem entries_eq_nil {inputs : List ChatInput} : inputs.flatMap entry = [] ↔ inputs = [] := by
  cases inputs with
  | nil => exact iff_of_true rfl rfl
  | cons input inputs =>
      have length := input.entry_length
      refine iff_of_false (fun empty => ?_) (List.cons_ne_nil _ _)
      rw [List.flatMap_cons] at empty
      rw [(List.append_eq_nil_iff.mp empty).1] at length
      exact absurd length (by simp only [List.length_nil]; omega)

/-- No name has a colon in it. -/
theorem nick_plain (input : ChatInput) : 58 ∉ input.nick := by
  intro member
  have inside := List.mem_of_mem_take member
  rw [Bench.nickOf, Bench.tag] at inside
  simp only [List.mem_append] at inside
  have digits (n : Nat) : 58 ∉ Decimal.print n := fun digit =>
    absurd (Decimal.print_digits digit) (by decide)
  rcases inside with ((letter | node) | letter) | index
  · exact absurd letter (by decide)
  · exact digits _ node
  · exact absurd letter (by decide)
  · exact digits _ index

theorem signed64_due (due : Int) (int64 : -2 ^ 63 ≤ due ∧ due < 2 ^ 63) :
    Bench.signed64 (due % 2 ^ 64).toNat = due := by
  unfold Bench.signed64
  split <;> omega

/-- What the receiver makes of one entry. -/
def note (node : UInt32) (input : ChatInput) : Note :=
  if input.cfg.node = node then .stamp input.due else .foreign

/-- The first colon ends the name; behind the blank stands the blob. -/
theorem chat_line (node : UInt32) (input : ChatInput) :
    Note.chat node input.line = input.note node := by
  have found : input.line.findIdx? (· == 58) = some input.nick.length := by
    have none : input.nick.findIdx? (· == 58) = none := by
      rw [List.findIdx?_eq_none_iff]
      intro letter member
      rw [beq_eq_false_iff_ne]
      rintro rfl
      exact input.nick_plain member
    have colon : ascii ": " = [58, 32] := rfl
    rw [line, chatLine, colon, List.append_assoc, List.findIdx?_append, none]
    simp [List.findIdx?_cons]
  have blob : input.line.drop (input.nick.length + 2) = input.payload := by
    have colon : (ascii ": ").length = 2 := rfl
    rw [line, chatLine]
    exact List.drop_left' (by rw [List.length_append, colon])
  have long : ¬ input.payload.length < Bench.blobHeader := by
    rw [payload_length]
    omega
  have stamp : LittleEndian.value (input.payload.take 8) = (input.due % 2 ^ 64).toNat := by
    rw [payload, Bench.Traffic.blob]
    simp only [List.append_assoc]
    rw [List.take_left' (LittleEndian.bytes_length 8 _)]
    exact LittleEndian.value_bytes (by omega)
  have origin : LittleEndian.value ((input.payload.drop 12).take 4) = input.cfg.node.toNat := by
    have node := input.cfg.node.toNat_lt
    rw [payload, Bench.Traffic.blob, List.append_assoc, List.append_assoc,
      List.drop_left' (by simp), List.take_left' (LittleEndian.bytes_length 4 _)]
    exact LittleEndian.value_bytes (by omega)
  unfold Note.chat note
  simp only [found, blob, long, if_false, stamp, origin, signed64_due input.due input.int64,
    ne_eq, UInt32.toNat_inj, ite_not]

/-- The entries of a buffer are read one after another, and nothing is left. -/
theorem tick_entries (node : UInt32) (inputs : List ChatInput) :
    Note.tick node (inputs.flatMap entry) = inputs.flatMap fun input => [.frame, input.note node] := by
  induction inputs with
  | nil => exact Note.tick_done (by decide)
  | cons input inputs ih =>
      have length := input.entry_length
      have bytes : ((input.entry ++ inputs.flatMap entry).drop 2).take input.line.length =
          input.line := by
        rw [entry, List.append_assoc, List.drop_left' (LittleEndian.encode_length _),
          List.take_left]
      rw [List.flatMap_cons, Note.tick_entry (by rw [List.length_append]; omega)
        (input.entry_read _) (by rw [List.length_append]; omega), bytes, chat_line, ← length,
        List.drop_left, ih]
      rfl

end ChatInput

/-! ## Recording -/

namespace World

variable {k : Kernel} {cfg : Config} {w : World} {fd : Fd} {room : Bytes}

/-- A line is recorded whole, or it is counted and the buffer stays as it was. -/
theorem record_eq (w : World) (room line : Bytes) :
    (tickEntry (w.record room line).tickBuf room = tickEntry w.tickBuf room ++
        LittleEndian.encode (UInt16.ofNat line.length) ++ line ∧
      (w.record room line).tickDropped = w.tickDropped ∧
      (tickEntry (w.record room line).tickBuf room).length ≤ tickCap) ∨
    (tickEntry (w.record room line).tickBuf room = tickEntry w.tickBuf room ∧
      (w.record room line).tickDropped = w.tickDropped + 1) := by
  unfold record
  simp only
  split
  · exact .inr ⟨tickEntry_set _ _ _, rfl⟩
  next fits =>
    refine .inl ⟨tickEntry_set _ _ _, rfl, ?_⟩
    rw [tickEntry_set, List.length_append, List.length_append, LittleEndian.encode_length]
    omega

theorem handlePacket_chat (coalesce : cfg.coalesce = true) {c : Conn}
    (present : w.conns fd = some c) (inside : c.room ≠ []) (payload : Bytes) :
    w.handlePacket k cfg fd cChat payload = w.record c.room (chatLine c.nick payload) := by
  have kind : cChat ≠ cSetNick ∧ cChat ≠ cJoin := by decide
  simp only [handlePacket, present, kind.1, kind.2, if_false, if_true, chatPacket, inside, coalesce]

end World

/-- The sets of members agree with the connections, and no room has two buffers. -/
structure Orderly (w : World) : Prop where
  agree : World.RoomsAgree w
  keys : (w.tickBuf.map Prod.fst).Nodup

/-- Every world that a run reaches. -/
theorem Orderly.run (k : Kernel) (cfg : Config) (batches : List Batch) :
    Orderly (World.run k cfg batches) :=
  ⟨(@World.runFrom_runs k cfg World.init batches .init).2.agree, (Tidy.run k cfg batches).buffers.keys⟩

theorem Orderly.record {w : World} (orderly : Orderly w) (room line : Bytes) :
    Orderly (w.record room line) := by
  unfold World.record
  simp only
  split
  · exact ⟨orderly.agree.congr rfl fun _ _ => .rfl, World.setTickEntry_nodup orderly.keys⟩
  · exact ⟨orderly.agree.congr rfl fun _ _ => .rfl, World.setTickEntry_nodup orderly.keys⟩

/-- One period of a room, from an empty buffer on: its chat inputs as the load generator
makes them, with whatever else happens that does not touch the buffer. -/
inductive Period (k : Kernel) (cfg : Config) (room : Bytes) : World → List ChatInput → Prop where
  | start {w : World} : Orderly w → World.tickEntry w.tickBuf room = [] → Period k cfg room w []
  | taken {w : World} {inputs : List ChatInput} {fd : Fd} {c : Conn} (input : ChatInput) :
      Period k cfg room w inputs → w.conns fd = some c → c.room = room → c.nick = input.nick →
      (w.handlePacket k cfg fd cChat input.payload).tickDropped = w.tickDropped →
      Period k cfg room (w.handlePacket k cfg fd cChat input.payload) (inputs ++ [input])
  | dropped {w : World} {inputs : List ChatInput} {fd : Fd} {c : Conn} (input : ChatInput) :
      Period k cfg room w inputs → w.conns fd = some c → c.room = room → c.nick = input.nick →
      (w.handlePacket k cfg fd cChat input.payload).tickDropped ≠ w.tickDropped →
      Period k cfg room (w.handlePacket k cfg fd cChat input.payload) inputs
  | other {w after : World} {inputs : List ChatInput} :
      Period k cfg room w inputs → Orderly after →
      World.tickEntry after.tickBuf room = World.tickEntry w.tickBuf room →
      Period k cfg room after inputs

theorem Period.orderly {k : Kernel} {cfg : Config} {room : Bytes} {w : World}
    {inputs : List ChatInput} (period : Period k cfg room w inputs)
    (coalesce : cfg.coalesce = true) (named : room ≠ []) : Orderly w := by
  induction period with
  | start orderly _ => exact orderly
  | taken input _ present own _ _ ih | dropped input _ present own _ _ ih =>
      rw [World.handlePacket_chat coalesce present (own ▸ named)]
      exact ih.record _ _
  | other _ orderly _ _ => exact orderly

/-- The buffer holds the inputs that were not counted as dropped, within its cap. -/
theorem Period.buffer {k : Kernel} {cfg : Config} {room : Bytes} {w : World}
    {inputs : List ChatInput} (period : Period k cfg room w inputs)
    (coalesce : cfg.coalesce = true) (named : room ≠ []) :
    World.tickEntry w.tickBuf room = inputs.flatMap ChatInput.entry ∧
      (World.tickEntry w.tickBuf room).length ≤ tickCap := by
  induction period with
  | start _ clear =>
      rw [clear]
      exact ⟨rfl, Nat.zero_le _⟩
  | @taken w inputs fd c input _ present own nick kept ih =>
      rw [World.handlePacket_chat coalesce present (own ▸ named), own, nick] at kept ⊢
      rcases w.record_eq room (chatLine input.nick input.payload) with
        ⟨recorded, _, within⟩ | ⟨_, counted⟩
      · refine ⟨?_, within⟩
        rw [recorded, ih.1, List.flatMap_append, List.flatMap_singleton, List.append_assoc]
        rfl
      · omega
  | @dropped w inputs fd c input _ present own nick counted ih =>
      rw [World.handlePacket_chat coalesce present (own ▸ named), own, nick] at counted ⊢
      rcases w.record_eq room (chatLine input.nick input.payload) with
        ⟨_, kept, _⟩ | ⟨unchanged, _⟩
      · exact absurd kept counted
      · rw [unchanged]
        exact ih
  | other _ _ same ih =>
      rw [same]
      exact ih

section

variable {k : Kernel} {cfg : Config} {room : Bytes} {w : World} {inputs : List ChatInput} {fd : Fd}
  {c : Conn} {input : ChatInput}

/-- An input for which there is room is taken. -/
theorem Period.next (period : Period k cfg room w inputs) (coalesce : cfg.coalesce = true)
    (named : room ≠ []) (present : w.conns fd = some c) (own : c.room = room)
    (nick : c.nick = input.nick)
    (fits : ((inputs ++ [input]).flatMap ChatInput.entry).length ≤ tickCap) :
    Period k cfg room (w.handlePacket k cfg fd cChat input.payload) (inputs ++ [input]) ∧
      (w.handlePacket k cfg fd cChat input.payload).tickDropped = w.tickDropped := by
  have kept : (w.handlePacket k cfg fd cChat input.payload).tickDropped = w.tickDropped := by
    have buffer := (period.buffer coalesce named).1
    have entry := input.entry_length
    rw [List.flatMap_append, List.flatMap_singleton, List.length_append] at fits
    rw [World.handlePacket_chat coalesce present (own ▸ named), own, nick]
    have fit : ¬ tickCap < (inputs.flatMap ChatInput.entry).length + 2 +
        (chatLine input.nick input.payload).length := by
      rw [← ChatInput.line]
      omega
    simp only [World.record, buffer, if_neg fit]
  exact ⟨.taken input period present own nick kept, kept⟩

/-- One for which there is none is counted. -/
theorem Period.full (period : Period k cfg room w inputs) (coalesce : cfg.coalesce = true)
    (named : room ≠ []) (present : w.conns fd = some c) (own : c.room = room)
    (nick : c.nick = input.nick)
    (past : tickCap < ((inputs ++ [input]).flatMap ChatInput.entry).length) :
    Period k cfg room (w.handlePacket k cfg fd cChat input.payload) inputs ∧
      (w.handlePacket k cfg fd cChat input.payload).tickDropped = w.tickDropped + 1 := by
  have counted : (w.handlePacket k cfg fd cChat input.payload).tickDropped = w.tickDropped + 1 := by
    have buffer := (period.buffer coalesce named).1
    have entry := input.entry_length
    rw [List.flatMap_append, List.flatMap_singleton, List.length_append] at past
    rw [World.handlePacket_chat coalesce present (own ▸ named), own, nick]
    have full : tickCap < (inputs.flatMap ChatInput.entry).length + 2 +
        (chatLine input.nick input.payload).length := by
      rw [← ChatInput.line]
      omega
    simp only [World.record, buffer, if_pos full]
  exact ⟨.dropped input period present own nick (by omega), counted⟩

end

/-! ## Reading back -/

namespace ChatInput

/-- The counters after the notes of some inputs. -/
theorem tally_after (node : UInt32) (inputs : List ChatInput) (tally : Tally) :
    tally.after (inputs.flatMap fun input => [.frame, input.note node]) =
      { tally with
        framesIn := tally.framesIn + inputs.length
        foreign := tally.foreign + (inputs.filter fun input => input.cfg.node ≠ node).length
        intended := tally.intended ++
          (inputs.filter fun input => input.cfg.node = node).map due } := by
  induction inputs generalizing tally with
  | nil => simp
  | cons input inputs ih =>
      rw [List.flatMap_cons, Tally.after_append, ih]
      by_cases own : input.cfg.node = node
      · simp [note, own, Tally.add]
        omega
      · simp [note, own, Tally.add]
        omega

/-- A slot with a tick frame in it, read by the process of any node. -/
theorem consumeFrames_tick (node : UInt32) (inputs : List ChatInput)
    (small : (inputs.flatMap entry).length ≤ tickCap) {slot : Bench.Slot} (tally : Tally)
    (held : slot.buffered = Framing.encode sTick (inputs.flatMap entry)) :
    (slot.consumeFrames Bench.study node tally).1.buffered = [] ∧
      (slot.consumeFrames Bench.study node tally).2.tally =
        tally.after (inputs.flatMap fun input => [.frame, input.note node]) := by
  have room : tickCap ≤ Bench.Slot.roomiest := by decide
  have word : Bench.Slot.roomiest < 2 ^ 16 := by decide
  have parsed : Framing.parse Bench.Slot.roomiest slot.buffered =
      ⟨[(sTick, inputs.flatMap entry)], [], false⟩ := by
    have found : Framing.next Bench.Slot.roomiest
        (Framing.encode sTick (inputs.flatMap entry) ++ []) =
          .frame sTick (inputs.flatMap entry) [] := Framing.next_encode (small.trans room) word
    rw [List.append_nil] at found
    rw [held, Framing.parse_frame found, Framing.parse_more rfl]
    rfl
  have study : Bench.study.lenIncludesHeader = false := rfl
  have read := Bench.Slot.consumeFrames_parse node tally study
    (show (Framing.parse Bench.Slot.roomiest slot.buffered).oversize = false by rw [parsed])
  rw [parsed] at read
  refine ⟨read.1, read.2.trans ?_⟩
  have notes : Note.ofFrames Bench.study node [(sTick, inputs.flatMap entry)] =
      Note.tick node (inputs.flatMap entry) := by
    rw [Note.ofFrames, List.flatMap_singleton]
    exact if_pos rfl
  rw [notes, tick_entries]

end ChatInput

/-- What a tick frame is from end to end, for the inputs of one period. -/
structure RoundTrip (k : Kernel) (cfg : Config) (room : Bytes) (w : World)
    (inputs : List ChatInput) : Prop where
  /-- The tick queues each member of the room that can take it this one frame, if there was any
  input, and nothing besides. -/
  queued : ∃ more, (w.flushTickRooms k cfg).trace = w.trace ++ more ∧
    ∀ fd ∈ (w.rooms room).getD [], appendsTo fd more =
      if inputs = [] then [] else w.state.handed (World.tickEntry w.tickBuf room) fd
  /-- Its length field is its true size, and it fits the receive slot. -/
  whole : headerSize +
      (LittleEndian.read (Framing.encode sTick (World.tickEntry w.tickBuf room))).toNat =
    (Framing.encode sTick (World.tickEntry w.tickBuf room)).length
  fits : (Framing.encode sTick (World.tickEntry w.tickBuf room)).length ≤ Bench.rxCap
  /-- Every accepted input is one delivery, with its own origin and its own timestamp. -/
  read : ∀ (node : UInt32) (slot : Bench.Slot) (tally : Tally),
    slot.buffered = Framing.encode sTick (World.tickEntry w.tickBuf room) →
    (slot.consumeFrames Bench.study node tally).1.buffered = [] ∧
      (slot.consumeFrames Bench.study node tally).2.tally =
        { tally with
          framesIn := tally.framesIn + inputs.length
          foreign := tally.foreign + (inputs.filter fun input => input.cfg.node ≠ node).length
          intended := tally.intended ++
            (inputs.filter fun input => input.cfg.node = node).map ChatInput.due }
  /-- The next input is left out if and only if it is counted. -/
  counted : ∀ (fd : Fd) (c : Conn) (input : ChatInput),
    w.conns fd = some c → c.room = room → c.nick = input.nick →
    let after := w.handlePacket k cfg fd cChat input.payload
    (World.tickEntry after.tickBuf room = World.tickEntry w.tickBuf room ↔
        after.tickDropped = w.tickDropped + 1) ∧
      (World.tickEntry after.tickBuf room = World.tickEntry w.tickBuf room ++ input.entry ↔
        after.tickDropped = w.tickDropped)

theorem tick_frames_round_trip {k : Kernel} {cfg : Config} {room : Bytes} {w : World}
    {inputs : List ChatInput} (coalesce : cfg.coalesce = true) (named : room ≠ [])
    (period : Period k cfg room w inputs) : RoundTrip k cfg room w inputs := by
  obtain ⟨buffer, small⟩ := period.buffer coalesce named
  have word : tickCap < 2 ^ 16 := by decide
  have slot : headerSize + tickCap ≤ Bench.rxCap := by decide
  exact {
    queued := by
      obtain ⟨agree, keys⟩ := period.orderly coalesce named
      obtain ⟨more, grown, hands⟩ := @World.flushTickRooms_hands k cfg w agree keys
      refine ⟨more, grown, fun fd member => ?_⟩
      have empty : World.tickEntry w.tickBuf room = [] ↔ inputs = [] := by
        rw [buffer]
        exact ChatInput.entries_eq_nil
      rw [hands, World.handed, (World.member_iff agree).mp member]
      simp only [empty]
    whole := by
      rw [Framing.encode_length, Framing.encode, List.append_assoc, LittleEndian.read_encode,
        UInt16.toNat_ofNat', Nat.mod_eq_of_lt (Nat.lt_of_le_of_lt small word)]
      rfl
    fits := by
      rw [Framing.encode_length]
      exact (Nat.add_le_add_left small _).trans slot
    read := by
      intro node slot tally held
      rw [buffer] at held small
      rw [← ChatInput.tally_after]
      exact ChatInput.consumeFrames_tick node inputs small tally held
    counted := by
      intro fd c input present own nick after
      have step : after = w.record room input.line := by
        rw [← own, ChatInput.line, ← nick]
        exact World.handlePacket_chat coalesce present (own ▸ named) input.payload
      have entry : (World.tickEntry w.tickBuf room ++ input.entry).length ≠
          (World.tickEntry w.tickBuf room).length := by
        rw [List.length_append, input.entry_length]
        omega
      rw [step]
      rcases w.record_eq room input.line with ⟨recorded, kept, _⟩ | ⟨unchanged, dropped⟩
      · rw [List.append_assoc, ← ChatInput.entry] at recorded
        rw [recorded, kept]
        refine ⟨iff_of_false (fun same => entry (congrArg List.length same)) ?_,
          iff_of_true rfl rfl⟩
        omega
      · rw [unchanged, dropped]
        refine ⟨iff_of_true rfl rfl, iff_of_false (fun same => ?_) ?_⟩
        · exact entry (congrArg List.length same).symm
        · omega }

/-- A short message from the first client of node seven. -/
def firstInput : ChatInput where
  cfg := ⟨1, 1, 1, 1, 64, false, 7, false, []⟩
  sender := { index := 0 }
  due := 5
  text := [58]
  int64 := by decide
  small := by decide

/-- As long a message as fits, from the second. -/
def loudInput : ChatInput where
  cfg := ⟨1, 1, 1, 1, 1000, false, 7, false, []⟩
  sender := { index := 1 }
  due := 6
  text := List.replicate 1004 58
  int64 := by decide
  small := by rw [List.length_replicate]; decide

/-- Both enter a room. -/
def enterBatch : Batch where
  events := [.accept [.arrived 5 true, .arrived 6 true],
    .ready ⟨5, false, false, true, [.data (Framing.encode cSetNick firstInput.nick ++
      Framing.encode cJoin [114])]⟩,
    .ready ⟨6, false, false, true, [.data (Framing.encode cSetNick loudInput.nick ++
      Framing.encode cJoin [114])]⟩]
  tickDue := false

def coalescing : Config := ⟨true, true, 2⟩

/-- The first says something, and then the second so many times. -/
def loudWorld : Nat → World
  | 0 => (World.run World.eager coalescing [enterBatch]).handlePacket World.eager coalescing 5 cChat
      firstInput.payload
  | n + 1 => (loudWorld n).handlePacket World.eager coalescing 6 cChat loudInput.payload

theorem loudWorld_conns (n : Nat) :
    (loudWorld n).conns = (World.run World.eager coalescing [enterBatch]).conns := by
  have quiet (w : World) (room line : Bytes) : (w.record room line).conns = w.conns := by
    unfold World.record
    simp only
    split <;> rfl
  have first : ∃ c, (World.run World.eager coalescing [enterBatch]).conns 5 = some c ∧
      c.room = [114] := ⟨_, rfl, by decide⟩
  have second : ∃ c, (World.run World.eager coalescing [enterBatch]).conns 6 = some c ∧
      c.room = [114] := ⟨_, rfl, by decide⟩
  induction n with
  | zero =>
      obtain ⟨c, found, inside⟩ := first
      rw [loudWorld, World.handlePacket_chat rfl found (by rw [inside]; decide), quiet]
  | succ n ih =>
      obtain ⟨c, found, inside⟩ := second
      rw [← ih] at found
      rw [loudWorld, World.handlePacket_chat rfl found (by rw [inside]; decide), quiet, ih]

theorem firstInput_entry : firstInput.entry.length = 29 := by
  have nick : firstInput.nick.length = 4 := by decide
  rw [ChatInput.entry_length, ChatInput.line_length, ChatInput.payload_length, nick]
  rfl

theorem loudInput_entry : loudInput.entry.length = 1032 := by
  have nick : loudInput.nick.length = 4 := by decide
  have text : loudInput.text.length = 1004 := List.length_replicate
  rw [ChatInput.entry_length, ChatInput.line_length, ChatInput.payload_length, nick, text]
  rfl

/-- The buffer has room for thirty-one of the long messages. -/
theorem loudWorld_period (n : Nat) (few : n ≤ 31) :
    Period World.eager coalescing [114] (loudWorld n) (firstInput :: List.replicate n loudInput) ∧
      (loudWorld n).tickDropped = 0 := by
  induction n with
  | zero =>
      have clear : (World.run World.eager coalescing [enterBatch]).tickBuf = [] := by decide
      have start : Period World.eager coalescing [114]
          (World.run World.eager coalescing [enterBatch]) [] :=
        .start (.run ..) (by rw [clear]; rfl)
      obtain ⟨c, found, inside, nick⟩ : ∃ c,
          (World.run World.eager coalescing [enterBatch]).conns 5 = some c ∧ c.room = [114] ∧
            c.nick = firstInput.nick := ⟨_, rfl, by decide, by decide⟩
      exact start.next rfl (by decide) found inside nick
        (by simp [firstInput_entry, tickCap])
  | succ n ih =>
      obtain ⟨period, none⟩ := ih (Nat.le_of_succ_le few)
      obtain ⟨c, found, inside, nick⟩ : ∃ c,
          (World.run World.eager coalescing [enterBatch]).conns 6 = some c ∧ c.room = [114] ∧
            c.nick = loudInput.nick := ⟨_, rfl, by decide, by decide⟩
      rw [← loudWorld_conns n] at found
      obtain ⟨later, kept⟩ := period.next rfl (by decide) found inside nick (by
        simp [firstInput_entry, loudInput_entry, tickCap]
        omega)
      rw [List.replicate_succ', ← List.cons_append]
      exact ⟨later, kept.trans none⟩

/-- Thirty-two inputs are taken, and one more is dropped. -/
theorem tick_frames_round_trip_loud :
    RoundTrip World.eager coalescing [114] (loudWorld 32) (firstInput :: List.replicate 31 loudInput) ∧
      (loudWorld 32).tickDropped = 1 := by
  obtain ⟨period, none⟩ := loudWorld_period 31 (Nat.le_refl 31)
  obtain ⟨c, found, inside, nick⟩ : ∃ c,
      (World.run World.eager coalescing [enterBatch]).conns 6 = some c ∧ c.room = [114] ∧
        c.nick = loudInput.nick := ⟨_, rfl, by decide, by decide⟩
  rw [← loudWorld_conns 31] at found
  obtain ⟨later, counted⟩ := period.full rfl (by decide) found inside nick
    (by simp [firstInput_entry, loudInput_entry, tickCap])
  exact ⟨tick_frames_round_trip rfl (by decide) later, counted.trans (congrArg (· + 1) none)⟩

end NetEngine.Epoll.Server
