import NetEngine.Bench.Chatcli
import NetEngine.Epoll.Chat
import NetEngine.Library.FrameStream

/-! `read_frames` under both conventions: whatever the pieces, it returns the frames that have
arrived whole. `mode_interactive`: whatever is typed, what is sent is text that the server takes
and passes on. -/

set_option autoImplicit false

namespace NetEngine.Chatcli

open Epoll (chatLine nickMax)

abbrev Frame := UInt16 × Bytes

namespace Proto

/-- The bytes of a frame that can be packed. -/
def bytes (p : Proto) (frame : Frame) : Bytes := (p.frame frame.1 frame.2).getD []

def Packs (p : Proto) (frame : Frame) : Prop := (p.frame frame.1 frame.2).isSome

def size (frame : Frame) : Nat := headerSize + frame.2.length

def stream (p : Proto) (frames : List Frame) : Bytes := frames.flatMap p.bytes

@[simp] theorem stream_cons (p : Proto) (frame : Frame) (frames : List Frame) :
    p.stream (frame :: frames) = p.bytes frame ++ p.stream frames := rfl

@[simp] theorem stream_append (p : Proto) (frames more : List Frame) :
    p.stream (frames ++ more) = p.stream frames ++ p.stream more := List.flatMap_append

/-- A frame as `read_frames` returns it. -/
def seen (frame : Frame) : UInt16 × Text := (frame.1, Utf8.replace frame.2)

variable {p : Proto} {frame : Frame}

theorem bytes_eq (packs : p.Packs frame) :
    ∃ n, n < 2 ^ 16 ∧ n = (if p.lenIncludesHeader then frame.2.length + headerSize else frame.2.length) ∧
      p.bytes frame =
        LittleEndian.encode (UInt16.ofNat n) ++ LittleEndian.encode frame.1 ++ frame.2 := by
  by_cases small :
      (if p.lenIncludesHeader then frame.2.length + headerSize else frame.2.length) < 2 ^ 16
  · exact ⟨_, small, rfl, by simp only [bytes, Proto.frame, small, if_true, Option.getD_some]⟩
  · simp only [Packs, Proto.frame, small, if_false, Option.isSome_none, Bool.false_eq_true] at packs

theorem bytes_length (packs : p.Packs frame) : (p.bytes frame).length = size frame := by
  obtain ⟨n, _, _, form⟩ := bytes_eq packs
  rw [form, size, List.length_append, List.length_append, LittleEndian.encode_length,
    LittleEndian.encode_length]
  rfl

/-- The length field of a frame is read as its payload's length. -/
theorem payloadLen_bytes (packs : p.Packs frame) (rest : Bytes) :
    p.payloadLen (LittleEndian.read (p.bytes frame ++ rest)) = some frame.2.length := by
  obtain ⟨n, small, same, form⟩ := bytes_eq packs
  rw [form, List.append_assoc, List.append_assoc, LittleEndian.read_encode, payloadLen,
    UInt16.toNat_ofNat', Nat.mod_eq_of_lt small, same]
  cases p.lenIncludesHeader with
  | false => simp
  | true => simp [headerSize]

end Proto

open Proto

variable {p : Proto}

theorem scan_frame {frame : Frame} (packs : p.Packs frame) (rest : Bytes) :
    scan p (p.bytes frame ++ rest) =
      ((scan p rest).1, seen frame :: (scan p rest).2.1, (scan p rest).2.2) := by
  have length := bytes_length packs
  have announced := payloadLen_bytes packs rest
  obtain ⟨n, _, _, form⟩ := bytes_eq packs
  have long : ¬ (p.bytes frame ++ rest).length < headerSize := by
    rw [List.length_append, length, size]
    omega
  have complete : ¬ (p.bytes frame ++ rest).length < headerSize + frame.2.length := by
    rw [List.length_append, length, size]
    omega
  have behind : (p.bytes frame ++ rest).drop (headerSize + frame.2.length) = rest := by
    rw [← size, ← length, List.drop_left]
  have type : (p.bytes frame ++ rest).drop 2 = LittleEndian.encode frame.1 ++ (frame.2 ++ rest) := by
    simp [form, List.append_assoc, List.drop_left' (LittleEndian.encode_length _)]
  have body : (p.bytes frame ++ rest).drop headerSize = frame.2 ++ rest := by
    rw [show headerSize = 2 + 2 from rfl, ← List.drop_drop, type,
      List.drop_left' (LittleEndian.encode_length _)]
  rw [scan, dif_neg long, announced]
  simp only [if_neg complete, behind, type, LittleEndian.read_encode, body, List.take_left]
  rfl

/-- The start of a frame is kept for later. -/
theorem scan_cut {frame : Frame} (packs : p.Packs frame) {input : Bytes}
    (begins : input <+: p.bytes frame) (cut : input.length < size frame) :
    scan p input = (input, [], false) := by
  rw [scan]
  split
  next => rfl
  next long =>
    simp only [headerSize] at long
    obtain ⟨missing, whole⟩ := begins
    have announced := payloadLen_bytes packs []
    have same : LittleEndian.read (p.bytes frame ++ []) = LittleEndian.read input := by
      rw [List.append_nil, ← whole]
      match input, long with
      | low :: high :: more, _ => rfl
      | [], long => exact absurd (Nat.zero_lt_succ 3) long
      | [_], long => exact absurd (by simp : ([_] : Bytes).length < 4) long
    rw [same] at announced
    rw [announced]
    simp only [if_pos (show input.length < headerSize + frame.2.length from cut)]

/-- The rest of a stream behind its whole frames. -/
theorem scan_stream {frames : List Frame} (packs : ∀ frame ∈ frames, p.Packs frame)
    {input : Bytes} (begins : input <+: p.stream frames) :
    ∃ done later rest, frames = done ++ later ∧ input = p.stream done ++ rest ∧
      scan p input = (rest, done.map seen, false) ∧ rest <+: p.stream later ∧
      ∀ frame ∈ later.head?, rest.length < size frame := by
  induction frames generalizing input with
  | nil =>
      obtain rfl := List.prefix_nil.mp begins
      refine ⟨[], [], [], rfl, rfl, ?_, List.nil_prefix, fun _ none => by cases none⟩
      rw [scan]
      rfl
  | cons frame frames ih =>
      have own := packs frame List.mem_cons_self
      have length := bytes_length own
      rw [stream_cons] at begins
      by_cases cut : input.length < size frame
      · have part : input <+: p.bytes frame :=
          List.prefix_of_prefix_length_le begins (List.prefix_append _ _) (by omega)
        refine ⟨[], frame :: frames, input, rfl, rfl, scan_cut own part cut, ?_, ?_⟩
        · rwa [stream_cons]
        · intro next found
          obtain rfl : frame = next := Option.some.inj found
          exact cut
      · obtain ⟨rest, rfl⟩ :=
          List.prefix_of_prefix_length_le (List.prefix_append _ _) begins (by omega)
        obtain ⟨done, later, behind, rfl, rfl, scanned, begins, short⟩ :=
          ih (fun other member => packs other (List.mem_cons_of_mem _ member))
            ((List.prefix_append_right_inj _).mp begins)
        refine ⟨frame :: done, later, behind, rfl, ?_, ?_, begins, short⟩
        · rw [stream_cons, List.append_assoc]
        · rw [scan_frame own, scanned]
          rfl

theorem stream_length {frames : List Frame} (packs : ∀ frame ∈ frames, p.Packs frame) :
    (p.stream frames).length = (frames.map size).sum := by
  induction frames with
  | nil => rfl
  | cons frame frames ih =>
      rw [stream_cons, List.length_append, bytes_length (packs frame List.mem_cons_self),
        ih fun other member => packs other (List.mem_cons_of_mem _ member)]
      rfl

/-- What a thread has read: the frames that arrived whole, and in `buf` the start of the next. -/
structure Arrived (p : Proto) (frames : List Frame) (received : Bytes)
    (result : Bytes × List (UInt16 × Text)) : Prop where
  out : result.2 = (Framing.whole size frames received.length).map seen
  rest : p.stream (Framing.whole size frames received.length) ++ result.1 = received

theorem readAll_stream {frames : List Frame} (packs : ∀ frame ∈ frames, p.Packs frame)
    {buf : Bytes} {pieces : List Bytes} (inhabited : ∀ piece ∈ pieces, piece ≠ [])
    (begins : buf ++ pieces.flatten <+: p.stream frames)
    (short : ∀ frame ∈ frames.head?, buf.length < size frame) :
    Arrived p frames (buf ++ pieces.flatten) (readAll p buf pieces) := by
  induction pieces generalizing buf frames with
  | nil =>
      have none : Framing.whole size frames buf.length = [] := by
        cases frames with
        | nil => rfl
        | cons frame frames => exact if_neg (Nat.not_le_of_lt (short frame rfl))
      rw [List.flatten_nil, List.append_nil]
      exact ⟨by rw [none]; rfl, by rw [none]; rfl⟩
  | cons piece pieces ih =>
      rw [List.flatten_cons, ← List.append_assoc] at begins ⊢
      obtain ⟨done, later, rest, rfl, arrived, scanned, goes, less⟩ :=
        scan_stream packs ((List.prefix_append _ _).trans begins)
      have own := inhabited piece List.mem_cons_self
      have read : readFrames p buf piece = (rest, .frames (done.map seen)) := by
        rw [readFrames, if_neg own, scanned]
        rfl
      rw [arrived, stream_append, List.append_assoc] at begins
      have next := ih (fun frame member => packs frame (List.mem_append_right done member))
        (fun other member => inhabited other (List.mem_cons_of_mem _ member))
        ((List.prefix_append_right_inj _).mp begins) less
      have early := stream_length fun frame member => packs frame (List.mem_append_left later member)
      have both : Framing.whole size (done ++ later) (p.stream done ++ rest ++ pieces.flatten).length =
          done ++ Framing.whole size later (rest ++ pieces.flatten).length := by
        rw [List.append_assoc, List.length_append, early, Framing.whole_append]
      rw [arrived]
      constructor
      · rw [both, readAll, read]
        simp only [List.map_append, next.out]
      · rw [both, readAll, read, stream_append, List.append_assoc, List.append_assoc]
        simp only [next.rest]

/-- Any frames that can be packed, in any pieces, under either convention. -/
theorem read_frames_any_split (p : Proto) (frames : List Frame) (pieces : List Bytes)
    (packs : ∀ frame ∈ frames, p.Packs frame) (inhabited : ∀ piece ∈ pieces, piece ≠ [])
    (begins : pieces.flatten <+: p.stream frames) :
    Arrived p frames pieces.flatten (readAll p [] pieces) := by
  have start : ([] : Bytes) ++ pieces.flatten <+: p.stream frames := begins
  refine readAll_stream packs inhabited start fun frame _ => ?_
  rw [size]
  exact Nat.lt_of_lt_of_le (by decide) (Nat.le_add_right headerSize _)

theorem read_frames_any_split_three :
    Arrived iouring [(sChat, [104, 105])] ([[6], [0, 101, 0, 104], [105]] : List Bytes).flatten
      (readAll iouring [] [[6], [0, 101, 0, 104], [105]]) :=
  read_frames_any_split iouring [(sChat, [104, 105])] [[6], [0, 101, 0, 104], [105]]
    (by simp [Packs, Proto.frame, iouring, headerSize]) (by decide) ⟨[], by decide⟩

/-! ## What is typed -/

/-- Without a byte that was escaped, a line is a text. -/
theorem strictEncode_some {line : List Utf8.Piece} {bytes : Bytes}
    (encoded : strictEncode line = some bytes) :
    bytes = Utf8.unescape line ∧ ∃ text, Utf8.unescape line = Utf8.encode text := by
  unfold strictEncode at encoded
  split at encoded
  next clean =>
    cases encoded
    refine ⟨rfl, ?_⟩
    induction line with
    | nil => exact ⟨[], rfl⟩
    | cons piece line ih =>
        rw [List.all_cons, Bool.and_eq_true] at clean
        obtain ⟨text, rest⟩ := ih clean.2
        cases piece with
        | escaped byte => cases clean.1
        | char c =>
            refine ⟨c :: text, ?_⟩
            rw [Utf8.encode_cons, ← rest]
            rfl
  next => cases encoded

/-- It never raises: what is well-formed is sent as it was typed, and the rest is repaired. -/
theorem encodeLine_eq (line : List Utf8.Piece) :
    encodeLine line =
      if (Utf8.decode (Utf8.unescape line)).isSome then (Utf8.unescape line, false)
      else (Utf8.encode (Utf8.replace (Utf8.unescape line)), true) := by
  unfold encodeLine
  split
  next bytes encoded =>
    obtain ⟨rfl, text, form⟩ := strictEncode_some encoded
    rw [form, Utf8.decode_encode]
    rfl
  next =>
    simp only
    split
    next decoded => rw [decoded]; rfl
    next failed => rw [failed]; rfl

theorem unescape_ne_nil {line : List Utf8.Piece} (inhabited : line ≠ []) :
    Utf8.unescape line ≠ [] := by
  cases line with
  | nil => exact absurd rfl inhabited
  | cons piece line =>
      intro none
      have first : piece.raw = [] := (List.append_eq_nil_iff.mp none).1
      cases piece with
      | escaped byte => cases first
      | char c =>
          have size := c.utf8Size_pos
          have length : (String.utf8EncodeChar c).length = 0 := congrArg List.length first
          rw [String.length_utf8EncodeChar] at length
          omega

theorem encodeLine_text {line : List Utf8.Piece} (inhabited : line ≠ []) :
    ∃ text, text ≠ [] ∧ (encodeLine line).1 = Utf8.encode text := by
  have bytes := unescape_ne_nil inhabited
  rw [encodeLine_eq]
  split
  next valid =>
    obtain ⟨text, decoded⟩ := Option.isSome_iff_exists.mp valid
    have form := Utf8.decode_eq_some_iff.mp decoded
    refine ⟨text, ?_, form⟩
    rintro rfl
    exact bytes form
  next => exact ⟨_, Utf8.replace_ne_nil bytes, rfl⟩

/-- The lines that are sent, as bytes. -/
def spoken (nick : Text) (lines : List (List Utf8.Piece)) : List Bytes :=
  ((lines.filter (· ≠ [])).map fun line => (encodeLine line).1).filter
    fun body => body.length ≤ chatBudget nick

/-- What the server broadcasts of a message, with the nickname that it keeps. -/
def broadcast (nick : Text) (body : Bytes) : Bytes :=
  chatLine ((Utf8.encode nick).take nickMax) body

theorem broadcast_eq (nick : Text) (body : Bytes) :
    broadcast nick body = (Utf8.encode nick).take nickMax ++ Utf8.encode nickSep ++ body := by
  rw [broadcast, chatLine, show Epoll.ascii ": " = Utf8.encode nickSep by decide]

theorem spoken_small {nick : Text} {lines : List (List Utf8.Piece)} {body : Bytes}
    (member : body ∈ spoken nick lines) :
    (broadcast nick body).length ≤ 1024 ∧ ∃ text, text ≠ [] ∧ body = Utf8.encode text := by
  obtain ⟨said, fits⟩ := List.mem_filter.mp member
  obtain ⟨line, typed, rfl⟩ := List.mem_map.mp said
  have inhabited : line ≠ [] := by simpa using (List.mem_filter.mp typed).2
  refine ⟨?_, encodeLine_text inhabited⟩
  have budget : ((encodeLine line).1.length : Int) ≤ chatBudget nick := by simpa using fits
  simp only [chatBudget, maxPayload] at budget
  simp only [broadcast_eq, List.length_append, List.length_take]
  omega

theorem packs_of_budget (p : Proto) {nick : Text} {body : Bytes}
    (fits : body.length ≤ chatBudget nick) : p.Packs (cChat, body) := by
  have small : (if p.lenIncludesHeader then body.length + headerSize else body.length) < 2 ^ 16 := by
    simp only [chatBudget, maxPayload] at fits
    split
    · simp only [headerSize]
      omega
    · omega
  simp only [Packs, Proto.frame, small, if_true, Option.isSome_some]

theorem say_eq (p : Proto) (nick : Text) (line : List Utf8.Piece) :
    say p nick line =
      if line ≠ [] ∧ (encodeLine line).1.length ≤ chatBudget nick then
        some (p.bytes (cChat, (encodeLine line).1))
      else none := by
  unfold say
  by_cases empty : line = []
  · simp [empty]
  by_cases fits : (encodeLine line).1.length ≤ chatBudget nick
  · rw [if_neg empty, if_pos ⟨empty, fits⟩]
    obtain ⟨bytes, packed⟩ := Option.isSome_iff_exists.mp (packs_of_budget p fits)
    simp only [Int.not_lt.mpr fits, if_false, Proto.bytes, packed, Option.getD_some]
  · rw [if_neg empty, if_neg fun both => fits both.2]
    simp only [Int.not_le.mp fits, if_true]

theorem interactive_eq (p : Proto) (nick : Text) (lines : List (List Utf8.Piece)) :
    interactive p nick lines = (spoken nick lines).map fun body => p.bytes (cChat, body) := by
  induction lines with
  | nil => rfl
  | cons line lines ih =>
      rw [interactive, List.filterMap_cons, say_eq, ← interactive, ih]
      by_cases empty : line = []
      · simp [spoken, empty]
      · by_cases fits : (encodeLine line).1.length ≤ chatBudget nick
        · simp [spoken, empty, fits]
        · simp [spoken, empty, fits]

/-- Whatever is typed: the lines that are not empty and within the budget are sent, each as it
was typed if it was well-formed and repaired otherwise. No frame of them is over the limit of
the server, and no broadcast that the server makes of them is. -/
theorem typed_lines_sent (p : Proto) (nick : Text) (lines : List (List Utf8.Piece)) :
    interactive p nick lines = (spoken nick lines).map (fun body => p.bytes (cChat, body)) ∧
      (∀ body ∈ spoken nick lines, p.Packs (cChat, body) ∧ (broadcast nick body).length ≤ 1024 ∧
        ∃ text, text ≠ [] ∧ body = Utf8.encode text) ∧
      (∀ line, encodeLine line =
        if (Utf8.decode (Utf8.unescape line)).isSome then (Utf8.unescape line, false)
        else (Utf8.encode (Utf8.replace (Utf8.unescape line)), true)) ∧
      Framing.parse 1024 (interactive study nick lines).flatten =
        ⟨(spoken nick lines).map fun body => (cChat, body), [], false⟩ := by
  have packs : ∀ p : Proto, ∀ body ∈ spoken nick lines, p.Packs (cChat, body) := by
    intro p body member
    exact packs_of_budget p (by simpa using (List.mem_filter.mp member).2)
  refine ⟨interactive_eq p nick lines, fun body member => ⟨packs p body member, spoken_small member⟩,
    encodeLine_eq, ?_⟩
  have same : (interactive study nick lines).flatten =
      Framing.encodeAll ((spoken nick lines).map fun body => (cChat, body)) := by
    rw [interactive_eq, Framing.encodeAll, List.flatMap_map, List.flatMap_def]
    congr 1
    apply List.map_congr_left
    intro body member
    obtain ⟨n, _, same, form⟩ := bytes_eq (packs study body member)
    rw [form, same]
    rfl
  rw [same]
  apply Framing.parse_encodeAll _ (by decide)
  intro frame member
  obtain ⟨body, said, rfl⟩ := List.mem_map.mp member
  have small := (spoken_small said).1
  rw [broadcast_eq, List.length_append] at small
  exact Nat.le_trans (Nat.le_add_left body.length _) small

end NetEngine.Chatcli
