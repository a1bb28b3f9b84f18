import NetEngine.Library.LittleEndian

/-! Length-prefixed frames in a byte stream: a header of two little-endian
words, the payload length and the type, then the payload. Parsing stops at the
first header whose length is over the limit, or at the first incomplete frame.
`Consumed` is what an incremental parser keeps true between two reads. -/

set_option autoImplicit false

namespace NetEngine.Framing

abbrev Bytes := List UInt8

def headerSize : Nat := 4

def encode (type : UInt16) (payload : Bytes) : Bytes :=
  LittleEndian.encode (UInt16.ofNat payload.length) ++ LittleEndian.encode type ++ payload

inductive Found where
  | more
  | oversize
  | frame (type : UInt16) (payload rest : Bytes)

/-- The frame at the front of the buffered bytes. -/
def next (limit : Nat) (input : Bytes) : Found :=
  if input.length < headerSize then .more
  else
    let len := (LittleEndian.read input).toNat
    if limit < len then .oversize
    else if input.length < headerSize + len then .more
    else
      .frame (LittleEndian.read (input.drop 2)) ((input.drop headerSize).take len)
        (input.drop (headerSize + len))

structure Parsed where
  frames : List (UInt16 × Bytes)
  rest : Bytes
  oversize : Bool

def Parsed.after (frames : List (UInt16 × Bytes)) (parsed : Parsed) : Parsed :=
  { parsed with frames := frames ++ parsed.frames }

@[simp] theorem encode_length (type : UInt16) (payload : Bytes) :
    (encode type payload).length = headerSize + payload.length := by
  simp only [encode, List.length_append, LittleEndian.encode_length, headerSize]

theorem next_frame_shorter {limit : Nat} {input rest payload : Bytes} {type : UInt16}
    (found : next limit input = .frame type payload rest) :
    rest.length + headerSize + payload.length = input.length := by
  unfold next at found
  split at found
  · cases found
  · simp only at found
    split at found
    · cases found
    · split at found
      · cases found
      · cases found
        simp only [List.length_take, List.length_drop]
        omega

def parse (limit : Nat) (input : Bytes) : Parsed :=
  match _found : next limit input with
  | .more => ⟨[], input, false⟩
  | .oversize => ⟨[], input, true⟩
  | .frame type payload rest => (parse limit rest).after [(type, payload)]
termination_by input.length
decreasing_by
  have shorter := next_frame_shorter _found
  simp only [headerSize] at shorter
  omega

variable {limit : Nat} {input rest payload : Bytes} {type : UInt16}

theorem parse_more (found : next limit input = .more) : parse limit input = ⟨[], input, false⟩ := by
  rw [parse]
  split <;> simp_all

theorem parse_oversize (found : next limit input = .oversize) :
    parse limit input = ⟨[], input, true⟩ := by
  rw [parse]
  split <;> simp_all

theorem parse_frame (found : next limit input = .frame type payload rest) :
    parse limit input = (parse limit rest).after [(type, payload)] := by
  rw [parse]
  split <;> simp_all

theorem next_more_short (found : next limit input = .more) : input.length < headerSize + limit := by
  unfold next at found
  split at found
  · omega
  · simp only at found
    split at found
    · cases found
    · split at found
      · omega
      · cases found

private theorem read_append {front : Bytes} (long : 2 ≤ front.length) (more : Bytes) :
    LittleEndian.read (front ++ more) = LittleEndian.read front := by
  match front, long with
  | _ :: _ :: _, _ => rfl

theorem next_append_oversize (found : next limit input = .oversize) (more : Bytes) :
    next limit (input ++ more) = .oversize := by
  unfold next at found ⊢
  split at found
  · cases found
  next long =>
    simp only [headerSize] at long
    rw [if_neg (by simp only [List.length_append, headerSize]; omega), read_append (by omega)]
    simp only at found ⊢
    split at found
    next beyond => rw [if_pos beyond]
    · split at found <;> cases found

theorem next_append_frame (found : next limit input = .frame type payload rest) (more : Bytes) :
    next limit (input ++ more) = .frame type payload (rest ++ more) := by
  unfold next at found ⊢
  split at found
  · cases found
  next long =>
    simp only [headerSize] at long
    rw [if_neg (by simp only [List.length_append, headerSize]; omega), read_append (by omega)]
    simp only at found ⊢
    split at found
    · cases found
    next within =>
      rw [if_neg within]
      split at found
      · cases found
      next complete =>
        simp only [headerSize] at complete
        cases found
        rw [if_neg (by simp only [List.length_append, headerSize]; omega),
          List.drop_append_of_le_length (by omega), read_append (by rw [List.length_drop]; omega),
          List.drop_append_of_le_length (by simp only [headerSize]; omega),
          List.take_append_of_le_length (by simp only [List.length_drop, headerSize]; omega),
          List.drop_append_of_le_length (by simp only [headerSize]; omega)]

/-- An encoded frame within the limit is the frame that is found. -/
theorem next_encode (small : payload.length ≤ limit) (word : limit < 2 ^ 16) :
    next limit (encode type payload ++ rest) = .frame type payload rest := by
  have length : (LittleEndian.read (encode type payload ++ rest)).toNat = payload.length := by
    rw [encode, List.append_assoc, List.append_assoc, LittleEndian.read_encode,
      UInt16.toNat_ofNat', Nat.mod_eq_of_lt (by omega)]
  have header : (encode type payload ++ rest).drop 2 =
      LittleEndian.encode type ++ (payload ++ rest) := by
    simp [encode, List.append_assoc, List.drop_left' (LittleEndian.encode_length _)]
  have body : (encode type payload ++ rest).drop headerSize = payload ++ rest := by
    rw [show headerSize = 2 + 2 from rfl, ← List.drop_drop, header,
      List.drop_left' (LittleEndian.encode_length _)]
  unfold next
  rw [if_neg (by simp; omega)]
  simp only [length]
  rw [if_neg (by omega), if_neg (by simp), header, LittleEndian.read_encode, body, ← List.drop_drop,
    body, List.take_left, List.drop_left]

/-- The parse of a longer stream goes on from what the parse of its front left. -/
theorem parse_append (limit : Nat) (input more : Bytes) :
    parse limit (input ++ more) =
      (parse limit ((parse limit input).rest ++ more)).after (parse limit input).frames := by
  induction input using parse.induct limit with
  | case1 input found => rw [parse_more found]; rfl
  | case2 input found => rw [parse_oversize found]; rfl
  | case3 input type payload rest found ih =>
      rw [parse_frame found, parse_frame (next_append_frame found more), ih]
      simp only [Parsed.after, List.append_assoc]

theorem parse_oversize_append {more : Bytes} (within : (parse limit (input ++ more)).oversize = false) :
    (parse limit input).oversize = false := by
  induction input using parse.induct limit with
  | case1 input found => rw [parse_more found]
  | case2 input found =>
      rw [parse_oversize (next_append_oversize found more)] at within
      cases within
  | case3 input type payload rest found ih =>
      rw [parse_frame (next_append_frame found more)] at within
      rw [parse_frame found]
      exact ih within

theorem parse_rest_length : (parse limit input).rest.length ≤ input.length := by
  induction input using parse.induct limit with
  | case1 input found => exact Nat.le_of_eq (by rw [parse_more found])
  | case2 input found => exact Nat.le_of_eq (by rw [parse_oversize found])
  | case3 input type payload rest found ih =>
      have shorter := next_frame_shorter found
      rw [parse_frame found]
      exact Nat.le_trans ih (by omega)

/-- What a parse leaves is less than one frame. -/
theorem next_rest (within : (parse limit input).oversize = false) :
    next limit (parse limit input).rest = .more := by
  induction input using parse.induct limit with
  | case1 input found => rw [parse_more found]; exact found
  | case2 input found => rw [parse_oversize found] at within; cases within
  | case3 input type payload rest found ih =>
      rw [parse_frame found] at within ⊢
      exact ih within

/-! ## Incremental parsing -/

/-- After `received`, a parser that has handed out `handed` and holds `input`
goes on exactly as a parse of the whole stream would. -/
def Consumed (limit : Nat) (received : Bytes) (handed : List (UInt16 × Bytes)) (input : Bytes) :
    Prop :=
  ∀ more, parse limit (received ++ more) = (parse limit (input ++ more)).after handed

namespace Consumed

variable {received : Bytes} {handed : List (UInt16 × Bytes)}

theorem start : Consumed limit [] [] [] := fun _ => rfl

theorem receive (consumed : Consumed limit received handed input) (chunk : Bytes) :
    Consumed limit (received ++ chunk) handed (input ++ chunk) := by
  intro more
  rw [List.append_assoc, List.append_assoc]
  exact consumed (chunk ++ more)

theorem hand (consumed : Consumed limit received handed input)
    (found : next limit input = .frame type payload rest) :
    Consumed limit received (handed ++ [(type, payload)]) rest := by
  intro more
  rw [consumed more, parse_frame (next_append_frame found more)]
  simp only [Parsed.after, List.append_assoc]

theorem parse_eq (consumed : Consumed limit received handed input) :
    parse limit received = (parse limit input).after handed := by
  simpa using consumed []

theorem parse_of_more (consumed : Consumed limit received handed input)
    (found : next limit input = .more) : parse limit received = ⟨handed, input, false⟩ := by
  rw [consumed.parse_eq, parse_more found]
  simp only [Parsed.after, List.append_nil]

theorem parse_of_oversize (consumed : Consumed limit received handed input)
    (found : next limit input = .oversize) : parse limit received = ⟨handed, input, true⟩ := by
  rw [consumed.parse_eq, parse_oversize found]
  simp only [Parsed.after, List.append_nil]

/-- What was handed out is where the parse of the whole stream starts. -/
theorem handed_prefix (consumed : Consumed limit received handed input) :
    handed <+: (parse limit received).frames := by
  rw [consumed.parse_eq]
  exact List.prefix_append _ _

end Consumed

end NetEngine.Framing
