import Mathlib.Data.List.Basic
import Mathlib.Data.List.GetD

/-! UTF-8 over lists of bytes: decoding that is strict and decoding that replaces, texts whose
malformed bytes are escaped, and cutting an encoded text back to the end of a character. -/

set_option autoImplicit false

namespace NetEngine.Utf8

def encode (text : List Char) : List UInt8 := text.flatMap String.utf8EncodeChar

@[simp] theorem encode_nil : encode [] = [] := rfl

@[simp] theorem encode_cons (c : Char) (text : List Char) :
    encode (c :: text) = String.utf8EncodeChar c ++ encode text := rfl

@[simp] theorem encode_append (text more : List Char) :
    encode (text ++ more) = encode text ++ encode more := List.flatMap_append

/-- The character at the front, and the bytes behind it. -/
def next? (bytes : List UInt8) : Option (Char × List UInt8) :=
  (bytes.toByteArray.utf8DecodeChar? 0).map fun c => (c, bytes.drop c.utf8Size)

variable {bytes rest : List UInt8} {c : Char} {text : List Char}

theorem next?_encode (c : Char) (rest : List UInt8) :
    next? (String.utf8EncodeChar c ++ rest) = some (c, rest) := by
  simp only [next?, List.toByteArray_append, ByteArray.utf8DecodeChar?_utf8EncodeChar_append,
    Option.map_some]
  rw [← String.length_utf8EncodeChar, List.drop_left]

theorem next?_some (found : next? bytes = some (c, rest)) :
    bytes = String.utf8EncodeChar c ++ rest := by
  simp only [next?, Option.map_eq_some_iff, Prod.mk.injEq] at found
  obtain ⟨decoded, first, same, behind⟩ := found
  subst same behind
  obtain ⟨more, front⟩ := ByteArray.exists_of_utf8DecodeChar?_eq_some first
  have whole : bytes = String.utf8EncodeChar decoded ++ more.data.toList := by
    simpa using congrArg (fun array => array.data.toList) front
  rw [← String.length_utf8EncodeChar, whole, List.drop_left]

theorem next?_shorter (found : next? bytes = some (c, rest)) : rest.length < bytes.length := by
  have positive := c.utf8Size_pos
  rw [next?_some found, List.length_append, String.length_utf8EncodeChar]
  omega

theorem next?_nil : next? [] = none := by decide

/-! ## Decoding -/

/-- Strict. -/
@[simp] def decode (bytes : List UInt8) : Option (List Char) :=
  match bytes with
  | [] => some []
  | byte :: behind =>
      match _found : next? (byte :: behind) with
      | none => none
      | some (c, rest) => (decode rest).map (c :: ·)
termination_by bytes.length
decreasing_by exact next?_shorter _found

/-- May `second` follow `lead`? -/
def follows (lead second : UInt8) : Bool :=
  if lead = 0xE0 then 0xA0 ≤ second && second ≤ 0xBF
  else if lead = 0xED then 0x80 ≤ second && second ≤ 0x9F
  else if lead = 0xF0 then 0x90 ≤ second && second ≤ 0xBF
  else if lead = 0xF4 then 0x80 ≤ second && second ≤ 0x8F
  else 0x80 ≤ second && second ≤ 0xBF

def continuation (byte : UInt8) : Bool := byte &&& 0xC0 = 0x80

/-- How many bytes behind the first one a malformed sequence takes with it: those that could
still have become a character. -/
def wasted (lead : UInt8) (behind : List UInt8) : Nat :=
  if 0xE0 ≤ lead && lead ≤ 0xF4 then
    match behind with
    | [] => 0
    | second :: behind =>
        if ¬ follows lead second then 0
        else if lead < 0xF0 then 1
        else match behind with
          | [] => 1
          | third :: _ => if continuation third then 2 else 1
  else 0

def replacement : Char := '�'

/-- With a replacement character for each malformed sequence. -/
@[simp] def replace (bytes : List UInt8) : List Char :=
  match bytes with
  | [] => []
  | byte :: behind =>
      match _found : next? (byte :: behind) with
      | none => replacement :: replace (behind.drop (wasted byte behind))
      | some (c, rest) => c :: replace rest
termination_by bytes.length
decreasing_by
  · rw [List.length_drop, List.length_cons]
    omega
  · exact next?_shorter _found

theorem decode_some (found : next? bytes = some (c, rest)) :
    decode bytes = (decode rest).map (c :: ·) := by
  cases bytes with
  | nil =>
      rw [next?_nil] at found
      cases found
  | cons byte behind =>
      rw [decode]
      split <;> simp_all

theorem replace_some (found : next? bytes = some (c, rest)) :
    replace bytes = c :: replace rest := by
  cases bytes with
  | nil =>
      rw [next?_nil] at found
      cases found
  | cons byte behind =>
      rw [replace]
      split <;> simp_all

theorem replace_none {byte : UInt8} {behind : List UInt8} (malformed : next? (byte :: behind) = none) :
    replace (byte :: behind) = replacement :: replace (behind.drop (wasted byte behind)) := by
  rw [replace]
  split <;> simp_all

theorem decode_encode (text : List Char) : decode (encode text) = some text := by
  induction text with
  | nil => rw [encode_nil, decode]
  | cons c text ih => rw [encode_cons, decode_some (next?_encode c _), ih, Option.map_some]

theorem replace_encode (text : List Char) : replace (encode text) = text := by
  induction text with
  | nil => rw [encode_nil, replace]
  | cons c text ih => rw [encode_cons, replace_some (next?_encode c _), ih]

theorem decode_eq_some_iff : decode bytes = some text ↔ bytes = encode text := by
  constructor
  · intro decoded
    induction bytes using decode.induct generalizing text with
    | case1 =>
        rw [decode, Option.some.injEq] at decoded
        rw [← decoded, encode_nil]
    | case2 byte behind found =>
        rw [decode] at decoded
        split at decoded <;> simp_all
    | case3 byte behind c rest found ih =>
        rw [decode_some found, Option.map_eq_some_iff] at decoded
        obtain ⟨text, decoded, rfl⟩ := decoded
        rw [next?_some found, encode_cons, ← ih decoded]
  · rintro rfl
    exact decode_encode text

/-- What decodes without a replacement is the text. -/
theorem replace_clean (clean : replacement ∉ replace bytes) : bytes = encode (replace bytes) := by
  induction bytes using replace.induct with
  | case1 => rw [replace, encode_nil]
  | case2 byte behind found ih =>
      rw [replace_none found] at clean
      exact absurd List.mem_cons_self clean
  | case3 byte behind c rest found ih =>
      rw [replace_some found] at clean ⊢
      rw [next?_some found, encode_cons, ← ih (List.not_mem_of_not_mem_cons clean)]

theorem replace_ne_nil (inhabited : bytes ≠ []) : replace bytes ≠ [] := by
  cases bytes with
  | nil => exact absurd rfl inhabited
  | cons byte behind =>
      rw [replace]
      split <;> simp

/-! ## Escaping -/

/-- What a text read with `surrogateescape` is made of: characters, and bytes of none. -/
inductive Piece where
  | char (c : Char)
  | escaped (byte : UInt8)
  deriving DecidableEq

def Piece.raw : Piece → List UInt8
  | .char c => String.utf8EncodeChar c
  | .escaped byte => [byte]

def unescape (line : List Piece) : List UInt8 := line.flatMap Piece.raw

/-! ## Cutting -/

theorem byte_all {holds : UInt8 → Prop} (each : ∀ v : BitVec 8, holds ⟨v⟩) (byte : UInt8) :
    holds byte := each byte.toBitVec

theorem continuation_tail (byte : UInt8) : continuation (byte &&& 0x3f ||| 0x80) = true := by
  revert byte
  apply byte_all
  decide

theorem continuation_first {byte : UInt8} (first : byte.IsUTF8FirstByte) :
    continuation byte = false := by
  revert byte
  apply byte_all
  decide

/-- The first byte of a character is the one that is no continuation. -/
theorem continuation_char (c : Char) :
    ∃ first tail, String.utf8EncodeChar c = first :: tail ∧ continuation first = false ∧
      ∀ byte ∈ tail, continuation byte = true := by
  have leads : ∀ first tail, String.utf8EncodeChar c = first :: tail →
      continuation first = false := by
    intro first tail form
    have leads := @UInt8.isUTF8FirstByte_getElem_zero_utf8EncodeChar c
    simp only [form, List.getElem_cons_zero] at leads
    exact continuation_first leads
  match size : c.utf8Size, c.utf8Size_pos, c.utf8Size_le_four with
  | 1, _, _ =>
      have form := String.utf8EncodeChar_eq_singleton size
      exact ⟨_, _, form, leads _ _ form, by simp⟩
  | 2, _, _ =>
      have form := String.utf8EncodeChar_eq_cons_cons size
      exact ⟨_, _, form, leads _ _ form, by simp [continuation_tail]⟩
  | 3, _, _ =>
      have form := String.utf8EncodeChar_eq_cons_cons_cons size
      exact ⟨_, _, form, leads _ _ form, by simp [continuation_tail]⟩
  | 4, _, _ =>
      have form := String.utf8EncodeChar_eq_cons_cons_cons_cons size
      exact ⟨_, _, form, leads _ _ form, by simp [continuation_tail]⟩

/-- The largest position up to `cut` where no character is split. -/
def cutBack (bytes : List UInt8) : Nat → Nat
  | 0 => 0
  | cut + 1 => if continuation (bytes.getD (cut + 1) 0) then cutBack bytes cut else cut + 1

/-- A position behind whole characters. -/
def Boundary (text : List Char) (i : Nat) : Prop :=
  ∃ front, front <+: text ∧ (encode front).length = i

theorem boundary_cons {i : Nat} :
    Boundary (c :: text) i ↔ i = 0 ∨ c.utf8Size ≤ i ∧ Boundary text (i - c.utf8Size) := by
  constructor
  · rintro ⟨front, begins, rfl⟩
    cases front with
    | nil => exact .inl rfl
    | cons first front =>
        obtain ⟨rfl, inner⟩ := List.cons_prefix_cons.mp begins
        simp only [encode_cons, List.length_append, String.length_utf8EncodeChar]
        exact .inr ⟨Nat.le_add_right _ _, front, inner, by omega⟩
  · rintro (rfl | ⟨whole, front, begins, length⟩)
    · exact ⟨[], List.nil_prefix, rfl⟩
    · refine ⟨c :: front, List.cons_prefix_cons.mpr ⟨rfl, begins⟩, ?_⟩
      simp only [encode_cons, List.length_append, String.length_utf8EncodeChar]
      omega

theorem boundary_iff {i : Nat} (inside : i < (encode text).length) :
    Boundary text i ↔ continuation ((encode text).getD i 0) = false := by
  induction text generalizing i with
  | nil => cases inside
  | cons c text ih =>
      obtain ⟨first, tail, form, leads, others⟩ := continuation_char c
      have size : c.utf8Size = tail.length + 1 := by
        rw [← String.length_utf8EncodeChar, form, List.length_cons]
      rw [boundary_cons]
      rcases Nat.eq_zero_or_pos i with rfl | later
      · simp [form, leads]
      rcases Nat.lt_or_ge i c.utf8Size with within | behind
      · have member : (encode (c :: text)).getD i 0 ∈ tail := by
          obtain ⟨j, rfl⟩ : ∃ j, i = j + 1 := ⟨i - 1, by omega⟩
          have short : j < tail.length := by omega
          rw [encode_cons, form, List.cons_append, List.getD_cons_succ,
            List.getD_append _ _ _ _ short, List.getD_eq_getElem _ _ short]
          exact List.getElem_mem short
        rw [others _ member]
        constructor
        · rintro (none | ⟨whole, _⟩) <;> omega
        · intro wrong
          cases wrong
      · have rest : i - c.utf8Size < (encode text).length := by
          rw [encode_cons, List.length_append, String.length_utf8EncodeChar] at inside
          omega
        have byte : (encode (c :: text)).getD i 0 = (encode text).getD (i - c.utf8Size) 0 := by
          rw [encode_cons, List.getD_append_right _ _ _ _ (by simpa using behind),
            String.length_utf8EncodeChar]
        rw [byte, ← ih rest]
        constructor
        · rintro (none | ⟨_, boundary⟩)
          · omega
          · exact boundary
        · exact fun boundary => .inr ⟨behind, boundary⟩

theorem cutBack_le (bytes : List UInt8) (cut : Nat) : cutBack bytes cut ≤ cut := by
  induction cut with
  | zero => exact Nat.le_refl 0
  | succ cut ih =>
      rw [cutBack]
      split
      · exact Nat.le_succ_of_le ih
      · exact Nat.le_refl _

theorem cutBack_boundary {cut : Nat} (inside : cut < (encode text).length) :
    Boundary text (cutBack (encode text) cut) := by
  induction cut with
  | zero => exact ⟨[], List.nil_prefix, rfl⟩
  | succ cut ih =>
      rw [cutBack]
      split
      next => exact ih (by omega)
      next splits => exact (boundary_iff inside).mpr (by simpa using splits)

theorem cutBack_last {cut i : Nat} (inside : cut < (encode text).length)
    (later : cutBack (encode text) cut < i) (within : i ≤ cut) : ¬ Boundary text i := by
  induction cut with
  | zero => omega
  | succ cut ih =>
      rw [cutBack] at later
      split at later
      next splits =>
        rcases Nat.lt_or_eq_of_le within with before | rfl
        · exact ih (by omega) later (by omega)
        · rw [boundary_iff inside, splits]
          decide
      next => omega

/-- Cut back, a text is as long a front of itself as fits. -/
theorem take_cutBack {cut : Nat} (inside : cut < (encode text).length) :
    ∃ front c rest, text = front ++ c :: rest ∧
      (encode text).take (cutBack (encode text) cut) = encode front ∧
      (encode front).length ≤ cut ∧ cut < (encode (front ++ [c])).length := by
  obtain ⟨front, ⟨rest, rfl⟩, length⟩ := cutBack_boundary inside
  have short : (encode front).length ≤ cut := length ▸ cutBack_le _ cut
  cases rest with
  | nil =>
      rw [List.append_nil] at inside
      omega
  | cons c rest =>
      refine ⟨front, c, rest, rfl, ?_, short, ?_⟩
      · rw [← length, encode_append, List.take_left]
      · by_contra fits
        refine cutBack_last inside ?_ (Nat.le_of_not_lt fits) ⟨front ++ [c], ?_, rfl⟩
        · have positive := c.utf8Size_pos
          rw [← length, encode_append, List.length_append, encode_cons, encode_nil, List.append_nil,
            String.length_utf8EncodeChar]
          omega
        · exact ⟨rest, by simp⟩

end NetEngine.Utf8
