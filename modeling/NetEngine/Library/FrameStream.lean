import Mathlib.Algebra.Ring.Nat
import NetEngine.Library.Framing

/-! A stream of encoded frames that is cut anywhere: what is in front of the cut parses to
the frames that are whole, and the rest is the start of the next one. -/

set_option autoImplicit false

namespace NetEngine.Framing

def encodeAll (frames : List (UInt16 × Bytes)) : Bytes := frames.flatMap fun frame => encode frame.1 frame.2

@[simp] theorem encodeAll_nil : encodeAll [] = [] := rfl

@[simp] theorem encodeAll_cons (frame : UInt16 × Bytes) (frames : List (UInt16 × Bytes)) :
    encodeAll (frame :: frames) = encode frame.1 frame.2 ++ encodeAll frames := rfl

@[simp] theorem encodeAll_append (frames more : List (UInt16 × Bytes)) :
    encodeAll (frames ++ more) = encodeAll frames ++ encodeAll more := List.flatMap_append

variable {limit : Nat} {input more payload : Bytes} {type : UInt16}

/-- The start of a frame is not a frame. -/
theorem next_cut (small : payload.length ≤ limit) (word : limit < 2 ^ 16)
    (begins : input <+: encode type payload) (cut : input.length < (encode type payload).length) :
    next limit input = .more := by
  obtain ⟨missing, whole⟩ := begins
  have found : next limit (encode type payload) = .frame type payload [] := by
    simpa using @next_encode limit [] payload type small word
  cases front : next limit input with
  | more => rfl
  | oversize =>
      have wrong := next_append_oversize front missing
      rw [whole, found] at wrong
      cases wrong
  | frame type' payload' rest' =>
      have same := next_append_frame front missing
      rw [whole, found] at same
      injection same with _ own _
      subst own
      have shorter := next_frame_shorter front
      rw [encode_length] at cut
      omega

/-- Where a cut leaves a parser: behind the frames that are whole. -/
structure Cut (frames : List (UInt16 × Bytes)) (input : Bytes) (parsed : Parsed) : Prop where
  frames : ∃ later, frames = parsed.frames ++ later ∧
    (later = [] → parsed.rest = []) ∧
    ∀ next ∈ later.head?, parsed.rest <+: encode next.1 next.2 ∧
      parsed.rest.length < (encode next.1 next.2).length
  bytes : encodeAll parsed.frames ++ parsed.rest = input
  fitting : parsed.oversize = false

theorem parse_cut {frames : List (UInt16 × Bytes)} (small : ∀ frame ∈ frames, frame.2.length ≤ limit)
    (word : limit < 2 ^ 16) (begins : input <+: encodeAll frames) :
    Cut frames input (parse limit input) := by
  induction frames generalizing input with
  | nil =>
      obtain rfl := List.prefix_nil.mp begins
      rw [parse_more rfl]
      exact ⟨⟨[], rfl, fun _ => rfl, fun _ found => by cases found⟩, rfl, rfl⟩
  | cons frame frames ih =>
      have own := small frame List.mem_cons_self
      rw [encodeAll_cons] at begins
      by_cases cut : input.length < (encode frame.1 frame.2).length
      · have part : input <+: encode frame.1 frame.2 :=
          List.prefix_of_prefix_length_le begins (List.prefix_append _ _) (Nat.le_of_lt cut)
        rw [parse_more (next_cut own word part cut)]
        refine ⟨⟨frame :: frames, rfl, fun none => (List.cons_ne_nil _ _ none).elim, ?_⟩, rfl, rfl⟩
        intro next found
        obtain rfl : frame = next := Option.some.inj found
        exact ⟨part, cut⟩
      · obtain ⟨rest, rfl⟩ :=
          List.prefix_of_prefix_length_le (List.prefix_append _ _) begins (Nat.le_of_not_lt cut)
        have behind : rest <+: encodeAll frames := (List.prefix_append_right_inj _).mp begins
        obtain ⟨⟨later, whole, none, next⟩, bytes, fitting⟩ :=
          ih (fun other member => small other (List.mem_cons_of_mem _ member)) behind
        rw [parse_frame (next_encode own word)]
        refine ⟨⟨later, by rw [whole]; rfl, none, next⟩, ?_, fitting⟩
        simp only [Parsed.after, List.singleton_append, encodeAll_cons, List.append_assoc, bytes]

/-- What is left over has room where any of the frames has. -/
theorem Cut.rest_short {frames : List (UInt16 × Bytes)} {input : Bytes} {parsed : Parsed}
    (cut : Cut frames input parsed) {room : Nat} (positive : 0 < room)
    (small : ∀ frame ∈ frames, (encode frame.1 frame.2).length ≤ room) :
    parsed.rest.length < room := by
  obtain ⟨later, split, done, next⟩ := cut.frames
  cases later with
  | nil =>
      rw [done rfl]
      exact positive
  | cons frame later =>
      have own : frame ∈ frames := split ▸ List.mem_append_right _ List.mem_cons_self
      exact Nat.lt_of_lt_of_le (next frame rfl).2 (small frame own)

/-- Frames that are whole in front of the cut are among those that are parsed. -/
theorem Cut.covers {frames early : List (UInt16 × Bytes)} {input : Bytes} {parsed : Parsed}
    (cut : Cut frames input parsed) (begins : early <+: frames) (whole : encodeAll early <+: input) :
    early <+: parsed.frames := by
  obtain ⟨later, split, _, next⟩ := cut.frames
  have done : parsed.frames <+: frames := ⟨later, split.symm⟩
  rcases List.prefix_or_prefix_of_prefix begins done with covered | beyond
  · exact covered
  obtain ⟨more, rfl⟩ := beyond
  cases more with
  | nil => simp
  | cons frame more =>
      obtain ⟨after, same⟩ := begins
      rw [split, List.append_assoc, List.append_cancel_left_eq] at same
      have short := (next frame (same ▸ rfl)).2
      have bytes := whole.length_le
      rw [← cut.bytes] at bytes
      simp only [encodeAll_append, encodeAll_cons, List.length_append] at bytes
      omega

/-- A stream that is not cut parses to its frames. -/
theorem parse_encodeAll {frames : List (UInt16 × Bytes)}
    (small : ∀ frame ∈ frames, frame.2.length ≤ limit) (word : limit < 2 ^ 16) :
    parse limit (encodeAll frames) = ⟨frames, [], false⟩ := by
  induction frames with
  | nil => exact parse_more rfl
  | cons frame frames ih =>
      rw [encodeAll_cons, parse_frame (next_encode (small frame List.mem_cons_self) word),
        ih fun other member => small other (List.mem_cons_of_mem _ member)]
      rfl

/-! ## What has arrived whole -/

section Whole

variable {α : Type} {size : α → Nat} {items : List α} {n : Nat}

/-- The items at the front that `n` bytes hold whole. -/
def whole (size : α → Nat) : List α → Nat → List α
  | [], _ => []
  | item :: items, n => if size item ≤ n then item :: whole size items (n - size item) else []

theorem whole_append (early later : List α) (n : Nat) :
    whole size (early ++ later) ((early.map size).sum + n) = early ++ whole size later n := by
  induction early with
  | nil => simp
  | cons item early ih =>
      rw [List.cons_append, whole, List.map_cons, List.sum_cons, if_pos (by omega)]
      have rest : size item + (early.map size).sum + n - size item = (early.map size).sum + n := by omega
      rw [rest, ih, List.cons_append]

end Whole

end NetEngine.Framing
