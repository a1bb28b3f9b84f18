import Mathlib.Data.List.Basic
import Mathlib.Data.List.GetD
import Mathlib.Data.Nat.Bitwise

/-! A set of numbers as a row of machine words, and the walk over a word that takes
out its lowest bit until none is left. -/

set_option autoImplicit false

namespace NetEngine.Bitmap

variable {w : Nat}

def mask (w place : Nat) : BitVec w := 1#w <<< place

def member (words : List (BitVec w)) (slot : Nat) : Bool :=
  (words.getD (slot / w) 0).getLsbD (slot % w)

def insert (words : List (BitVec w)) (slot : Nat) : List (BitVec w) :=
  words.set (slot / w) (words.getD (slot / w) 0 ||| mask w (slot % w))

def erase (words : List (BitVec w)) (slot : Nat) : List (BitVec w) :=
  words.set (slot / w) (words.getD (slot / w) 0 &&& ~~~ mask w (slot % w))

/-- The members in ascending order. -/
def members (words : List (BitVec w)) : List Nat :=
  (List.range (words.length * w)).filter (member words)

def dropLowest (word : BitVec w) : BitVec w := word &&& (word - 1)

/-- The places of the set bits, lowest first; the first argument bounds their number. -/
def places : Nat → BitVec w → List Nat
  | 0, _ => []
  | fuel + 1, word => if word = 0 then [] else word.ctz.toNat :: places fuel (dropLowest word)

/-! ## One word -/

theorem mask_getLsbD {place i : Nat} (inside : place < w) :
    (mask w place).getLsbD i = decide (i = place) := by
  rw [mask, BitVec.getLsbD_shiftLeft, BitVec.getLsbD_one]
  by_cases same : i = place
  · simp [same, inside]
    omega
  · simp [same]
    omega

theorem and_mask {word : BitVec w} {place : Nat} (inside : place < w) :
    word &&& mask w place = 0 ↔ word.getLsbD place = false := by
  constructor
  · intro none
    have bit := congrArg (fun word => BitVec.getLsbD word place) none
    simpa [BitVec.getLsbD_and, mask_getLsbD inside] using bit
  · intro clear
    apply BitVec.eq_of_getLsbD_eq
    intro i _
    rw [BitVec.getLsbD_and, mask_getLsbD inside]
    by_cases same : i = place
    · simp [same, clear]
    · simp [same]

/-- A number over its lowest set bit. -/
theorem testBit_dropLowest {n low : Nat} (set : n.testBit low = true)
    (below : ∀ i < low, n.testBit i = false) (i : Nat) :
    (n &&& (n - 1)).testBit i = (n.testBit i && decide (i ≠ low)) := by
  -- the number is `2 ^ low * (2 * m + 1)`, and one less is `2 ^ low * (2 * m)` with all ones below
  have rest : n % 2 ^ low = 0 := by
    apply Nat.eq_of_testBit_eq
    intro j
    rw [Nat.testBit_mod_two_pow, Nat.zero_testBit]
    by_cases inside : j < low
    · simp [below j inside]
    · simp [inside]
  have odd : n / 2 ^ low % 2 = 1 := by
    rw [Nat.testBit_eq_decide_div_mod_eq, decide_eq_true_eq] at set
    exact set
  have whole := Nat.div_add_mod n (2 ^ low)
  have upper := Nat.div_add_mod (n / 2 ^ low) 2
  have power := Nat.two_pow_pos low
  generalize n / 2 ^ low / 2 = m at upper
  rw [odd] at upper
  rw [rest, Nat.add_zero, ← upper] at whole
  have less : n - 1 = 2 ^ low * (2 * m) + (2 ^ low - 1) := by
    rw [← whole, Nat.mul_add, Nat.mul_one]
    omega
  have same : n = 2 ^ low * (2 * m + 1) + 0 := by rw [Nat.add_zero, whole]
  rw [Nat.testBit_and, less]
  conv_lhs => rw [same]
  conv_rhs => rw [same]
  rw [Nat.testBit_two_pow_mul_add _ power, Nat.testBit_two_pow_mul_add _ (by omega)]
  by_cases under : i < low
  · simp [under]
  · rw [if_neg under, if_neg under]
    cases above : i - low with
    | zero =>
        have equal : i = low := by omega
        simp [equal]
    | succ k =>
        have different : i ≠ low := by omega
        have halves : (2 * m + 1) / 2 = m ∧ 2 * m / 2 = m := by omega
        simp [Nat.testBit_succ, different, halves.1, halves.2]

theorem ctz_lt {word : BitVec w} (some : word ≠ 0) : word.ctz.toNat < w := by
  have less := BitVec.lt_def.mp (BitVec.ctz_lt_iff_ne_zero.mpr some)
  exact Nat.lt_of_lt_of_le less (Nat.mod_le _ _)

theorem dropLowest_getLsbD {word : BitVec w} (some : word ≠ 0) (i : Nat) :
    (dropLowest word).getLsbD i = (word.getLsbD i && decide (i ≠ word.ctz.toNat)) := by
  have positive : 0 < word.toNat := by
    apply Nat.pos_of_ne_zero
    intro zero
    exact some (BitVec.eq_of_toNat_eq (by simpa using zero))
  have wide : 1 < 2 ^ w := Nat.one_lt_two_pow (Nat.ne_of_gt (Nat.zero_lt_of_lt (ctz_lt some)))
  have unit : (1 : BitVec w).toNat = 1 := Nat.mod_eq_of_lt wide
  have one : (word - 1).toNat = word.toNat - 1 := by
    rw [BitVec.toNat_sub_of_le (BitVec.le_def.mpr (by rw [unit]; exact positive)), unit]
  have cleared := testBit_dropLowest (BitVec.getLsbD_true_ctz_of_ne_zero some)
    (fun _ below => BitVec.getLsbD_false_of_lt_ctz below) i
  rw [dropLowest, BitVec.getLsbD, BitVec.toNat_and, one]
  exact cleared

theorem range_split {low n : Nat} (inside : low < n) :
    List.range n = List.range low ++ low :: List.range' (low + 1) (n - low - 1) := by
  have size : low + (n - low - 1 + 1) = n := by omega
  have joined := @List.range'_append_1 0 low (n - low - 1 + 1)
  rw [Nat.zero_add, size, List.range'_succ] at joined
  rw [List.range_eq_range', List.range_eq_range', joined]

/-- A row of numbers whose first chosen one is no longer chosen. -/
theorem filter_first {low : Nat} {chosen rest : Nat → Bool} (inside : low < w) (set : chosen low = true)
    (below : ∀ i < low, chosen i = false) (same : ∀ i, rest i = (chosen i && decide (i ≠ low))) :
    (List.range w).filter chosen = low :: (List.range w).filter rest := by
  have front (p : Nat → Bool) (none : ∀ i < low, p i = false) : (List.range low).filter p = [] :=
    List.filter_eq_nil_iff.mpr fun i member => by simp [none i (List.mem_range.mp member)]
  rw [range_split inside, List.filter_append, List.filter_append, front chosen below,
    front rest fun i less => by rw [same, below i less, Bool.false_and], List.nil_append, List.nil_append,
    List.filter_cons_of_pos set, List.filter_cons_of_neg (by simp [same])]
  congr 1
  apply List.filter_congr
  intro i member
  have later := (List.mem_range'_1.mp member).1
  simp [same]
  omega

/-- The walk finds every set bit, each once and in ascending order. -/
theorem places_eq (fuel : Nat) (word : BitVec w) (enough : ((List.range w).filter word.getLsbD).length ≤ fuel) :
    places fuel word = (List.range w).filter word.getLsbD := by
  induction fuel generalizing word with
  | zero => exact (List.length_eq_zero_iff.mp (Nat.le_zero.mp enough)).symm
  | succ fuel ih =>
      rw [places]
      split
      next none => 
        subst none
        simp
      next some =>
        have first := filter_first (ctz_lt some) (BitVec.getLsbD_true_ctz_of_ne_zero some)
          (fun _ below => BitVec.getLsbD_false_of_lt_ctz below) (dropLowest_getLsbD some)
        rw [first, List.length_cons] at enough
        rw [first, ih _ (Nat.le_of_succ_le_succ enough)]

/-- As many turns as a word has bits are enough. -/
theorem places_word (word : BitVec w) : places w word = (List.range w).filter word.getLsbD :=
  places_eq w word ((List.length_filter_le _ _).trans_eq List.length_range)

/-! ## A row of words -/

section
variable {words : List (BitVec w)} {slot : Nat}

@[simp] theorem length_insert : (insert words slot).length = words.length := List.length_set

@[simp] theorem length_erase : (erase words slot).length = words.length := List.length_set

/-- One word of the row changes in one place. -/
theorem member_set {word : BitVec w} (inside : slot / w < words.length) (value : Bool)
    (changed : ∀ i, word.getLsbD i =
      if i = slot % w then value else (words.getD (slot / w) 0).getLsbD i) (other : Nat) :
    member (words.set (slot / w) word) other = if other = slot then value else member words other := by
  rw [member, List.getD_eq_getElem?_getD, List.getElem?_set]
  by_cases here : slot / w = other / w
  · rw [if_pos here, if_pos inside, Option.getD_some, changed]
    have same : other % w = slot % w ↔ other = slot := by
      constructor
      · intro places
        rw [← Nat.div_add_mod other w, ← Nat.div_add_mod slot w, here, places]
      · rintro rfl
        rfl
    rw [member, here]
    simp only [same]
  · have different : other ≠ slot := by
      rintro rfl
      exact here rfl
    rw [if_neg here, if_neg different, member, List.getD_eq_getElem?_getD]

theorem member_insert (positive : 0 < w) (inside : slot / w < words.length) (other : Nat) :
    member (insert words slot) other = if other = slot then true else member words other := by
  refine member_set inside true (fun i => ?_) other
  rw [BitVec.getLsbD_or, mask_getLsbD (Nat.mod_lt slot positive)]
  split
  next same => simp [same]
  next different => simp [different]

theorem member_erase (positive : 0 < w) (inside : slot / w < words.length) (other : Nat) :
    member (erase words slot) other = if other = slot then false else member words other := by
  refine member_set inside false (fun i => ?_) other
  rw [BitVec.getLsbD_and, BitVec.getLsbD_not, mask_getLsbD (Nat.mod_lt slot positive)]
  split
  next same => simp [same]
  next different =>
    by_cases wide : i < w
    · simp [different, wide]
    · simp [BitVec.getLsbD_of_ge _ _ (Nat.not_lt.mp wide)]

theorem flip_length {n slot : Nat} {before after : Nat → Bool} (inside : slot < n) (out : before slot = false)
    (now : after slot = true) (same : ∀ i, i ≠ slot → after i = before i) :
    ((List.range n).filter after).length = ((List.range n).filter before).length + 1 := by
  have front : (List.range slot).filter after = (List.range slot).filter before :=
    List.filter_congr fun i member => same i (Nat.ne_of_lt (List.mem_range.mp member))
  have back : (List.range' (slot + 1) (n - slot - 1)).filter after =
      (List.range' (slot + 1) (n - slot - 1)).filter before :=
    List.filter_congr fun i member => same i (Nat.ne_of_gt (List.mem_range'_1.mp member).1)
  rw [range_split inside, List.filter_append, List.filter_append, List.filter_cons_of_pos now,
    List.filter_cons_of_neg (by simp [out]), front, back]
  simp only [List.length_append, List.length_cons]
  omega

theorem inside_range (positive : 0 < w) (inside : slot / w < words.length) : slot < words.length * w :=
  (Nat.div_lt_iff_lt_mul positive).mp inside

theorem length_members_insert (positive : 0 < w) (inside : slot / w < words.length)
    (fresh : member words slot = false) :
    (members (insert words slot)).length = (members words).length + 1 := by
  rw [members, members, length_insert]
  refine flip_length (inside_range positive inside) fresh ?_ fun i different => ?_
  · rw [member_insert positive inside, if_pos rfl]
  · rw [member_insert positive inside, if_neg different]

theorem length_members_erase (positive : 0 < w) (inside : slot / w < words.length)
    (held : member words slot = true) :
    (members words).length = (members (erase words slot)).length + 1 := by
  rw [members, members, length_erase]
  refine flip_length (inside_range positive inside) ?_ held fun i different => ?_
  · rw [member_erase positive inside, if_pos rfl]
  · rw [member_erase positive inside, if_neg different]

/-- Word by word, the walk finds the members in ascending order. -/
theorem members_eq (positive : 0 < w) (words : List (BitVec w)) :
    members words = (List.range words.length).flatMap fun i =>
      (places w (words.getD i 0)).map (i * w + ·) := by
  have word (i : Nat) : ((List.range w).map (i * w + ·)).filter (member words) =
      (places w (words.getD i 0)).map (i * w + ·) := by
    rw [List.filter_map, places_word]
    congr 1
    apply List.filter_congr
    intro place inside
    have less := List.mem_range.mp inside
    simp only [Function.comp, member]
    rw [Nat.mul_comm i w, Nat.mul_add_div positive, Nat.div_eq_of_lt less, Nat.add_zero,
      Nat.mul_add_mod, Nat.mod_eq_of_lt less]
  have rows (n : Nat) : List.range (n * w) = (List.range n).flatMap fun i => (List.range w).map (i * w + ·) := by
    induction n with
    | zero => simp
    | succ n ih => 
        rw [Nat.succ_mul, List.range_add, ih, List.range_succ, List.flatMap_append]
        simp
  rw [members, rows, List.filter_flatMap]
  congr 1
  funext i
  exact word i

end

end NetEngine.Bitmap
