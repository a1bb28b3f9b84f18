import Mathlib.Data.Nat.Digits.Lemmas

/-! Decimal numerals as ASCII, as `printf` writes an unsigned integer and as a
decimal reader takes one back. -/

set_option autoImplicit false

namespace NetEngine.Decimal

def digit (d : Nat) : UInt8 := UInt8.ofNat (48 + d)

def IsDigit (letter : UInt8) : Prop := 48 ≤ letter.toNat ∧ letter.toNat ≤ 57

instance (letter : UInt8) : Decidable (IsDigit letter) :=
  inferInstanceAs (Decidable (_ ∧ _))

/-- The digits of a number, most significant first, without leading zeros. -/
def numeral (n : Nat) : List Nat := if n = 0 then [0] else (Nat.digits 10 n).reverse

def print (n : Nat) : List UInt8 := (numeral n).map digit

/-- Anything but a non-empty row of digits is refused. -/
def read (text : List UInt8) : Option Nat :=
  if text ≠ [] ∧ text.all (IsDigit ·) then
    some (text.foldl (fun n letter => 10 * n + (letter.toNat - 48)) 0)
  else none

def width (n : Nat) : Nat := (print n).length

theorem digit_toNat {d : Nat} (small : d < 10) : (digit d).toNat = 48 + d := by
  rw [digit, UInt8.toNat_ofNat', Nat.mod_eq_of_lt (by omega)]

theorem numeral_lt {n d : Nat} (member : d ∈ numeral n) : d < 10 := by
  unfold numeral at member
  split at member
  · rw [List.mem_singleton.mp member]
    decide
  · exact Nat.digits_lt_base (by decide) (List.mem_reverse.mp member)

theorem numeral_ne_nil (n : Nat) : numeral n ≠ [] := by
  unfold numeral
  split
  · simp
  next positive => simpa [Nat.digits_eq_nil_iff_eq_zero] using positive

theorem print_ne_nil (n : Nat) : print n ≠ [] := by
  simpa [print] using numeral_ne_nil n

theorem print_digits {n : Nat} {letter : UInt8} (member : letter ∈ print n) : IsDigit letter := by
  obtain ⟨d, inside, rfl⟩ := List.mem_map.mp member
  have small := numeral_lt inside
  rw [IsDigit, digit_toNat small]
  omega

theorem numeral_value (n : Nat) : (numeral n).foldl (fun value d => 10 * value + d) 0 = n := by
  unfold numeral
  split
  next zero => simp [zero]
  · rw [List.foldl_reverse]
    have value : ∀ digits : List Nat,
        digits.foldr (fun d value => 10 * value + d) 0 = Nat.ofDigits 10 digits := by
      intro digits
      induction digits with
      | nil => rfl
      | cons d digits ih =>
          rw [List.foldr_cons, ih, Nat.ofDigits_cons]
          omega
    rw [value, Nat.ofDigits_digits]

theorem print_all (n : Nat) : (print n).all (IsDigit ·) = true :=
  List.all_eq_true.mpr fun _ member => decide_eq_true (print_digits member)

/-- What is printed is read back. -/
theorem read_print (n : Nat) : read (print n) = some n := by
  rw [read, if_pos ⟨print_ne_nil n, print_all n⟩]
  have digits : ∀ (row : List Nat) (value : Nat), (∀ d ∈ row, d < 10) →
      (row.map digit).foldl (fun n letter => 10 * n + (letter.toNat - 48)) value =
        row.foldl (fun value d => 10 * value + d) value := by
    intro row
    induction row with
    | nil => exact fun _ _ => rfl
    | cons d row ih =>
        intro value small
        rw [List.map_cons, List.foldl_cons, List.foldl_cons,
          digit_toNat (small d List.mem_cons_self), Nat.add_sub_cancel_left]
        exact ih _ fun other member => small other (List.mem_cons_of_mem d member)
  rw [print, digits _ _ fun _ member => numeral_lt member, numeral_value]

/-! ## Widths -/

theorem width_eq (n : Nat) : width n = if n = 0 then 1 else (Nat.digits 10 n).length := by
  rw [width, print, List.length_map, numeral]
  split
  · rfl
  · exact List.length_reverse

theorem width_le_iff {n k : Nat} (positive : 0 < k) : width n ≤ k ↔ n < 10 ^ k := by
  rw [width_eq]
  split
  next zero =>
    subst zero
    exact iff_of_true positive (Nat.pow_pos (by decide))
  · exact Nat.digits_length_le_iff (by decide) n

theorem width_pos (n : Nat) : 0 < width n := List.length_pos_iff.mpr (print_ne_nil n)

theorem width_mono {m n : Nat} (le : m ≤ n) : width m ≤ width n :=
  (width_le_iff (width_pos n)).mpr
    (Nat.lt_of_le_of_lt le ((width_le_iff (width_pos n)).mp (Nat.le_refl _)))

end NetEngine.Decimal
