import Mathlib.Data.Nat.Bitwise
import Mathlib.Data.Nat.Log

/-! Rounding up to a power of two by smearing the highest bit downwards. -/

set_option autoImplicit false

namespace NetEngine.Bits

/-- Each bit of `smeared` gathers `width` bits of `value` from its place upwards. -/
def Smeared (value width smeared : Nat) : Prop :=
  ∀ i, smeared.testBit i = true ↔ ∃ d < width, value.testBit (i + d) = true

theorem smeared_one (value : Nat) : Smeared value 1 value := fun i => by simp

theorem Smeared.double {value width smeared : Nat} (smear : Smeared value width smeared) :
    Smeared value (2 * width) (smeared ||| smeared >>> width) := by
  intro i
  rw [Nat.testBit_or, Nat.testBit_shiftRight, Bool.or_eq_true, smear, Nat.add_comm width i, smear]
  constructor
  · intro either
    cases either with
    | inl near =>
        obtain ⟨d, below, set⟩ := near
        exact ⟨d, by omega, set⟩
    | inr far =>
        obtain ⟨d, below, set⟩ := far
        exact ⟨width + d, by omega, by rwa [← Nat.add_assoc]⟩
  · intro found
    obtain ⟨d, below, set⟩ := found
    cases Nat.lt_or_ge d width with
    | inl near => exact .inl ⟨d, near, set⟩
    | inr far =>
        refine .inr ⟨d - width, by omega, ?_⟩
        rwa [Nat.add_assoc, Nat.add_sub_cancel' far]

/-- Smeared over its whole length, a number is all ones up to its highest bit. -/
theorem Smeared.full {value width smeared : Nat} (smear : Smeared value width smeared)
    (positive : value ≠ 0) (short : value < 2 ^ width) :
    smeared + 1 = 2 ^ (value.log2 + 1) := by
  have ones : smeared = 2 ^ (value.log2 + 1) - 1 := by
    apply Nat.eq_of_testBit_eq
    intro i
    rw [Nat.testBit_two_pow_sub_one, Bool.eq_iff_iff, smear, decide_eq_true_iff]
    have high : value.log2 < width := (Nat.log2_lt positive).mpr short
    constructor
    · intro found
      obtain ⟨d, _, set⟩ := found
      have large : 2 ^ (i + d) ≤ value := Nat.ge_two_pow_of_testBit set
      have reach := (Nat.le_log2 positive).mpr large
      omega
    · intro below
      refine ⟨value.log2 - i, by omega, ?_⟩
      rw [Nat.add_sub_cancel' (Nat.le_of_lt_succ below)]
      exact Nat.testBit_log2 positive
  have power := Nat.two_pow_pos (value.log2 + 1)
  omega

end NetEngine.Bits
