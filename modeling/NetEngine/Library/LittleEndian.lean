import Mathlib.Algebra.Group.Nat.Defs
import Mathlib.Data.List.Basic

/-! Little-endian words, as `memcpy` of an unsigned integer stores them on the
machines the code runs on. -/

set_option autoImplicit false

namespace NetEngine.LittleEndian

def encode (word : UInt16) : List UInt8 :=
  [UInt8.ofNat (word.toNat % 256), UInt8.ofNat (word.toNat / 256)]

def decode (low high : UInt8) : UInt16 := UInt16.ofNat (low.toNat + 256 * high.toNat)

/-- The word stored in the first two bytes; a shorter list reads as zero. -/
def read : List UInt8 → UInt16
  | low :: high :: _ => decode low high
  | _ => 0

/-- The low `width` bytes of a number. -/
def bytes : Nat → Nat → List UInt8
  | 0, _ => []
  | width + 1, n => UInt8.ofNat (n % 256) :: bytes width (n / 256)

/-- The number whose bytes these are. -/
def value : List UInt8 → Nat
  | [] => 0
  | byte :: rest => byte.toNat + 256 * value rest

@[simp] theorem bytes_length (width n : Nat) : (bytes width n).length = width := by
  induction width generalizing n with
  | zero => rfl
  | succ width ih => simp [bytes, ih]

@[simp] theorem encode_length (word : UInt16) : (encode word).length = 2 := rfl

theorem value_bytes {width n : Nat} (small : n < 256 ^ width) : value (bytes width n) = n := by
  induction width generalizing n with
  | zero =>
      rw [Nat.pow_zero, Nat.lt_one_iff] at small
      rw [small]
      rfl
  | succ width ih =>
      have quotient : n / 256 < 256 ^ width :=
        Nat.div_lt_of_lt_mul (by rwa [Nat.pow_succ, Nat.mul_comm] at small)
      rw [bytes, value, ih quotient, UInt8.toNat_ofNat', Nat.mod_mod]
      exact Nat.mod_add_div n 256

theorem decode_toNat (low high : UInt8) : (decode low high).toNat = low.toNat + 256 * high.toNat := by
  have lowBound := low.toNat_lt
  have highBound := high.toNat_lt
  rw [decode, UInt16.toNat_ofNat', Nat.mod_eq_of_lt (by omega)]

@[simp] theorem read_encode (word : UInt16) (rest : List UInt8) : read (encode word ++ rest) = word := by
  have bound := word.toNat_lt
  apply UInt16.toNat_inj.mp
  simp only [encode, List.cons_append, List.nil_append, read, decode_toNat, UInt8.toNat_ofNat']
  omega

theorem read_take {n : Nat} (two : 2 ≤ n) (bytes : List UInt8) : read (bytes.take n) = read bytes := by
  match n, two, bytes with
  | _ + 2, _, [] | _ + 2, _, [_] | _ + 2, _, _ :: _ :: _ => rfl

@[simp] theorem encode_decode (low high : UInt8) : encode (decode low high) = [low, high] := by
  have lowBound := low.toNat_lt
  have highBound := high.toNat_lt
  simp only [encode, decode_toNat, List.cons.injEq, and_true]
  constructor <;> apply UInt8.toNat_inj.mp <;> rw [UInt8.toNat_ofNat'] <;> omega

end NetEngine.LittleEndian
