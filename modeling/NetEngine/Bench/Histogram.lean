import Mathlib.Algebra.Order.Floor.Ring
import Mathlib.Data.Rat.Floor
import Mathlib.Algebra.BigOperators.Group.List.Basic

/-! `histogram.h`: fixed one-microsecond buckets out to one second. Products of
a percentile and a total are exact rationals here. -/

set_option autoImplicit false

namespace NetEngine.Bench

namespace Histogram

def bucketNs : Nat := 1000

@[irreducible] def buckets : Nat := 1000000

theorem buckets_pos : 0 < buckets := by
  unfold buckets
  omega

end Histogram

/-- `counts` holds `uint32_t` values; `min` starts at `INT64_MAX`. -/
structure Histogram where
  counts : Nat → Nat
  total : Nat
  overflow : Nat
  max : Nat
  min : Nat

namespace Histogram

def empty : Histogram := ⟨fun _ => 0, 0, 0, 0, 2 ^ 63 - 1⟩

/-- A negative sample, from clock skew or a same-tick delivery, counts as zero. -/
def add (h : Histogram) (ns : Int) : Histogram :=
  let ns := ns.toNat
  let b := ns / bucketNs
  let h := { h with total := h.total + 1, max := Max.max h.max ns, min := Min.min h.min ns }
  if buckets ≤ b then { h with overflow := h.overflow + 1 }
  else { h with counts := fun i => if i = b then (h.counts i + 1) % 2 ^ 32 else h.counts i }

def ofSamples (samples : List Int) : Histogram := samples.foldl add empty

/-- The scan of `pct`, with `left` buckets to go from `b`. -/
def scan (h : Histogram) (want : Nat) : Nat → Nat → Nat → Option Nat
  | 0, _, _ => none
  | left + 1, b, seen =>
      let seen := seen + h.counts b
      if want ≤ seen then some b else scan h want left (b + 1) seen

/-- The value of a bucket that was found, or the stand-in for one past the range. -/
def reading (width past : Nat) : Option Nat → Nat × Bool
  | some b => (b * width, false)
  | none => (past, true)

/-- The percentile in nanoseconds, and whether it fell inside the overflow count. -/
def pct (h : Histogram) (p : Rat) : Nat × Bool :=
  if h.total = 0 then (0, false)
  else reading bucketNs (buckets * bucketNs) (h.scan ⌊p * h.total⌋₊ buckets 0 0)

/-! ## Ranks -/

/-- Samples in the first `b` buckets. -/
def below (h : Histogram) (b : Nat) : Nat := ((List.range b).map h.counts).sum

/-- The bucket of the sample of rank `k`, counted from one. -/
def nth (h : Histogram) (k : Nat) : Option Nat :=
  (List.range buckets).find? fun b => k ≤ h.below (b + 1)

theorem nth_zero (h : Histogram) : h.nth 0 = some 0 := by
  obtain ⟨rest, more⟩ := Nat.exists_eq_succ_of_ne_zero (Nat.pos_iff_ne_zero.mp buckets_pos)
  rw [nth, more, List.range_succ_eq_map, List.find?_cons]
  simp

theorem below_succ (h : Histogram) (b : Nat) : h.below (b + 1) = h.below b + h.counts b := by
  simp [below, List.range_succ]

theorem below_mono (h : Histogram) {b c : Nat} (le : b ≤ c) : h.below b ≤ h.below c := by
  induction c, le using Nat.le_induction with
  | base => exact Nat.le_refl _
  | succ c _ ih =>
      rw [below_succ]
      omega

/-- The scan finds the first bucket at which enough samples were seen. -/
theorem nth_some {h : Histogram} {k b : Nat} (found : h.nth k = some b) :
    b < buckets ∧ k ≤ h.below (b + 1) ∧ ∀ n, 0 < n → n ≤ b → h.below n < k := by
  rw [nth, List.find?_range_eq_some] at found
  obtain ⟨reached, inside, first⟩ := found
  refine ⟨List.mem_range.mp inside, by simpa using reached, fun n positive le => ?_⟩
  obtain ⟨j, rfl⟩ := Nat.exists_eq_succ_of_ne_zero (Nat.pos_iff_ne_zero.mp positive)
  simpa using first j (Nat.lt_of_succ_le le)

theorem nth_eq_none {h : Histogram} {k : Nat} : h.nth k = none ↔ h.below buckets < k := by
  rw [nth, List.find?_eq_none]
  constructor
  · intro none
    obtain ⟨last, same⟩ := Nat.exists_eq_succ_of_ne_zero (Nat.pos_iff_ne_zero.mp buckets_pos)
    have short := none last (List.mem_range.mpr (by omega))
    rw [same]
    simpa using short
  · intro few b inside
    have within : h.below (b + 1) ≤ h.below buckets := h.below_mono (List.mem_range.mp inside)
    rw [decide_eq_true_eq]
    omega

theorem scan_eq (h : Histogram) (want left b : Nat) :
    h.scan want left b (h.below b) =
      (List.range' b left).find? fun i => want ≤ h.below (i + 1) := by
  induction left generalizing b with
  | zero => rfl
  | succ left ih =>
      rw [List.range'_succ, List.find?_cons, scan, ← below_succ]
      by_cases reached : want ≤ h.below (b + 1)
      · simp [reached]
      · simp only [reached, if_false, decide_false]
        exact ih (b + 1)

theorem scan_zero (h : Histogram) (want n : Nat) :
    h.scan want n 0 0 = (List.range n).find? fun b => want ≤ h.below (b + 1) := by
  rw [List.range_eq_range']
  exact scan_eq h want n 0

/-- The binary reads the sample whose rank is the product rounded down. -/
theorem pct_eq (h : Histogram) (p : Rat) :
    h.pct p = reading bucketNs (buckets * bucketNs) (h.nth ⌊p * h.total⌋₊) := by
  by_cases none : h.total = 0
  · rw [pct, if_pos none, none, Nat.cast_zero, mul_zero, Nat.floor_zero, nth_zero, reading,
      Nat.zero_mul]
  · rw [pct, if_neg none, scan_zero, ← nth]

/-- The buckets that hold a sample, in order. -/
def occupied (h : Histogram) : List Nat := (List.range buckets).filter fun b => h.counts b ≠ 0

theorem occupied_nodup (h : Histogram) : h.occupied.Nodup := List.nodup_range.filter _

theorem occupied_sorted (h : Histogram) : h.occupied.Pairwise (· ≤ ·) :=
  (List.pairwise_lt_range.imp Nat.le_of_lt).filter _

end Histogram

end NetEngine.Bench
