import Mathlib.Data.List.Induction
import NetEngine.Bench.Histogram

/-! What a histogram holds of the samples that it was given, and when the bucket
that `pct` reads is that of a percentile. -/

set_option autoImplicit false

namespace NetEngine.Bench.Histogram

/-- The bucket of a sample, in the range or past it. -/
def bucketOf (ns : Int) : Nat := ns.toNat / bucketNs

/-- How many samples are in one bucket. -/
def inBucket (samples : List Int) (b : Nat) : Nat := samples.countP fun ns => bucketOf ns = b

/-- How many are in the buckets before one. -/
def before (samples : List Int) (b : Nat) : Nat := samples.countP fun ns => bucketOf ns < b

/-- No count of a bucket within the range has wrapped. -/
def Fits (samples : List Int) : Prop := ∀ b < buckets, inBucket samples b < 2 ^ 32

theorem ofSamples_snoc (samples : List Int) (ns : Int) :
    ofSamples (samples ++ [ns]) = (ofSamples samples).add ns := by
  simp [ofSamples]

theorem add_counts (h : Histogram) (ns : Int) (b : Nat) :
    (h.add ns).counts b =
      if bucketOf ns = b ∧ b < buckets then (h.counts b + 1) % 2 ^ 32 else h.counts b := by
  unfold add bucketOf
  simp only
  generalize ns.toNat / bucketNs = own
  split
  next past =>
    rw [if_neg]
    omega
  next inside =>
    simp only
    by_cases same : b = own
    · rw [if_pos same, if_pos]
      omega
    · rw [if_neg same, if_neg]
      omega

theorem add_total (h : Histogram) (ns : Int) : (h.add ns).total = h.total + 1 := by
  unfold add
  simp only
  split <;> rfl

theorem add_overflow (h : Histogram) (ns : Int) :
    (h.add ns).overflow = if buckets ≤ bucketOf ns then h.overflow + 1 else h.overflow := by
  unfold add bucketOf
  simp only
  split <;> rfl

theorem add_max (h : Histogram) (ns : Int) : (h.add ns).max = Max.max h.max ns.toNat := by
  unfold add
  simp only
  split <;> rfl

theorem add_min (h : Histogram) (ns : Int) : (h.add ns).min = Min.min h.min ns.toNat := by
  unfold add
  simp only
  split <;> rfl

theorem inBucket_snoc (samples : List Int) (ns : Int) (b : Nat) :
    inBucket (samples ++ [ns]) b = inBucket samples b + if bucketOf ns = b then 1 else 0 := by
  simp [inBucket, List.countP_append, List.countP_singleton]

theorem fits_of_few {samples : List Int} (few : samples.length < 2 ^ 32) : Fits samples :=
  fun _ _ => Nat.lt_of_le_of_lt List.countP_le_length few

theorem counts_ofSamples (samples : List Int) (b : Nat) :
    (ofSamples samples).counts b = if b < buckets then inBucket samples b % 2 ^ 32 else 0 := by
  induction samples using List.reverseRecOn with
  | nil => simp [ofSamples, empty, inBucket]
  | append_singleton samples ns ih =>
      rw [ofSamples_snoc, add_counts, ih, inBucket_snoc]
      by_cases inside : b < buckets
      · by_cases own : bucketOf ns = b
        · simp only [own, inside, and_self, if_true]
          omega
        · simp only [own, inside, false_and, if_false, if_true, Nat.add_zero]
      · simp only [inside, and_false, if_false]

theorem Fits.counts {samples : List Int} (fits : Fits samples) {b : Nat} (inside : b < buckets) :
    (ofSamples samples).counts b = inBucket samples b := by
  rw [counts_ofSamples, if_pos inside, Nat.mod_eq_of_lt (fits b inside)]

theorem total_ofSamples (samples : List Int) : (ofSamples samples).total = samples.length := by
  induction samples using List.reverseRecOn with
  | nil => rfl
  | append_singleton samples ns ih => rw [ofSamples_snoc, add_total, ih, List.length_append,
      List.length_singleton]

theorem overflow_ofSamples (samples : List Int) :
    (ofSamples samples).overflow = samples.countP fun ns => buckets ≤ bucketOf ns := by
  induction samples using List.reverseRecOn with
  | nil => rfl
  | append_singleton samples ns ih =>
      rw [ofSamples_snoc, add_overflow, ih, List.countP_append, List.countP_singleton]
      split <;> simp_all

theorem before_succ (samples : List Int) (b : Nat) :
    before samples (b + 1) = before samples b + inBucket samples b := by
  induction samples using List.reverseRecOn with
  | nil => rfl
  | append_singleton samples ns ih =>
      rw [inBucket_snoc]
      simp only [before, List.countP_append, List.countP_singleton] at ih ⊢
      simp only [decide_eq_true_eq]
      rcases Nat.lt_trichotomy (bucketOf ns) b with less | same | more
      · rw [if_pos (by omega), if_pos less, if_neg (by omega)]
        omega
      · rw [if_pos (by omega), if_neg (by omega), if_pos same]
        omega
      · rw [if_neg (by omega), if_neg (by omega), if_neg (by omega)]
        omega

theorem Fits.below {samples : List Int} (fits : Fits samples) {b : Nat} (inside : b ≤ buckets) :
    (ofSamples samples).below b = before samples b := by
  induction b with
  | zero => simp [Histogram.below, before]
  | succ b ih =>
      rw [below_succ, before_succ, ih (Nat.le_of_succ_le inside), fits.counts inside]

/-! ## Percentiles -/

/-- A rank counted from one, exactly `p` of the samples. -/
def IsPercentile (samples : List Int) (p : Rat) (answer : Nat × Bool) : Prop :=
  (answer.2 = false →
    0 < inBucket samples (answer.1 / bucketNs) ∧
    p * samples.length ≤ before samples (answer.1 / bucketNs + 1) ∧
    (before samples (answer.1 / bucketNs) : Rat) < p * samples.length) ∧
  (answer.2 = true ↔ (before samples buckets : Rat) < p * samples.length)

/-- The rank is whole, or none of the first buckets end right where it was cut off. -/
def RankKept (samples : List Int) (p : Rat) : Prop :=
  (⌊p * samples.length⌋₊ : Rat) = p * samples.length ∨
    ∀ n, 0 < n → n ≤ buckets → before samples n ≠ ⌊p * samples.length⌋₊

theorem before_mono (samples : List Int) {b c : Nat} (le : b ≤ c) :
    before samples b ≤ before samples c := by
  refine List.countP_mono_left fun ns _ inside => ?_
  rw [decide_eq_true_eq] at inside ⊢
  omega

/-- What the scan finds, in samples. -/
theorem Fits.nth_some {samples : List Int} (fits : Fits samples) {rank b : Nat}
    (found : (ofSamples samples).nth rank = some b) :
    b < buckets ∧ rank ≤ before samples (b + 1) ∧
      ∀ n, 0 < n → n ≤ b → before samples n < rank := by
  obtain ⟨inside, reached, first⟩ := Histogram.nth_some found
  rw [fits.below inside] at reached
  refine ⟨inside, reached, fun n positive le => ?_⟩
  rw [← fits.below (le.trans (Nat.le_of_lt inside))]
  exact first n positive le

theorem Fits.nth_none {samples : List Int} (fits : Fits samples) {rank : Nat}
    (found : (ofSamples samples).nth rank = none) : before samples buckets < rank := by
  rw [← fits.below (Nat.le_refl _)]
  exact nth_eq_none.mp found

theorem isPercentile_none {samples : List Int} {p : Rat} {past : Nat} :
    IsPercentile samples p (past, true) ↔ (before samples buckets : Rat) < p * samples.length := by
  simp [IsPercentile]

theorem isPercentile_some {samples : List Int} {p : Rat} {b : Nat} (inside : b < buckets) :
    IsPercentile samples p (b * bucketNs, false) ↔
      0 < inBucket samples b ∧ p * samples.length ≤ before samples (b + 1) ∧
        (before samples b : Rat) < p * samples.length := by
  have bucket : b * bucketNs / bucketNs = b := Nat.mul_div_cancel b (by decide)
  have within : (before samples (b + 1) : Rat) ≤ before samples buckets :=
    Nat.cast_le.mpr (before_mono samples inside)
  simp only [IsPercentile, bucket, forall_const, Bool.false_eq_true, false_iff, not_lt]
  constructor
  · exact And.left
  · exact fun rank => ⟨rank, rank.2.1.trans within⟩

/-- What `pct` answers is a percentile exactly when cutting the rank off did no harm. -/
theorem pct_isPercentile {samples : List Int} {p : Rat} (fits : Fits samples)
    (some : samples ≠ []) (positive : 0 < p) :
    IsPercentile samples p ((ofSamples samples).pct p) ↔ RankKept samples p := by
  have filled : (0 : Rat) < p * samples.length :=
    mul_pos positive (Nat.cast_pos.mpr (List.length_pos_iff.mpr some))
  have floor : (⌊p * samples.length⌋₊ : Rat) ≤ p * samples.length := Nat.floor_le filled.le
  have ceil : p * samples.length < ⌊p * samples.length⌋₊ + 1 := Nat.lt_floor_add_one _
  rw [pct_eq, total_ofSamples, RankKept]
  generalize ⌊p * (samples.length : Rat)⌋₊ = rank at floor ceil ⊢
  cases found : (ofSamples samples).nth rank with
  | none =>
      -- too few samples even for the rank that was cut off
      have few := fits.nth_none found
      rw [reading, isPercentile_none]
      refine iff_of_true (lt_of_lt_of_le (Nat.cast_lt.mpr few) floor) (.inr fun n _ inside => ?_)
      exact Nat.ne_of_lt (Nat.lt_of_le_of_lt (before_mono samples inside) few)
  | some b =>
      obtain ⟨inside, reached, first⟩ := fits.nth_some found
      have lower : (before samples b : Rat) < p * samples.length := by
        rcases Nat.eq_zero_or_pos b with rfl | positive
        · simpa [before] using filled
        · exact lt_of_lt_of_le (Nat.cast_lt.mpr (first b positive (Nat.le_refl b))) floor
      rw [reading, isPercentile_some inside]
      constructor
      · rintro ⟨_, upper, _⟩
        refine or_iff_not_imp_left.mpr fun cut n positive _ same => ?_
        rcases Nat.lt_or_ge b n with past | within
        · have above := before_mono samples past
          have least : p * samples.length ≤ rank := upper.trans (Nat.cast_le.mpr (same ▸ above))
          exact cut (le_antisymm floor least)
        · exact absurd same (Nat.ne_of_lt (first n positive within))
      · intro kept
        have upper : p * samples.length ≤ before samples (b + 1) := by
          rcases kept with whole | clear
          · exact whole ▸ Nat.cast_le.mpr reached
          · have more : rank + 1 ≤ before samples (b + 1) :=
              Nat.lt_of_le_of_ne reached (Ne.symm (clear (b + 1) (Nat.succ_pos b) inside))
            exact ceil.le.trans (by exact_mod_cast more)
        have some : before samples b < before samples (b + 1) := by
          exact_mod_cast lower.trans_le upper
        rw [before_succ] at some
        exact ⟨by omega, upper, lower⟩

end NetEngine.Bench.Histogram
