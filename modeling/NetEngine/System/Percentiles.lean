import Mathlib.Tactic.NormNum
import NetEngine.Bench.HistogramProperties
import NetEngine.Epoll.TickLogic

/-! The percentiles of the load generator and those of the server, which cut their ranks off
alike. -/

set_option autoImplicit false

namespace NetEngine

open Bench.Histogram
open Tick (Hist)

/-- The percentile of the client and that of the server are percentiles exactly when the
rank that they cut off is none at which a bucket ends. -/
theorem percentile_iff_rank_kept {samples : List Int} {p : Rat} (fits : Fits samples)
    (some : samples ≠ []) (positive : 0 < p) :
    (IsPercentile samples p ((ofSamples samples).pct p) ↔ RankKept samples p) ∧
      (IsPercentile samples p ((samples.foldl Hist.add Hist.init).pct p) ↔ RankKept samples p) :=
  ⟨pct_isPercentile fits some positive, pct_isPercentile fits some positive⟩

/-- Three samples in the first three buckets, and one past the range. -/
def slowTail : List Int := [0, 700, 2500, 2000000000]

/-- The median is the second of them. Of a rank of 3.6 the third is left, which ends a bucket. -/
theorem percentile_iff_rank_kept_slow_tail :
    (IsPercentile slowTail (1 / 2) ((ofSamples slowTail).pct (1 / 2)) ∧
        IsPercentile slowTail (1 / 2) ((slowTail.foldl Hist.add Hist.init).pct (1 / 2))) ∧
      ¬ IsPercentile slowTail (9 / 10) ((ofSamples slowTail).pct (9 / 10)) ∧
      ¬ IsPercentile slowTail (9 / 10) ((slowTail.foldl Hist.add Hist.init).pct (9 / 10)) := by
  have fits : Fits slowTail := fits_of_few (by decide)
  have median := percentile_iff_rank_kept (p := 1 / 2) fits (by decide) (by norm_num)
  have upper := percentile_iff_rank_kept (p := 9 / 10) fits (by decide) (by norm_num)
  have kept : RankKept slowTail (1 / 2) := by
    have rank : (1 / 2 : Rat) * slowTail.length = (2 : Nat) := by
      rw [show slowTail.length = 4 from rfl]
      norm_num
    refine .inl ?_
    rw [rank, Nat.floor_natCast]
  have cut : ¬ RankKept slowTail (9 / 10) := by
    have rank : ⌊(9 / 10 : Rat) * slowTail.length⌋₊ = 3 := by
      rw [Nat.floor_eq_iff (by positivity), show slowTail.length = 4 from rfl]
      norm_num
    rintro (whole | clear)
    · rw [rank, show slowTail.length = 4 from rfl] at whole
      norm_num at whole
    · exact clear 3 (by decide) (by unfold buckets; decide) rank.symm
  exact ⟨⟨median.1.mpr kept, median.2.mpr kept⟩, mt upper.1.mp cut, mt upper.2.mp cut⟩

/-- One sample of two seconds: its p99 is read from the first bucket, as within range. -/
theorem percentile_of_slow_sample :
    Fits [2000000000] ∧
      ¬ IsPercentile [2000000000] (99 / 100) ((ofSamples [2000000000]).pct (99 / 100)) ∧
      ¬ IsPercentile [2000000000] (99 / 100)
        (([2000000000].foldl Hist.add Hist.init).pct (99 / 100)) := by
  have fits : Fits [2000000000] := fits_of_few (by decide)
  have wrong : ¬ IsPercentile [2000000000] (99 / 100) ((ofSamples [2000000000]).pct (99 / 100)) := by
    have cut : ⌊(99 / 100 : Rat) * (1 : Nat)⌋₊ = 0 := by
      rw [Nat.floor_eq_zero]
      norm_num
    rw [pct_eq, total_ofSamples, List.length_singleton, cut, nth_zero, reading]
    intro percentile
    exact absurd (percentile.1 rfl).1 (by decide)
  exact ⟨fits, wrong, wrong⟩

end NetEngine
