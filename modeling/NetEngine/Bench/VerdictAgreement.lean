import NetEngine.Bench.HistogramProperties
import NetEngine.Bench.VerdictProperties

/-! Where the two verdicts agree, in terms of how many samples lie below a bucket. Cutting
a rank off matters at three places: the end of the range, a fifth of the latency and the
floor of the self-lag. -/

set_option autoImplicit false

namespace NetEngine.Bench

/-! ## Ranks and buckets -/

namespace Histogram

/-- The first `b` buckets hold just the rank that was cut off. -/
def CutAt (h : Histogram) (b : Nat) : Prop := h.below b = h.lowRank ∧ h.lowRank < h.highRank

theorem lowRank_le (h : Histogram) : h.lowRank ≤ h.highRank := Nat.floor_le_ceil _

theorem highRank_le (h : Histogram) : h.highRank ≤ h.lowRank + 1 := Nat.ceil_le_floor_add_one _

theorem cutAt_iff (h : Histogram) (b : Nat) :
    h.CutAt b ↔ h.lowRank ≤ h.below b ∧ h.below b < h.highRank := by
  have next := h.highRank_le
  unfold CutAt
  omega

theorem below_lt_iff (h : Histogram) {b c : Nat} :
    h.below b < h.below c ↔ ∃ d, b ≤ d ∧ d < c ∧ h.counts d ≠ 0 := by
  constructor
  · induction c with
    | zero => exact fun more => absurd more (Nat.not_lt.mpr (h.below_mono (Nat.zero_le b)))
    | succ c ih =>
        intro more
        by_cases filled : h.counts c = 0
        · rw [below_succ, filled, Nat.add_zero] at more
          obtain ⟨d, least, before, filled⟩ := ih more
          exact ⟨d, least, Nat.lt_succ_of_lt before, filled⟩
        · refine ⟨c, Nat.le_of_not_lt fun less => ?_, Nat.lt_succ_self c, filled⟩
          exact absurd more (Nat.not_lt.mpr (h.below_mono less))
  · rintro ⟨d, least, before, filled⟩
    have start := h.below_mono least
    have stop : h.below (d + 1) ≤ h.below c := h.below_mono before
    rw [below_succ] at stop
    omega

/-- The sample of a rank lies behind a bucket where too few samples lie up to it. -/
theorem lt_nth_some {h : Histogram} {k b : Nat} (found : h.nth k = some b) (c : Nat) :
    c < b ↔ h.below (c + 1) < k := by
  obtain ⟨_, reached, first⟩ := nth_some found
  constructor
  · exact first (c + 1) (Nat.succ_pos c)
  · intro short
    refine Nat.lt_of_not_le fun upTo => ?_
    have within : h.below (b + 1) ≤ h.below (c + 1) := h.below_mono (Nat.succ_le_succ upTo)
    omega

theorem lt_nth_none {h : Histogram} {k : Nat} (found : h.nth k = none) {c : Nat}
    (inside : c ≤ buckets) : h.below c < k :=
  Nat.lt_of_le_of_lt (h.below_mono inside) (nth_eq_none.mp found)

end Histogram

theorem lt_foldl_max (bs : List Nat) (c start : Nat) :
    c < bs.foldl Max.max start ↔ c < start ∨ ∃ b ∈ bs, c < b := by
  induction bs generalizing start with
  | nil => simp
  | cons b bs ih =>
      rw [List.foldl_cons, ih, lt_max_iff, List.exists_mem_cons_iff, or_assoc]

/-- The highest occupied bucket lies behind a bucket where samples within the range do. -/
theorem Histogram.lt_top {h : Histogram} {c : Nat} :
    c < h.occupied.foldl Max.max 0 ↔ h.below (c + 1) < h.below buckets := by
  rw [lt_foldl_max, below_lt_iff]
  simp only [Nat.not_lt_zero, false_or, occupied, List.mem_filter, List.mem_range,
    decide_eq_true_eq]
  constructor
  · rintro ⟨b, ⟨inside, filled⟩, more⟩
    exact ⟨b, more, inside, filled⟩
  · rintro ⟨b, more, inside, filled⟩
    exact ⟨b, ⟨inside, filled⟩, more⟩

/-! ## The tests in samples -/

/-- The self-lag of rank `m` is over a fifth of the latency of rank `k`: some bucket takes in
`k` latencies, and a fifth of it not `m` self-lags. -/
def Late (lat lag : Histogram) (k m : Nat) : Prop :=
  ∃ b < Histogram.buckets, k ≤ lat.below (b + 1) ∧ lag.below (b / lagRatio + 1) < m

/-- The bucket of the floor under which a self-lag is never too large. -/
def floorBucket : Nat := lagFloorNs / Histogram.bucketNs

theorem late_iff {lat lag : Histogram} {k m a : Nat} (found : lat.nth k = some a) :
    Late lat lag k m ↔ lag.below (a / lagRatio + 1) < m := by
  obtain ⟨inside, reached, first⟩ := Histogram.nth_some found
  constructor
  · rintro ⟨b, _, taken, short⟩
    have behind : a ≤ b := by
      refine Nat.le_of_not_lt fun less => ?_
      have few := first (b + 1) (Nat.succ_pos b) less
      omega
    have within := lag.below_mono (Nat.succ_le_succ (Nat.div_le_div_right (c := lagRatio) behind))
    exact Nat.lt_of_le_of_lt within short
  · exact fun short => ⟨a, inside, reached, short⟩

theorem lagging_iff (a g : Nat) :
    Lagging (a * Histogram.bucketNs) (g * Histogram.bucketNs) ↔ a / lagRatio < g := by
  unfold Lagging Histogram.bucketNs lagRatio
  omega

theorem div_lagRatio_lt {a : Nat} (inside : a < Histogram.buckets) :
    a / lagRatio < Histogram.buckets :=
  Nat.lt_of_le_of_lt (Nat.div_le_self a lagRatio) inside

theorem lagging_low {lat lag : Histogram} {a : Nat} (found : lat.low = some a) :
    Lagging (nsAt rangeNs lat.low) (nsAt rangeNs lag.low) ↔
      Late lat lag lat.lowRank lag.lowRank := by
  have inside := div_lagRatio_lt (Histogram.nth_some found).1
  rw [late_iff (k := lat.lowRank) found, found]
  cases read : lag.low with
  | none => exact iff_of_true ((lagging_iff a _).mpr inside) (Histogram.lt_nth_none read inside)
  | some g => exact (lagging_iff a g).trans (Histogram.lt_nth_some read _)

theorem lagging_high {lat lag : Histogram} {a : Nat} (found : lat.high = some a) :
    Lagging (nsAt lat.top lat.high) (nsAt lag.top lag.high) ↔
      Late lat lag lat.highRank (min lag.highRank (lag.below Histogram.buckets)) := by
  rw [late_iff (k := lat.highRank) found, found]
  cases read : lag.high with
  | none =>
      have few : lag.below Histogram.buckets < lag.highRank := Histogram.nth_eq_none.mp read
      rw [Nat.min_eq_right few.le, ← Histogram.lt_top]
      exact lagging_iff a _
  | some g =>
      obtain ⟨within, reached, _⟩ := Histogram.nth_some read
      rw [Nat.min_eq_left (reached.trans (lag.below_mono within))]
      exact (lagging_iff a g).trans (Histogram.lt_nth_some read _)

theorem floorBucket_inside : floorBucket ≤ Histogram.buckets := by
  unfold floorBucket Histogram.buckets
  decide

theorem floor_le_iff (b : Nat) : lagFloorNs ≤ b * Histogram.bucketNs ↔ floorBucket - 1 < b := by
  unfold lagFloorNs Histogram.bucketNs
  rw [show floorBucket = 1000 from rfl]
  omega

theorem floor_low (lag : Histogram) :
    lagFloorNs ≤ nsAt rangeNs lag.low ↔ lag.below floorBucket < lag.lowRank := by
  cases read : lag.low with
  | none =>
      exact iff_of_true ((floor_le_iff _).mpr floorBucket_inside)
        (Histogram.lt_nth_none read floorBucket_inside)
  | some g => exact (floor_le_iff g).trans (Histogram.lt_nth_some read (floorBucket - 1))

theorem floor_high (lag : Histogram) :
    lagFloorNs ≤ nsAt lag.top lag.high ∨ lag.high = none ↔
      lag.below floorBucket < lag.highRank := by
  cases read : lag.high with
  | none => exact iff_of_true (.inr rfl) (Histogram.lt_nth_none read floorBucket_inside)
  | some g =>
      rw [or_iff_left nofun]
      exact (floor_le_iff g).trans (Histogram.lt_nth_some read (floorBucket - 1))

/-! ## Causes to void -/

/-- A cause to void for both tools among the counters. -/
def CountersVoid (cfg : Config) (st : Stats) : Prop :=
  (cfg.perRoom ≠ 0 ∧ FanoutOff cfg st) ∨ (0 < cfg.conns ∧ Shed cfg st) ∨ st.latency.total = 0

/-- Frames came in where none were wanted: the merger takes a `--per-room` of 0 for a missing one. -/
def Unwanted (cfg : Config) (st : Stats) : Prop :=
  cfg.perRoom = 0 ∧ st.sent ≠ 0 ∧ st.framesIn ≠ 0

/-- The latency and the self-lag at the ranks that the binary takes. -/
def LateLow (st : Stats) : Prop :=
  Late st.latency st.selfLag st.latency.lowRank st.selfLag.lowRank

/-- The same for the merger, which takes the last self-lag within the range for one past it. -/
def LateHigh (st : Stats) : Prop :=
  Late st.latency st.selfLag st.latency.highRank
    (min st.selfLag.highRank (st.selfLag.below Histogram.buckets))

/-- A cause to void for the binary among the samples. -/
def TailVoidsLow (st : Stats) : Prop :=
  st.latency.below Histogram.buckets < st.latency.lowRank ∨
    (LateLow st ∧ st.selfLag.below floorBucket < st.selfLag.lowRank)

/-- A cause to void for the merger among the samples. -/
def TailVoidsHigh (st : Stats) : Prop :=
  st.latency.below Histogram.buckets < st.latency.highRank ∨
    (LateHigh st ∧ st.selfLag.below floorBucket < st.selfLag.highRank)

theorem fanoutOff_iff (cfg : Config) (st : Stats) :
    FanoutOff cfg st ↔ (cfg.perRoom ≠ 0 ∧ FanoutOff cfg st) ∨ Unwanted cfg st := by
  by_cases none : cfg.perRoom = 0
  · simp only [none, ne_eq, not_true_eq_false, false_and, false_or, Unwanted, true_and]
    unfold FanoutOff
    rw [none, Int.cast_zero, zero_mul, zero_mul, fanout]
    refine and_congr_right fun sent => ?_
    have some : (0 : Rat) < st.sent := Nat.cast_pos.mpr (Nat.pos_of_ne_zero sent)
    have least : (0 : Rat) ≤ st.framesIn / st.sent := div_nonneg (Nat.cast_nonneg _) some.le
    rw [or_iff_left (not_lt.mpr least), div_pos_iff_of_pos_right some, Nat.cast_pos,
      Nat.pos_iff_ne_zero]
  · simp [none, Unwanted]

theorem shed_iff (cfg : Config) (st : Stats) :
    cfg.conns ≠ 0 ∧ Shed cfg st ↔ (0 < cfg.conns ∧ Shed cfg st) ∨ cfg.conns < 0 := by
  have lost : cfg.conns < 0 → Shed cfg st := fun negative => by
    have less : (cfg.conns : Rat) < 0 := Int.cast_lt_zero.mpr negative
    exact (mul_neg_of_pos_of_neg (by norm_num) less).trans_le (Nat.cast_nonneg _)
  constructor
  · rintro ⟨some, shed⟩
    rcases Int.lt_or_gt_of_ne some with negative | positive
    · exact .inr negative
    · exact .inl ⟨positive, shed⟩
  · rintro (⟨positive, shed⟩ | negative)
    · exact ⟨ne_of_gt positive, shed⟩
    · exact ⟨ne_of_lt negative, lost negative⟩

theorem voidedLow_iff (cfg : Config) (st : Stats) :
    VoidedLow cfg st ↔ CountersVoid cfg st ∨ Unwanted cfg st ∨ TailVoidsLow st := by
  have tail : (st.latency.low = none ∨
      (Lagging (nsAt rangeNs st.latency.low) (nsAt rangeNs st.selfLag.low) ∧
        lagFloorNs ≤ nsAt rangeNs st.selfLag.low)) ↔
      TailVoidsLow st := by
    unfold TailVoidsLow
    rw [floor_low, ← Histogram.nth_eq_none]
    cases found : st.latency.low with
    | none => exact iff_of_true (.inl rfl) (.inl found)
    | some a =>
        rw [LateLow, ← lagging_low found, ← found]
        exact Iff.rfl
  unfold VoidedLow CountersVoid
  rw [tail, fanoutOff_iff]
  tauto

theorem voidedHigh_iff (cfg : Config) (st : Stats) :
    VoidedHigh cfg st ↔ CountersVoid cfg st ∨ cfg.conns < 0 ∨ TailVoidsHigh st := by
  have tail : (st.latency.high = none ∨
      (Lagging (nsAt st.latency.top st.latency.high) (nsAt st.selfLag.top st.selfLag.high) ∧
        (lagFloorNs ≤ nsAt st.selfLag.top st.selfLag.high ∨ st.selfLag.high = none))) ↔
      TailVoidsHigh st := by
    unfold TailVoidsHigh
    rw [floor_high, ← Histogram.nth_eq_none]
    cases found : st.latency.high with
    | none => exact iff_of_true (.inl rfl) (.inl found)
    | some a =>
        rw [LateHigh, ← lagging_high found, ← found]
        exact Iff.rfl
  unfold VoidedHigh CountersVoid
  rw [tail, shed_iff]
  tauto

/-! ## Agreement -/

/-- Cutting the ranks off moves no sample over one of the three limits. -/
structure TailsAlike (st : Stats) : Prop where
  range : st.latency.CutAt Histogram.buckets →
    LateLow st ∧ st.selfLag.below floorBucket < st.selfLag.lowRank
  ratio : st.latency.highRank ≤ st.latency.below Histogram.buckets → (LateLow st ↔ LateHigh st)
  floor : st.latency.highRank ≤ st.latency.below Histogram.buckets → LateLow st →
    ¬ st.selfLag.CutAt floorBucket

/-- With the counters that only one of the tools voids. -/
structure Alike (cfg : Config) (st : Stats) : Prop where
  unwanted : Unwanted cfg st → cfg.conns < 0 ∨ TailVoidsHigh st
  negative : cfg.conns < 0 → Unwanted cfg st ∨ TailVoidsLow st
  tails : ¬ Unwanted cfg st → 0 ≤ cfg.conns → TailsAlike st

theorem tailsAlike_iff (st : Stats) :
    TailsAlike st ↔
      (TailVoidsLow st ↔ TailVoidsHigh st) ∧
        (¬ TailVoidsLow st → (LateLow st ↔ LateHigh st)) := by
  have low := st.latency.lowRank_le
  have floor := st.selfLag.cutAt_iff floorBucket
  have ranks := st.selfLag.lowRank_le
  unfold TailVoidsLow TailVoidsHigh
  rcases Nat.lt_or_ge (st.latency.below Histogram.buckets) st.latency.lowRank with few | some
  · -- not even the rank that was cut off is within the range
    refine iff_of_true ⟨fun cut => ?_, fun _ => ?_, fun _ => ?_⟩
      ⟨iff_of_true (.inl few) (.inl (by omega)), fun none => absurd (.inl few) none⟩
    · exact absurd cut.1 (Nat.ne_of_lt few)
    · omega
    · omega
  rcases Nat.lt_or_ge (st.latency.below Histogram.buckets) st.latency.highRank with cut | all
  · -- the range ends between the two ranks
    have cutAt := (st.latency.cutAt_iff Histogram.buckets).mpr ⟨some, cut⟩
    rw [or_iff_right (Nat.not_lt.mpr some)]
    constructor
    · intro alike
      have void := alike.range cutAt
      exact ⟨iff_of_true void (.inl cut), fun none => absurd void none⟩
    · rintro ⟨same, _⟩
      refine ⟨fun _ => same.mpr (.inl cut), fun _ => ?_, fun _ => ?_⟩ <;> omega
  · -- both ranks are within the range
    have uncut : ¬ st.latency.CutAt Histogram.buckets := fun cut => by
      have past := ((st.latency.cutAt_iff _).mp cut).2
      omega
    rw [or_iff_right (Nat.not_lt.mpr some), or_iff_right (Nat.not_lt.mpr all)]
    constructor
    · intro alike
      have same := alike.ratio all
      refine ⟨?_, fun _ => same⟩
      rw [← same]
      refine and_congr_right fun late => ?_
      have clear := mt floor.mpr (alike.floor all late)
      omega
    · rintro ⟨same, apart⟩
      have ratio : LateLow st ↔ LateHigh st := by
        by_cases void : LateLow st ∧ st.selfLag.below floorBucket < st.selfLag.lowRank
        · exact iff_of_true void.1 (same.mp void).1
        · exact apart void
      refine ⟨fun cut => absurd cut uncut, fun _ => ratio, fun _ late cut => ?_⟩
      obtain ⟨least, most⟩ := floor.mp cut
      have void := same.mpr ⟨ratio.mp late, most⟩
      omega

theorem lagging_low_of_clear {st : Stats} (clear : ¬ TailVoidsLow st) :
    Lagging (nsAt rangeNs st.latency.low) (nsAt rangeNs st.selfLag.low) ↔ LateLow st := by
  cases found : st.latency.low with
  | none => exact absurd (.inl (Histogram.nth_eq_none.mp found)) clear
  | some a => exact found ▸ lagging_low found

theorem lagging_high_of_clear {st : Stats} (clear : ¬ TailVoidsHigh st) :
    Lagging (nsAt st.latency.top st.latency.high) (nsAt st.selfLag.top st.selfLag.high) ↔
      LateHigh st := by
  cases found : st.latency.high with
  | none => exact absurd (.inl (Histogram.nth_eq_none.mp found)) clear
  | some a => exact found ▸ lagging_high found

/-- What the chains of the two tools come to. -/
theorem verdicts_eq_iff {cfg : Config} (st : Stats) (rate : 0 < cfg.rate)
    (duration : 0 < cfg.duration) :
    mergeVerdict [dumpStats cfg st] = report cfg st ↔
      (CountersVoid cfg st ∨ Unwanted cfg st ∨ TailVoidsLow st ↔
        CountersVoid cfg st ∨ cfg.conns < 0 ∨ TailVoidsHigh st) ∧
      (¬ (CountersVoid cfg st ∨ Unwanted cfg st ∨ TailVoidsLow st) →
        (Lagging (nsAt rangeNs st.latency.low) (nsAt rangeNs st.selfLag.low) ↔
          Lagging (nsAt st.latency.top st.latency.high) (nsAt st.selfLag.top st.selfLag.high))) := by
  obtain ⟨left, reported, low⟩ := report_judged st rate duration
  obtain ⟨right, merged, high⟩ := merge_judged cfg st
  rw [reported, merged, Option.some.injEq, eq_comm, ← voidedLow_iff, ← voidedHigh_iff]
  exact low.eq_iff high

theorem CountersVoid.verdicts {cfg : Config} {st : Stats} (counters : CountersVoid cfg st)
    (rate : 0 < cfg.rate) (duration : 0 < cfg.duration) :
    mergeVerdict [dumpStats cfg st] = report cfg st :=
  (verdicts_eq_iff st rate duration).mpr
    ⟨iff_of_true (.inl counters) (.inl counters), fun none => absurd (.inl counters) none⟩

theorem Alike.verdicts {cfg : Config} {st : Stats} (alike : Alike cfg st) (rate : 0 < cfg.rate)
    (duration : 0 < cfg.duration) : mergeVerdict [dumpStats cfg st] = report cfg st := by
  by_cases counters : CountersVoid cfg st
  · exact counters.verdicts rate duration
  rw [verdicts_eq_iff st rate duration, or_iff_right counters, or_iff_right counters]
  by_cases unwanted : Unwanted cfg st
  · exact ⟨iff_of_true (.inl unwanted) (alike.unwanted unwanted),
      fun none => absurd (.inl unwanted) none⟩
  by_cases negative : cfg.conns < 0
  · have tail := (alike.negative negative).resolve_left unwanted
    exact ⟨iff_of_true (.inr tail) (.inl negative), fun none => absurd (.inr tail) none⟩
  · obtain ⟨same, ratio⟩ := (tailsAlike_iff st).mp (alike.tails unwanted (Int.not_lt.mp negative))
    rw [or_iff_right unwanted, or_iff_right negative]
    refine ⟨same, fun clear => ?_⟩
    rw [lagging_low_of_clear clear, lagging_high_of_clear (mt same.mpr clear)]
    exact ratio clear

theorem alike_of_verdicts {cfg : Config} {st : Stats} (rate : 0 < cfg.rate)
    (duration : 0 < cfg.duration) (counters : ¬ CountersVoid cfg st)
    (agree : mergeVerdict [dumpStats cfg st] = report cfg st) : Alike cfg st := by
  rw [verdicts_eq_iff st rate duration, or_iff_right counters, or_iff_right counters] at agree
  obtain ⟨same, ratio⟩ := agree
  refine ⟨fun unwanted => same.mp (.inl unwanted), fun negative => same.mpr (.inl negative),
    fun wanted some => (tailsAlike_iff st).mpr ?_⟩
  rw [or_iff_right wanted, or_iff_right (Int.not_lt.mpr some)] at same
  refine ⟨same, fun clear => ?_⟩
  rw [← lagging_low_of_clear clear, ← lagging_high_of_clear (mt same.mpr clear)]
  exact ratio (not_or.mpr ⟨wanted, clear⟩)

/-- Unless the counters void the run for both, the two verdicts agree exactly when cutting the
ranks off moves no sample over a limit of the verdict. -/
theorem verdicts_agree_iff {cfg : Config} (st : Stats) (rate : 0 < cfg.rate)
    (duration : 0 < cfg.duration) :
    mergeVerdict [dumpStats cfg st] = report cfg st ↔ CountersVoid cfg st ∨ Alike cfg st := by
  constructor
  · exact fun agree => or_iff_not_imp_left.mpr fun counters =>
      alike_of_verdicts rate duration counters agree
  · rintro (counters | alike)
    · exact counters.verdicts rate duration
    · exact alike.verdicts rate duration

/-- Two messages, sent on time and read within ten milliseconds. -/
def quickDelivery : Stats where
  latency := .ofSamples [5000000, 7000000]
  selfLag := .ofSamples [10000, 20000]
  sent := 2
  framesIn := 2

theorem rank_two {h : Histogram} (two : h.total = 2) : h.lowRank = 1 ∧ h.highRank = 2 := by
  unfold Histogram.lowRank Histogram.highRank
  rw [two, Nat.floor_eq_iff (by norm_num), Nat.ceil_eq_iff (by decide)]
  norm_num

theorem quickDelivery_early {b : Nat} (inside : b ≤ Histogram.buckets) (early : b ≤ 5000) :
    quickDelivery.latency.below b = 0 := by
  have fits : Histogram.Fits [5000000, 7000000] := Histogram.fits_of_few (by decide)
  rw [show quickDelivery.latency = .ofSamples [5000000, 7000000] from rfl, fits.below inside]
  refine List.countP_eq_zero.mpr fun ns member => ?_
  have least : 5000000 ≤ ns := by
    rcases List.mem_pair.mp member with rfl | rfl <;> decide
  rw [decide_eq_true_eq, Histogram.bucketOf, Histogram.bucketNs]
  omega

theorem quickDelivery_range : quickDelivery.latency.below Histogram.buckets = 2 := by
  have fits : Histogram.Fits [5000000, 7000000] := Histogram.fits_of_few (by decide)
  rw [show quickDelivery.latency = .ofSamples [5000000, 7000000] from rfl,
    fits.below (Nat.le_refl _)]
  simp [Histogram.before, Histogram.bucketOf, Histogram.bucketNs, Histogram.buckets]

theorem quickDelivery_selfLag {b : Nat} (inside : b ≤ Histogram.buckets) (late : 20 < b) :
    quickDelivery.selfLag.below b = 2 := by
  have fits : Histogram.Fits [10000, 20000] := Histogram.fits_of_few (by decide)
  rw [show quickDelivery.selfLag = .ofSamples [10000, 20000] from rfl, fits.below inside]
  have both : 10 < b ∧ 20 < b := by omega
  simp [Histogram.before, Histogram.bucketOf, Histogram.bucketNs, both]

/-- The binary reads 5 ms against 10 us and the merger 7 ms against 20 us. -/
theorem verdicts_agree_iff_quick_delivery :
    mergeVerdict [dumpStats oneMessage quickDelivery] = report oneMessage quickDelivery := by
  refine (verdicts_agree_iff quickDelivery (by decide) (by decide)).mpr (.inr ?_)
  obtain ⟨low, high⟩ := rank_two (h := quickDelivery.latency) (Histogram.total_ofSamples _)
  obtain ⟨low', high'⟩ := rank_two (h := quickDelivery.selfLag) (Histogram.total_ofSamples _)
  have early : ∀ k m, 1 ≤ k → m ≤ 2 → ¬ Late quickDelivery.latency quickDelivery.selfLag k m := by
    rintro k m some few ⟨b, inside, taken, short⟩
    have slow : 5000 ≤ b := by
      by_contra quick
      rw [quickDelivery_early inside (by omega)] at taken
      omega
    have bucket : 20 < b / lagRatio + 1 ∧ b / lagRatio + 1 ≤ Histogram.buckets := by
      unfold lagRatio
      omega
    rw [quickDelivery_selfLag bucket.2 bucket.1] at short
    omega
  have quietLow : ¬ LateLow quickDelivery := early _ _ (by omega) (by omega)
  have quietHigh : ¬ LateHigh quickDelivery := early _ _ (by omega) (by omega)
  refine ⟨fun unwanted => absurd unwanted.1 (by decide), fun negative => absurd negative (by decide),
    fun _ _ => ⟨fun cut => ?_, fun _ => iff_of_false quietLow quietHigh, fun _ late _ => quietLow late⟩⟩
  have all := cut.1
  rw [quickDelivery_range, low] at all
  omega

/-! ## Ranks that no bucket ends at -/

theorem Histogram.rank_le_iff {h : Histogram} {b : Nat} (uncut : ¬ h.CutAt b) :
    h.lowRank ≤ h.below b ↔ h.highRank ≤ h.below b := by
  have least := h.lowRank_le
  rw [cutAt_iff] at uncut
  omega

/-- Ranks at which no bucket ends, a self-lag within range and a configuration that
`parse_args` accepts: nothing is left for the tools to differ on. -/
theorem verdicts_agree_of_uncut {cfg : Config} {st : Stats} (rate : 0 < cfg.rate)
    (duration : 0 < cfg.duration) (conns : 0 < cfg.conns) (perRoom : 0 < cfg.perRoom)
    (latency : ∀ b ≤ Histogram.buckets, 0 < b → ¬ st.latency.CutAt b)
    (selfLag : ∀ b ≤ Histogram.buckets, 0 < b → ¬ st.selfLag.CutAt b)
    (inside : st.selfLag.low ≠ none) :
    mergeVerdict [dumpStats cfg st] = report cfg st := by
  have filled := Histogram.buckets_pos
  have range : st.selfLag.highRank ≤ st.selfLag.below Histogram.buckets := by
    rw [← Histogram.rank_le_iff (selfLag _ (Nat.le_refl _) filled)]
    exact Nat.not_lt.mp (mt Histogram.nth_eq_none.mpr inside)
  have alike : TailsAlike st := by
    refine ⟨fun cut => absurd cut (latency _ (Nat.le_refl _) filled), fun _ => ?_,
      fun _ _ => selfLag _ floorBucket_inside (by decide)⟩
    unfold LateLow LateHigh Late
    rw [Nat.min_eq_left range]
    refine exists_congr fun b => and_congr_right fun within => and_congr ?_ ?_
    · exact Histogram.rank_le_iff (latency _ within (Nat.succ_pos b))
    · have bucket : b / lagRatio + 1 ≤ Histogram.buckets := div_lagRatio_lt within
      have same := Histogram.rank_le_iff (selfLag _ bucket (Nat.succ_pos _))
      omega
  exact Alike.verdicts ⟨fun unwanted => absurd unwanted.1 (ne_of_gt perRoom),
    fun negative => absurd conns (Int.not_lt.mpr (Int.le_of_lt negative)), fun _ _ => alike⟩
    rate duration

theorem Histogram.lowRank_eq {h : Histogram} (whole : 100 ∣ h.total) : h.lowRank = h.highRank := by
  obtain ⟨k, total⟩ := whole
  have rank : (99 / 100 : Rat) * h.total = (99 * k : Nat) := by
    rw [total]
    push_cast
    ring
  rw [lowRank, highRank, rank, Nat.floor_natCast, Nat.ceil_natCast]

theorem verdicts_agree_of_whole_ranks {cfg : Config} {st : Stats} (rate : 0 < cfg.rate)
    (duration : 0 < cfg.duration) (conns : 0 < cfg.conns) (perRoom : 0 < cfg.perRoom)
    (latency : 100 ∣ st.latency.total) (selfLag : 100 ∣ st.selfLag.total)
    (inside : st.selfLag.low ≠ none) :
    mergeVerdict [dumpStats cfg st] = report cfg st :=
  verdicts_agree_of_uncut rate duration conns perRoom
    (fun _ _ _ cut => absurd cut.2 (Nat.not_lt.mpr (Histogram.lowRank_eq latency).ge))
    (fun _ _ _ cut => absurd cut.2 (Nat.not_lt.mpr (Histogram.lowRank_eq selfLag).ge)) inside

/-! ## A delivery past the range -/

/-- The message was sent on time and its delivery took two seconds. -/
def slowDelivery : Stats where
  latency := .ofSamples [2000000000]
  selfLag := .ofSamples [0]
  sent := 1
  framesIn := 1

theorem rank_one {h : Histogram} (one : h.total = 1) : h.lowRank = 0 ∧ h.highRank = 1 := by
  unfold Histogram.lowRank Histogram.highRank
  rw [one, Nat.floor_eq_zero, Nat.ceil_eq_iff (by decide)]
  norm_num

theorem slowDelivery_range : slowDelivery.latency.below Histogram.buckets = 0 := by
  have fits : Histogram.Fits [2000000000] := Histogram.fits_of_few (by decide)
  rw [show slowDelivery.latency = .ofSamples [2000000000] from rfl, fits.below (Nat.le_refl _)]
  simp [Histogram.before, Histogram.bucketOf, Histogram.bucketNs, Histogram.buckets]

/-- The binary says OK and exits with 0, the merger VOID and with 3. -/
theorem slow_delivery_verdicts_differ :
    mergeVerdict [dumpStats oneMessage slowDelivery] ≠ report oneMessage slowDelivery ∧
      (mergeVerdict [dumpStats oneMessage slowDelivery]).map Verdict.exitStatus = some 3 ∧
      (report oneMessage slowDelivery).map Verdict.exitStatus = some 0 := by
  obtain ⟨left, reported, low⟩ :=
    report_judged slowDelivery (show 0 < oneMessage.rate by decide) (by decide)
  obtain ⟨right, merged, high⟩ := merge_judged oneMessage slowDelivery
  have one : slowDelivery.latency.total = 1 := Histogram.total_ofSamples _
  have first : ∀ h : Histogram, h.total = 1 → h.low = some 0 := fun h one => by
    rw [Histogram.low, (rank_one one).1, Histogram.nth_zero]
  have void : right = .void := by
    refine high.void.mpr (.inr (.inr (.inr (.inl ?_))))
    refine Histogram.nth_eq_none.mpr ?_
    rw [slowDelivery_range, (rank_one one).2]
    exact Nat.zero_lt_one
  have ok : left ≠ .void := by
    rw [ne_eq, low.void]
    unfold VoidedLow
    rw [first _ one, first _ (Histogram.total_ofSamples _), one]
    simp only [FanoutOff, fanout, Shed, Lagging, nsAt, Histogram.reading, oneMessage, slowDelivery]
    norm_num
    simp
  rw [merged, reported, void]
  refine ⟨fun same => ok (Option.some.inj same).symm, rfl, ?_⟩
  cases left with
  | void => exact absurd rfl ok
  | ok | warn => rfl

end NetEngine.Bench
