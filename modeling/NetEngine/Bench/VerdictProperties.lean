import NetEngine.Bench.Merge

/-! The binary's verdict and the merger's verdict on the dump of the same run.
The binary reads the sample of rank `⌊0.99 n⌋`, the merger that of rank
`⌈0.99 n⌉`; past the range they use different stand-ins. -/

set_option autoImplicit false

namespace NetEngine.Bench

/-! ## Counters -/

namespace Counter

theorem add_all (bs : List Nat) (n : Nat → Nat) (counts : Counter) (once : bs.Nodup)
    (fresh : ∀ b ∈ bs, b ∉ counts.keys) :
    bs.foldl (fun counts b => counts.add b (n b)) counts =
      ⟨counts.keys ++ bs, fun b => if b ∈ bs then counts.count b + n b else counts.count b⟩ := by
  induction bs generalizing counts with
  | nil => simp
  | cons b bs ih =>
      obtain ⟨later, once⟩ := List.nodup_cons.mp once
      have new : b ∉ counts.keys := fresh b List.mem_cons_self
      rw [List.foldl_cons, ih _ once]
      · simp only [Counter.add, new, if_false, List.append_assoc, List.singleton_append]
        congr 1
        funext key
        by_cases same : key = b
        · subst same
          simp [later]
        · simp [same]
      · intro other member
        simp only [Counter.add, new, if_false, List.mem_append, List.mem_singleton, not_or]
        refine ⟨fresh other (List.mem_cons_of_mem _ member), ?_⟩
        rintro rfl
        exact later member

/-- The counter read from the lines of distinct buckets. -/
def ofBuckets (bs : List Nat) (n : Nat → Nat) : Counter := ⟨bs, fun b => if b ∈ bs then n b else 0⟩

theorem read_buckets {bs : List Nat} (once : bs.Nodup) (n : Nat → Nat) :
    bs.foldl (fun counts b => counts.add b (n b)) empty = ofBuckets bs n := by
  rw [add_all bs n empty once (by simp [empty])]
  simp [ofBuckets, empty]

theorem update_empty {bs : List Nat} (once : bs.Nodup) (n : Nat → Nat) :
    empty.update (ofBuckets bs n) = ofBuckets bs n := by
  unfold update
  rw [show (ofBuckets bs n).keys = bs from rfl, read_buckets once]
  simp only [ofBuckets]
  congr 1
  funext b
  split <;> rfl

theorem sorted_ofBuckets {bs : List Nat} (ordered : bs.Pairwise (· ≤ ·)) (n : Nat → Nat) :
    (ofBuckets bs n).sorted = bs :=
  List.mergeSort_of_pairwise (ordered.imp fun ordered => by simpa using ordered)

end Counter

/-! ## The histogram after the dump -/

/-- What `parse` makes of one dumped histogram. -/
def Hist.ofHistogram (h : Histogram) : Hist where
  counts := .ofBuckets h.occupied h.counts
  total := h.total
  overflow := h.overflow
  minNs := if h.total = 0 then none else some h.min
  maxNs := h.max
  bucketNs := Histogram.bucketNs

theorem Hist.merge_empty (h : Histogram) :
    Hist.empty.merge (.ofBuckets h.occupied h.counts) h.total h.overflow
      (if h.total = 0 then 0 else h.min) h.max Histogram.bucketNs = some (.ofHistogram h) := by
  have counts := Counter.update_empty h.occupied_nodup h.counts
  unfold Hist.merge Hist.ofHistogram
  generalize Counter.ofBuckets h.occupied h.counts = read at counts ⊢
  rw [if_neg (by simp [Hist.empty])]
  simp only [Hist.empty, counts, Nat.zero_add, Nat.zero_max]
  split <;> simp_all

theorem Merged.body_buckets (merged : Merged) (block : Block) (bs : List Nat) (n : Nat → Nat)
    (lines : List Line) :
    merged.body (some block) (bs.map (fun b => .bucket b (n b)) ++ .close :: lines) =
      (merged.take { block with
        counts := bs.foldl (fun counts b => counts.add b (n b)) block.counts }).bind
        fun merged => merged.body none lines := by
  induction bs generalizing block with
  | nil => rfl
  | cons b bs ih => exact ih _

theorem Merged.body_block (merged : Merged) (label : Label)
    (total overflow minNs maxNs bucketNs : Nat) {bs : List Nat} (once : bs.Nodup) (n : Nat → Nat)
    (lines : List Line) :
    merged.body none ((.hist label total overflow minNs maxNs bucketNs ::
        bs.map (fun b => .bucket b (n b)) ++ [.close]) ++ lines) =
      (merged.take ⟨label, .ofBuckets bs n, total, overflow, minNs, maxNs, bucketNs⟩).bind
        fun merged => merged.body none lines := by
  rw [← Counter.read_buckets once, List.append_assoc]
  exact Merged.body_buckets merged _ bs n lines

theorem Merged.body_histogram (merged : Merged) (label : Label) (h : Histogram)
    (lines : List Line) :
    merged.body none (dumpHistogram label h ++ lines) =
      (merged.take ⟨label, .ofBuckets h.occupied h.counts, h.total, h.overflow,
        if h.total = 0 then 0 else h.min, h.max, Histogram.bucketNs⟩).bind
        fun merged => merged.body none lines :=
  merged.body_block label h.total h.overflow _ h.max _ h.occupied_nodup h.counts lines

theorem Merged.take_latency {merged : Merged} (none : merged.lat = .empty) (h : Histogram) :
    merged.take ⟨.latency, .ofBuckets h.occupied h.counts, h.total, h.overflow,
      if h.total = 0 then 0 else h.min, h.max, Histogram.bucketNs⟩ =
      some { merged with lat := .ofHistogram h } := by
  simp only [Merged.take, none, Hist.merge_empty, Option.map_some]

theorem Merged.take_selfLag {merged : Merged} (none : merged.lag = .empty) (h : Histogram) :
    merged.take ⟨.selfLag, .ofBuckets h.occupied h.counts, h.total, h.overflow,
      if h.total = 0 then 0 else h.min, h.max, Histogram.bucketNs⟩ =
      some { merged with lag := .ofHistogram h } := by
  simp only [Merged.take, none, Hist.merge_empty, Option.map_some]

/-- The scalar lines of one dump, parsed. -/
def Merged.scalars (cfg : Config) (st : Stats) : Merged where
  lat := .empty
  lag := .empty
  sum
    | .conns => cfg.conns
    | .sent => st.sent
    | .framesIn => st.framesIn
    | .bytesIn => st.bytesIn
    | .unparsed => st.samplesBad
    | .foreign => st.foreign
    | .backpressed => st.backpressed
    | .lostConns => st.lostConns
  first
    | .perRoom => some cfg.perRoom
    | .rate => some (sixDigits cfg.rate)
    | .duration => some cfg.duration
  nodes := [cfg.node.toNat]
  constants := some (lagFloorNs, lagRatio)

theorem Merged.parse_scalars (cfg : Config) (st : Stats) (lines : List Line) :
    Merged.empty.parse (dumpScalars cfg st ++ lines) = (Merged.scalars cfg st).body none lines := by
  simp only [dumpScalars, List.cons_append, List.nil_append, Merged.parse, Merged.empty,
    Merged.body, Merged.scalars]
  simp only [ne_eq, not_true_eq_false, if_false, Option.getD_none]
  congr 2
  · funext key
    cases key <;> simp
  · funext key
    cases key <;> simp

/-- What `merge.py` knows after one dump. -/
theorem Merged.parse_dump (cfg : Config) (st : Stats) :
    Merged.empty.parse (dumpStats cfg st) = some { Merged.scalars cfg st with
      lat := .ofHistogram st.latency, lag := .ofHistogram st.selfLag } := by
  have last := Merged.body_histogram { Merged.scalars cfg st with lat := .ofHistogram st.latency }
    .selfLag st.selfLag []
  rw [List.append_nil, Merged.take_selfLag rfl, Option.bind_some, Merged.body] at last
  rw [dumpStats, List.append_assoc, Merged.parse_scalars, Merged.body_histogram,
    Merged.take_latency rfl, Option.bind_some, last]

/-! ## Percentiles -/

/-- The highest occupied bucket, in nanoseconds. -/
def Histogram.top (h : Histogram) : Nat := h.occupied.foldl Max.max 0 * Histogram.bucketNs

theorem Hist.scan_eq (h : Histogram) (counts : Counter) {want : Rat} {left b : Nat}
    (same : ∀ i, b ≤ i → i < b + left → h.counts i ≠ 0 → counts.count i = h.counts i)
    (low : (h.below b : Rat) < want) :
    Hist.scan counts want ((List.range' b left).filter fun i => h.counts i ≠ 0) (h.below b) =
      (List.range' b left).find? fun i => ⌈want⌉₊ ≤ h.below (i + 1) := by
  induction left generalizing b with
  | zero => rfl
  | succ left ih =>
      have later : ∀ i, b + 1 ≤ i → i < b + 1 + left → h.counts i ≠ 0 →
          counts.count i = h.counts i :=
        fun i above below => same i (by omega) (by omega)
      rw [List.range'_succ, List.find?_cons]
      by_cases reached : ⌈want⌉₊ ≤ h.below (b + 1)
      · have filled : h.counts b ≠ 0 := by
          intro hollow
          rw [h.below_succ, hollow, Nat.add_zero, Nat.ceil_le] at reached
          exact absurd reached (not_le.mpr low)
        rw [List.filter_cons_of_pos (by simpa using filled), Hist.scan,
          same b (Nat.le_refl b) (by omega) filled, ← h.below_succ]
        simp [Nat.ceil_le.mp reached, reached]
      · have short : (h.below (b + 1) : Rat) < want := by
          rw [Nat.ceil_le] at reached
          exact not_le.mp reached
        have rest := ih later short
        simp only [reached, decide_false]
        by_cases filled : h.counts b = 0
        · rw [List.filter_cons_of_neg (by simpa using filled)]
          rw [h.below_succ, filled, Nat.add_zero] at rest
          exact rest
        · rw [List.filter_cons_of_pos (by simpa using filled), Hist.scan,
            same b (Nat.le_refl b) (by omega) filled, ← h.below_succ]
          simp only [not_le.mpr short, if_false]
          exact rest

theorem Hist.scan_zero (h : Histogram) (counts : Counter) {want : Rat} {n : Nat}
    (same : ∀ b ∈ (List.range n).filter fun b => h.counts b ≠ 0, counts.count b = h.counts b)
    (positive : 0 < want) :
    Hist.scan counts want ((List.range n).filter fun b => h.counts b ≠ 0) 0 =
      (List.range n).find? fun b => ⌈want⌉₊ ≤ h.below (b + 1) := by
  rw [List.range_eq_range']
  refine Hist.scan_eq h counts ?_ (by simpa [Histogram.below] using positive)
  intro b _ inside filled
  exact same b (by simp [filled]; omega)

/-- The merger reads the sample whose rank is the product rounded up. -/
theorem Hist.pct_eq (h : Histogram) {p : Rat} (positive : 0 < p) :
    (Hist.ofHistogram h).pct p =
      Histogram.reading Histogram.bucketNs h.top (h.nth ⌈p * h.total⌉₊) := by
  have sorted := Counter.sorted_ofBuckets h.occupied_sorted h.counts
  have same : ∀ b ∈ h.occupied, (Counter.ofBuckets h.occupied h.counts).count b = h.counts b := by
    intro b member
    simp [Counter.ofBuckets, member]
  unfold Hist.pct
  by_cases none : h.total = 0
  · rw [none, Nat.cast_zero, mul_zero, Nat.ceil_zero, h.nth_zero, Histogram.reading, Nat.zero_mul]
    exact if_pos none
  · have some : (0 : Rat) < h.total := Nat.cast_pos.mpr (Nat.pos_of_ne_zero none)
    have total : ¬ (Hist.ofHistogram h).total = 0 := none
    rw [if_neg total]
    simp only [Hist.ofHistogram]
    rw [sorted, Histogram.nth]
    rw [← Hist.scan_zero h (Counter.ofBuckets h.occupied h.counts) same (mul_pos positive some)]
    rw [← Histogram.occupied, Histogram.top, Counter.ofBuckets]

/-! ## Verdicts -/

/-- The rank that the binary takes for its p99. -/
def Histogram.lowRank (h : Histogram) : Nat := ⌊(99 / 100 : Rat) * h.total⌋₊

/-- The rank that the merger takes. -/
def Histogram.highRank (h : Histogram) : Nat := ⌈(99 / 100 : Rat) * h.total⌉₊

/-- The sample that the binary reads. -/
def Histogram.low (h : Histogram) : Option Nat := h.nth h.lowRank

/-- The sample that the merger reads. -/
def Histogram.high (h : Histogram) : Option Nat := h.nth h.highRank

/-- The nanoseconds that a sample stands for. -/
def nsAt (past : Nat) (rank : Option Nat) : Nat := (Histogram.reading Histogram.bucketNs past rank).1

def rangeNs : Nat := Histogram.buckets * Histogram.bucketNs

theorem reading_eq (past : Nat) (rank : Option Nat) :
    Histogram.reading Histogram.bucketNs past rank = (nsAt past rank, rank.isNone) := by
  cases rank <;> rfl

theorem Histogram.pct_low (h : Histogram) :
    h.pct (99 / 100) = (nsAt rangeNs h.low, h.low.isNone) := by
  rw [h.pct_eq, reading_eq, low, lowRank, rangeNs]

theorem Hist.pct_high (h : Histogram) :
    (Hist.ofHistogram h).pct (99 / 100) = (nsAt h.top h.high, h.high.isNone) := by
  rw [Hist.pct_eq h (by norm_num), reading_eq, Histogram.high, Histogram.highRank]

/-- Measured fan-out outside the five percent band around `--per-room`. -/
def FanoutOff (cfg : Config) (st : Stats) : Prop :=
  st.sent ≠ 0 ∧ ((cfg.perRoom : Rat) * (105 / 100) < fanout st ∨
    fanout st < (cfg.perRoom : Rat) * (95 / 100))

/-- More than half a percent of the connections died. -/
def Shed (cfg : Config) (st : Stats) : Prop := (5 / 1000 : Rat) * cfg.conns < st.lostConns

/-- Self-lag is not small against latency. -/
def Lagging (lat lag : Nat) : Prop := lat < lag * lagRatio

/-- Causes to void at the ranks rounded down; a sample past the range counts as
the range limit. -/
def VoidedLow (cfg : Config) (st : Stats) : Prop :=
  FanoutOff cfg st ∨ (0 < cfg.conns ∧ Shed cfg st) ∨ st.latency.total = 0 ∨
    st.latency.low = none ∨
    (Lagging (nsAt rangeNs st.latency.low) (nsAt rangeNs st.selfLag.low) ∧
      lagFloorNs ≤ nsAt rangeNs st.selfLag.low)

/-- Causes to void at the ranks rounded up; a sample past the range counts as the
highest occupied bucket. -/
def VoidedHigh (cfg : Config) (st : Stats) : Prop :=
  (cfg.perRoom ≠ 0 ∧ FanoutOff cfg st) ∨ (cfg.conns ≠ 0 ∧ Shed cfg st) ∨ st.latency.total = 0 ∨
    st.latency.high = none ∨
    (Lagging (nsAt st.latency.top st.latency.high) (nsAt st.selfLag.top st.selfLag.high) ∧
      (lagFloorNs ≤ nsAt st.selfLag.top st.selfLag.high ∨ st.selfLag.high = none))

/-- A verdict is settled by whether a cause to void exists and, if not, by the ratio. -/
structure Judged (verdict : Verdict) (voided lagging : Prop) : Prop where
  void : verdict = .void ↔ voided
  warn : verdict = .warn ↔ ¬ voided ∧ lagging

theorem Judged.eq_iff {left right : Verdict} {voided voided' lagging lagging' : Prop}
    (first : Judged left voided lagging) (second : Judged right voided' lagging') :
    left = right ↔ (voided ↔ voided') ∧ (¬ voided → (lagging ↔ lagging')) := by
  obtain ⟨void, warn⟩ := first
  obtain ⟨void', warn'⟩ := second
  rw [← void, ← void']
  rw [← void] at warn
  rw [← void'] at warn'
  cases left <;> cases right <;> simp_all

/-- The order of the tests, which both tools share. -/
theorem judged_chain (fan shed empty beyond lagging late : Prop) [Decidable fan] [Decidable shed]
    [Decidable empty] [Decidable beyond] [Decidable lagging] [Decidable late] :
    Judged (if fan then .void else if shed then .void else if empty then .void
      else if beyond then .void else if lagging ∧ late then .void
      else if lagging then .warn else .ok)
      (fan ∨ shed ∨ empty ∨ beyond ∨ (lagging ∧ late)) lagging := by
  by_cases gated : fan ∨ shed ∨ empty ∨ beyond
  · rcases gated with yes | yes | yes | yes <;> constructor <;> simp [yes]
  · obtain ⟨noFan, noShed, some, within⟩ : ¬ fan ∧ ¬ shed ∧ ¬ empty ∧ ¬ beyond := by
      simpa only [not_or] using gated
    by_cases ratio : lagging
    · by_cases floor : late <;> constructor <;> simp [noFan, noShed, some, within, ratio, floor]
    · constructor <;> simp [noFan, noShed, some, within, ratio]

theorem Judged.congr {verdict : Verdict} {voided voided' lagging : Prop}
    (judged : Judged verdict voided lagging) (same : voided ↔ voided') :
    Judged verdict voided' lagging :=
  ⟨judged.void.trans same, judged.warn.trans (by rw [same])⟩

theorem report_judged {cfg : Config} (st : Stats) (rate : 0 < cfg.rate) (duration : 0 < cfg.duration) :
    ∃ verdict, report cfg st = some verdict ∧ Judged verdict (VoidedLow cfg st)
      (Lagging (nsAt rangeNs st.latency.low) (nsAt rangeNs st.selfLag.low)) := by
  have traffic : ¬ (cfg.rate ≤ 0 ∨ cfg.duration ≤ 0) := by
    rw [not_or, not_le, not_le]
    exact ⟨rate, duration⟩
  unfold report
  rw [if_neg traffic, Histogram.pct_low, Histogram.pct_low]
  refine ⟨_, rfl, ?_⟩
  unfold VoidedLow Lagging FanoutOff Shed fanoutBad
  refine (judged_chain ..).congr ?_
  rw [Int.floor_lt, Option.isNone_iff_eq_none, decide_eq_true_eq]
  exact Iff.rfl

theorem merge_judged (cfg : Config) (st : Stats) :
    ∃ verdict, mergeVerdict [dumpStats cfg st] = some verdict ∧ Judged verdict (VoidedHigh cfg st)
      (Lagging (nsAt st.latency.top st.latency.high) (nsAt st.selfLag.top st.selfLag.high)) := by
  have parsed : Merged.parseAll [dumpStats cfg st] = some { Merged.scalars cfg st with
      lat := .ofHistogram st.latency, lag := .ofHistogram st.selfLag } := by
    rw [Merged.parseAll, List.foldlM_cons, Merged.parse_dump]
    rfl
  unfold mergeVerdict
  rw [parsed, Option.bind_some]
  unfold Merged.verdict
  simp only [Merged.scalars, Option.map_some]
  rw [Hist.pct_high, Hist.pct_high]
  refine ⟨_, rfl, ?_⟩
  unfold VoidedHigh Lagging FanoutOff Shed
  refine (judged_chain ..).congr ?_
  rw [Option.isNone_iff_eq_none, Option.isNone_iff_eq_none]
  generalize nsAt st.latency.top st.latency.high = lat
  generalize nsAt st.selfLag.top st.selfLag.high = lag
  generalize st.latency.high = latHigh
  generalize st.selfLag.high = lagHigh
  have fan : (((st.sent : Int) ≠ 0 ∧ (cfg.perRoom : Rat) ≠ 0) ∧
      ¬ ((cfg.perRoom : Rat) * (95 / 100) ≤ ((st.framesIn : Int) : Rat) / ((st.sent : Int) : Rat) ∧
        ((st.framesIn : Int) : Rat) / ((st.sent : Int) : Rat) ≤ (cfg.perRoom : Rat) * (105 / 100))) ↔
      (cfg.perRoom ≠ 0 ∧ FanoutOff cfg st) := by
    rw [FanoutOff, fanout, not_and_or, not_le, not_le, Int.cast_natCast, Int.cast_natCast]
    simp only [ne_eq, Int.natCast_eq_zero, Int.cast_eq_zero]
    tauto
  unfold FanoutOff at fan
  rw [Option.getD_some, fan, Int.cast_natCast]
  exact Iff.rfl

/-- One connection, alone in its room. -/
def oneMessage : Config := ⟨1, 1, 1, 1, 64, false, 0, false, []⟩

end NetEngine.Bench
