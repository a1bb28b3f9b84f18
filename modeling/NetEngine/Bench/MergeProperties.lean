import Mathlib.Data.List.Sort
import NetEngine.Bench.DumpRoundTrip
import NetEngine.Bench.HistogramProperties
import NetEngine.Bench.VerdictProperties

/-! Merging the dumps of many processes is taking one histogram of all their
samples. -/

set_option autoImplicit false

namespace NetEngine.Bench

/-! ## Counters -/

namespace Counter

/-- No bucket is kept twice, and the ones kept are those that count something. -/
structure Tidy (counts : Counter) : Prop where
  nodup : counts.keys.Nodup
  filled : ∀ b, b ∈ counts.keys ↔ counts.count b ≠ 0

theorem Tidy.absent {counts : Counter} (tidy : counts.Tidy) {b : Nat} (missing : b ∉ counts.keys) :
    counts.count b = 0 :=
  not_not.mp ((tidy.filled b).not.mp missing)

theorem Tidy.add {counts : Counter} (tidy : counts.Tidy) (b n : Nat) (some : n ≠ 0) :
    (counts.add b n).Tidy where
  nodup := by
    unfold Counter.add
    split
    · exact tidy.nodup
    · exact List.concat_eq_append ▸ tidy.nodup.concat ‹_›
  filled := by
    intro key
    have own := tidy.filled key
    by_cases same : key = b
    · subst same
      simp only [Counter.add, if_true]
      split <;> simp_all
    · simp only [Counter.add, same, if_false]
      split <;> simp_all

theorem add_count (counts : Counter) (b n key : Nat) :
    (counts.add b n).count key = counts.count key + if key = b then n else 0 := by
  simp only [Counter.add]
  split <;> rfl

/-- Buckets of the other counter are added one after another. -/
theorem Tidy.addAll {bs : List Nat} {n : Nat → Nat} {counts : Counter} (tidy : counts.Tidy)
    (once : bs.Nodup) (some : ∀ b ∈ bs, n b ≠ 0) :
    (bs.foldl (fun counts b => counts.add b (n b)) counts).Tidy ∧
      ∀ key, (bs.foldl (fun counts b => counts.add b (n b)) counts).count key =
        counts.count key + if key ∈ bs then n key else 0 := by
  induction bs generalizing counts with
  | nil => exact ⟨tidy, fun key => by simp⟩
  | cons b bs ih =>
      obtain ⟨new, once⟩ := List.nodup_cons.mp once
      obtain ⟨kept, rest⟩ := ih (tidy.add b (n b) (some b List.mem_cons_self)) once
        fun other member => some other (List.mem_cons_of_mem b member)
      refine ⟨kept, fun key => ?_⟩
      rw [List.foldl_cons, rest, add_count]
      by_cases same : key = b
      · subst same
        simp [new]
      · simp [same]

theorem Tidy.update {counts other : Counter} (tidy : counts.Tidy) (tidy' : other.Tidy) :
    (counts.update other).Tidy ∧
      ∀ key, (counts.update other).count key = counts.count key + other.count key := by
  obtain ⟨kept, sums⟩ := tidy.addAll (n := other.count) tidy'.nodup fun b => (tidy'.filled b).mp
  refine ⟨kept, fun key => (sums key).trans ?_⟩
  split
  · rfl
  next missing => rw [tidy'.absent missing]

theorem tidy_empty : empty.Tidy := ⟨List.nodup_nil, fun b => by simp [empty]⟩

/-- Two tidy counters with the same counts differ at most in the order of their keys. -/
theorem Tidy.perm {left right : Counter} (tidy : left.Tidy) (tidy' : right.Tidy)
    (same : ∀ b, left.count b = right.count b) : left.keys.Perm right.keys := by
  rw [List.perm_ext_iff_of_nodup tidy.nodup tidy'.nodup]
  intro b
  rw [tidy.filled, tidy'.filled, same]

theorem sorted_eq {left right : Counter} (perm : left.keys.Perm right.keys) :
    left.sorted = right.sorted := by
  have order (keys : List Nat) : (keys.mergeSort (· ≤ ·)).Pairwise (· ≤ ·) := by
    have sorted : (keys.mergeSort (· ≤ ·)).Pairwise fun a b => decide (a ≤ b) = true :=
      List.pairwise_mergeSort (by simpa using fun _ _ _ => Nat.le_trans)
        (by simpa using Nat.le_total) keys
    exact sorted.imp fun le => of_decide_eq_true le
  refine List.Perm.eq_of_pairwise (fun a b _ _ => Nat.le_antisymm) (order _) (order _) ?_
  exact ((List.mergeSort_perm _ _).trans perm).trans (List.mergeSort_perm _ _).symm

end Counter

/-! ## One histogram of all samples -/

namespace Hist

/-- The histogram of some samples, whose counts do not wrap. -/
def ofSamples (samples : List Int) : Hist where
  counts := .ofBuckets
    ((List.range Histogram.buckets).filter fun b => Histogram.inBucket samples b ≠ 0)
    (Histogram.inBucket samples)
  total := samples.length
  overflow := samples.countP fun ns => Histogram.buckets ≤ Histogram.bucketOf ns
  minNs := (samples.map Int.toNat).min?
  maxNs := (samples.map Int.toNat).foldl max 0
  bucketNs := Histogram.bucketNs

/-- The same numbers, with buckets seen in some other order. -/
structure Same (left right : Hist) : Prop where
  keys : left.counts.keys.Perm right.counts.keys
  count : ∀ b, left.counts.count b = right.counts.count b
  total : left.total = right.total
  overflow : left.overflow = right.overflow
  minNs : left.minNs = right.minNs
  maxNs : left.maxNs = right.maxNs
  bucketNs : left.bucketNs = right.bucketNs

theorem Same.refl (h : Hist) : h.Same h := ⟨List.Perm.refl _, fun _ => rfl, rfl, rfl, rfl, rfl, rfl⟩

theorem scan_congr {left right : Counter} (same : ∀ b, left.count b = right.count b) (want : Rat)
    (bs : List Nat) (seen : Nat) : scan left want bs seen = scan right want bs seen := by
  induction bs generalizing seen with
  | nil => rfl
  | cons b bs ih =>
      simp only [scan, same, ih]

theorem Same.pct {left right : Hist} (same : left.Same right) (p : Rat) :
    left.pct p = right.pct p := by
  have top : left.counts.keys.foldl max 0 = right.counts.keys.foldl max 0 :=
    same.keys.foldl_eq 0
  simp only [Hist.pct, same.total, same.bucketNs, top, Counter.sorted_eq same.keys,
    scan_congr same.count]

theorem count_ofSamples (samples : List Int) (b : Nat) :
    (ofSamples samples).counts.count b =
      if b < Histogram.buckets then Histogram.inBucket samples b else 0 := by
  simp only [ofSamples, Counter.ofBuckets, List.mem_filter, List.mem_range, decide_eq_true_eq]
  by_cases inside : b < Histogram.buckets
  · by_cases hollow : Histogram.inBucket samples b = 0
    · simp [hollow]
    · simp [inside, hollow]
  · simp [inside]

theorem tidy_ofSamples (samples : List Int) : (ofSamples samples).counts.Tidy where
  nodup := List.nodup_range.filter _
  filled := by
    intro b
    rw [count_ofSamples]
    simp only [ofSamples, Counter.ofBuckets, List.mem_filter, List.mem_range, decide_eq_true_eq]
    split <;> simp_all

-- The width is compared through this lemma: the samples stay out of the comparison.
theorem bucketNs_ofSamples (samples : List Int) :
    (ofSamples samples).bucketNs = Histogram.bucketNs :=
  rfl

theorem inBucket_append (left right : List Int) (b : Nat) :
    Histogram.inBucket (left ++ right) b = Histogram.inBucket left b + Histogram.inBucket right b :=
  List.countP_append

/-- Nothing depends on the order of the samples. -/
theorem ofSamples_perm {left right : List Int} (perm : left.Perm right) :
    ofSamples left = ofSamples right := by
  have inBucket : Histogram.inBucket left = Histogram.inBucket right := by
    funext b
    exact perm.countP_eq _
  have overflow := perm.countP_eq fun ns => decide (Histogram.buckets ≤ Histogram.bucketOf ns)
  have least : (left.map Int.toNat).min? = (right.map Int.toNat).min? := by
    refine Option.ext fun low => ?_
    simp only [List.min?_eq_some_iff, (perm.map Int.toNat).mem_iff]
  have most : (left.map Int.toNat).foldl max 0 = (right.map Int.toNat).foldl max 0 :=
    (perm.map Int.toNat).foldl_eq 0
  simp only [ofSamples, inBucket, perm.length_eq, overflow, least, most]

theorem min_append (left right : List Nat) :
    (left ++ right).min? = match right.min? with
      | none => left.min?
      | some low => some (match left.min? with
        | none => low
        | some least => min least low) := by
  cases left with
  | nil =>
      rw [List.nil_append]
      cases right.min? <;> rfl
  | cons x left =>
      cases right with
      | nil => simp
      | cons y right =>
          simp only [List.cons_append, List.min?_cons', List.foldl_append, List.foldl_cons,
            List.foldl_assoc]

theorem max_append (left right : List Nat) :
    (left ++ right).foldl max 0 = max (left.foldl max 0) (right.foldl max 0) := by
  rw [List.foldl_append]
  have start : left.foldl max 0 = max (left.foldl max 0) 0 := (Nat.max_zero _).symm
  rw [start, List.foldl_assoc, ← start]

/-- Merging one histogram into another adds its samples. -/
theorem Same.merge {h other : Hist} {seen samples : List Int} (same : h.Same (ofSamples seen))
    (tidy : h.counts.Tidy) (same' : other.Same (ofSamples samples)) (tidy' : other.counts.Tidy)
    {minNs : Nat} (low : samples ≠ [] → other.minNs = some minNs) :
    ∃ merged, h.merge other.counts other.total other.overflow minNs other.maxNs other.bucketNs =
        some merged ∧
      merged.Same (ofSamples (seen ++ samples)) ∧ merged.counts.Tidy := by
  obtain ⟨kept, sums⟩ := tidy.update tidy'
  have count (b : Nat) : (h.counts.update other.counts).count b =
      (ofSamples (seen ++ samples)).counts.count b := by
    rw [sums, same.count, same'.count, count_ofSamples, count_ofSamples, count_ofSamples,
      inBucket_append]
    split <;> rfl
  have width : ¬ (h.total ≠ 0 ∧ other.bucketNs ≠ h.bucketNs) := by
    rw [same.bucketNs, same'.bucketNs, bucketNs_ofSamples, bucketNs_ofSamples]
    exact fun differ => differ.2 rfl
  refine ⟨_, if_neg width, ?_, kept⟩
  exact {
    keys := kept.perm (tidy_ofSamples _) count
    count
    total := by
      simp only [same.total, same'.total, ofSamples, List.length_append]
    overflow := by
      simp only [same.overflow, same'.overflow, ofSamples, List.countP_append]
    minNs := by
      rw [same'.minNs] at low
      simp only [same.minNs, same'.total]
      simp only [ofSamples, List.map_append, min_append] at low ⊢
      cases samples with
      | nil => simp
      | cons ns samples =>
          rw [low (List.cons_ne_nil ns samples)]
          cases (seen.map Int.toNat).min? <;> simp
    maxNs := by
      simp only [same.maxNs, same'.maxNs, ofSamples, List.map_append, max_append]
    bucketNs := same'.bucketNs.trans
      ((bucketNs_ofSamples samples).trans (bucketNs_ofSamples _).symm) }

end Hist

/-! ## Samples of a process -/

theorem Histogram.min_ofSamples (samples : List Int) :
    (ofSamples samples).min = (samples.map Int.toNat).foldl Min.min (2 ^ 63 - 1) := by
  induction samples using List.reverseRecOn with
  | nil => rfl
  | append_singleton samples ns ih =>
      rw [ofSamples_snoc, add_min, ih, List.map_append, List.foldl_append]
      rfl

theorem Histogram.max_ofSamples (samples : List Int) :
    (ofSamples samples).max = (samples.map Int.toNat).foldl Max.max 0 := by
  induction samples using List.reverseRecOn with
  | nil => rfl
  | append_singleton samples ns ih =>
      rw [ofSamples_snoc, add_max, ih, List.map_append, List.foldl_append]
      rfl

/-- Nanoseconds as `int64_t` holds them. -/
def Int64s (samples : List Int) : Prop := ∀ ns ∈ samples, ns < 2 ^ 63

instance (samples : List Int) : Decidable (Int64s samples) :=
  inferInstanceAs (Decidable (∀ ns ∈ samples, ns < 2 ^ 63))

theorem Histogram.min_eq {samples : List Int} (range : Int64s samples) (some : samples ≠ []) :
    (samples.map Int.toNat).min? = Option.some (ofSamples samples).min := by
  rw [min_ofSamples]
  cases samples with
  | nil => exact absurd rfl some
  | cons ns samples =>
      have small : ns.toNat ≤ 2 ^ 63 - 1 := by
        have less := range ns List.mem_cons_self
        omega
      rw [List.map_cons, List.min?_cons', List.foldl_cons, Nat.min_eq_right small]

theorem Histogram.occupied_eq {samples : List Int} (fits : Histogram.Fits samples) :
    (ofSamples samples).occupied =
      (List.range buckets).filter fun b => inBucket samples b ≠ 0 := by
  refine List.filter_congr fun b inside => ?_
  rw [fits.counts (List.mem_range.mp inside)]

/-- A single histogram with no count wrapped, dumped and parsed. -/
theorem Hist.ofHistogram_eq {samples : List Int} (fits : Histogram.Fits samples)
    (range : Int64s samples) : Hist.ofHistogram (.ofSamples samples) = Hist.ofSamples samples := by
  have counts : Counter.ofBuckets (Histogram.ofSamples samples).occupied
      (Histogram.ofSamples samples).counts = (Hist.ofSamples samples).counts := by
    rw [Histogram.occupied_eq fits, Hist.ofSamples]
    unfold Counter.ofBuckets
    congr 1
    funext b
    split
    next member =>
      rw [List.mem_filter, List.mem_range] at member
      exact fits.counts member.1
    · rfl
  have least : (if (Histogram.ofSamples samples).total = 0 then none
      else some (Histogram.ofSamples samples).min) = (samples.map Int.toNat).min? := by
    rw [Histogram.total_ofSamples]
    split
    next none => rw [List.length_eq_zero_iff.mp none, List.map_nil, List.min?_nil]
    next some => rw [Histogram.min_eq range fun none => some (by rw [none, List.length_nil])]
  unfold Hist.ofHistogram
  rw [counts, least, Histogram.total_ofSamples, Histogram.overflow_ofSamples,
    Histogram.max_ofSamples, Hist.ofSamples]

/-- The block that `parse` takes from the dump of a process. -/
theorem Hist.merge_dumped {h : Hist} {seen samples : List Int} (same : h.Same (.ofSamples seen))
    (tidy : h.counts.Tidy) (fits : Histogram.Fits samples) (range : Int64s samples) :
    ∃ merged, h.merge
        (.ofBuckets (Histogram.ofSamples samples).occupied (Histogram.ofSamples samples).counts)
        (Histogram.ofSamples samples).total (Histogram.ofSamples samples).overflow
        (if (Histogram.ofSamples samples).total = 0 then 0 else (Histogram.ofSamples samples).min)
        (Histogram.ofSamples samples).max Histogram.bucketNs = some merged ∧
      merged.Same (.ofSamples (seen ++ samples)) ∧ merged.counts.Tidy := by
  have single := Hist.ofHistogram_eq fits range
  have tidy' : (Hist.ofHistogram (.ofSamples samples)).counts.Tidy := by
    rw [single]
    exact Hist.tidy_ofSamples samples
  have same' : (Hist.ofHistogram (.ofSamples samples)).Same (.ofSamples samples) := by
    rw [single]
    exact .refl _
  have low : samples ≠ [] → (Hist.ofHistogram (.ofSamples samples)).minNs =
      some (if (Histogram.ofSamples samples).total = 0 then 0
        else (Histogram.ofSamples samples).min) := by
    intro some
    rw [single, Histogram.total_ofSamples, if_neg (by simpa using some)]
    exact Histogram.min_eq range some
  generalize Histogram.ofSamples samples = dumped at tidy' same' low ⊢
  exact same.merge tidy same' tidy' low

/-! ## Files -/

/-- What the fold over the files keeps: both histograms, and the verdict constants
of the first header. -/
structure Merged.Holds (merged : Merged) (lat lag : List Int) : Prop where
  lat : merged.lat.Same (.ofSamples lat)
  latTidy : merged.lat.counts.Tidy
  lag : merged.lag.Same (.ofSamples lag)
  lagTidy : merged.lag.counts.Tidy
  constants : merged.constants.getD (lagFloorNs, lagRatio) = (lagFloorNs, lagRatio)

theorem Merged.parse_header (merged : Merged) (cfg : Config) (st : Stats)
    (agreed : merged.constants.getD (lagFloorNs, lagRatio) = (lagFloorNs, lagRatio))
    (lines : List Line) :
    ∃ read : Merged, merged.parse (dumpScalars cfg st ++ lines) = read.body none lines ∧
      read.lat = merged.lat ∧ read.lag = merged.lag ∧
        read.constants = some (lagFloorNs, lagRatio) := by
  simp only [dumpScalars, List.cons_append, List.nil_append, Merged.parse, Merged.body, agreed,
    ne_eq, not_true_eq_false, if_false]
  exact ⟨_, rfl, rfl, rfl, rfl⟩

theorem Merged.take_latency_merge {merged : Merged} {counts : Counter}
    {total overflow minNs maxNs bucketNs : Nat} {lat : Hist}
    (joined : merged.lat.merge counts total overflow minNs maxNs bucketNs = some lat) :
    merged.take ⟨.latency, counts, total, overflow, minNs, maxNs, bucketNs⟩ =
      some { merged with lat } := by
  simp only [Merged.take, joined, Option.map_some]

theorem Merged.take_selfLag_merge {merged : Merged} {counts : Counter}
    {total overflow minNs maxNs bucketNs : Nat} {lag : Hist}
    (joined : merged.lag.merge counts total overflow minNs maxNs bucketNs = some lag) :
    merged.take ⟨.selfLag, counts, total, overflow, minNs, maxNs, bucketNs⟩ =
      some { merged with lag } := by
  simp only [Merged.take, joined, Option.map_some]

/-- One process: what it measured, and whatever else its dump shows. -/
structure Process where
  cfg : Config
  others : Stats
  lat : List Int
  lag : List Int
  latFits : Histogram.Fits lat
  lagFits : Histogram.Fits lag
  latRange : Int64s lat
  lagRange : Int64s lag

namespace Process

def stats (process : Process) : Stats :=
  { process.others with
    latency := .ofSamples process.lat
    selfLag := .ofSamples process.lag }

/-- The dump it leaves. -/
def file (process : Process) : Bytes := dumpFile process.cfg process.stats

end Process

theorem Merged.Holds.parse {merged : Merged} {lat lag : List Int} (holds : merged.Holds lat lag)
    (process : Process) :
    ∃ next, (readFile process.file).bind merged.parse = some next ∧
      next.Holds (lat ++ process.lat) (lag ++ process.lag) := by
  obtain ⟨read, parsed, sameLat, sameLag, constants⟩ := merged.parse_header process.cfg
    process.stats holds.constants
    (dumpHistogram .latency process.stats.latency ++ dumpHistogram .selfLag process.stats.selfLag)
  obtain ⟨newLat, mergedLat, heldLat, tidyLat⟩ :=
    Hist.merge_dumped (sameLat ▸ holds.lat) (sameLat ▸ holds.latTidy) process.latFits
      process.latRange
  obtain ⟨newLag, mergedLag, heldLag, tidyLag⟩ :=
    Hist.merge_dumped (sameLag ▸ holds.lag) (sameLag ▸ holds.lagTidy) process.lagFits
      process.lagRange
  refine ⟨{ read with lat := newLat, lag := newLag }, ?_,
    ⟨heldLat, tidyLat, heldLag, tidyLag, by rw [constants]; rfl⟩⟩
  have latency : process.stats.latency = .ofSamples process.lat := rfl
  have selfLag : process.stats.selfLag = .ofSamples process.lag := rfl
  have readLat := Merged.take_latency_merge mergedLat
  have readLag := @Merged.take_selfLag_merge { read with lat := newLat } _ _ _ _ _ _ _ mergedLag
  have last := Merged.body_histogram { read with lat := newLat } .selfLag
    (.ofSamples process.lag) []
  rw [List.append_nil, readLag, Option.bind_some, Merged.body] at last
  rw [latency, selfLag] at parsed
  rw [Process.file, readFile_dumpFile, Option.bind_some, dumpStats, List.append_assoc, latency,
    selfLag, parsed, Merged.body_histogram, readLat, Option.bind_some, last]

theorem Merged.Holds.parseFiles {merged : Merged} {lat lag : List Int}
    (holds : merged.Holds lat lag) (processes : List Process) :
    ∃ last, merged.parseFiles (processes.map Process.file) = some last ∧
      last.Holds (lat ++ processes.flatMap Process.lat) (lag ++ processes.flatMap Process.lag) := by
  induction processes generalizing merged lat lag with
  | nil => exact ⟨merged, rfl, by simpa using holds⟩
  | cons process processes ih =>
      obtain ⟨next, parsed, kept⟩ := holds.parse process
      obtain ⟨last, finished, held⟩ := ih kept
      refine ⟨last, ?_, by simpa [List.flatMap_cons, List.append_assoc] using held⟩
      rw [Merged.parseFiles, List.map_cons, List.foldlM_cons, parsed]
      exact finished

theorem Merged.holds_empty : Merged.empty.Holds [] [] := by
  have none : Hist.empty.Same (.ofSamples []) := by
    have count (b : Nat) : Hist.empty.counts.count b = (Hist.ofSamples []).counts.count b := by
      rw [Hist.count_ofSamples]
      simp [Histogram.inBucket, Hist.empty, Counter.empty]
    exact {
      keys := Counter.tidy_empty.perm (Hist.tidy_ofSamples []) count
      count
      total := rfl
      overflow := rfl
      minNs := rfl
      maxNs := rfl
      bucketNs := rfl }
  exact ⟨none, Counter.tidy_empty, none, Counter.tidy_empty, rfl⟩

/-! ## Conservation -/

theorem Histogram.sum_inBucket (samples : List Int) (n : Nat) :
    (((List.range n).filter fun b => inBucket samples b ≠ 0).map (inBucket samples)).sum =
      before samples n := by
  induction n with
  | zero => simp [before]
  | succ n ih =>
      rw [List.range_succ, List.filter_append, List.map_append, List.sum_append, ih, before_succ]
      by_cases hollow : inBucket samples n = 0
      · simp [hollow]
      · simp [hollow]

theorem Hist.conserved_ofSamples (samples : List Int) :
    (ofSamples samples).total = ((ofSamples samples).counts.keys.map
      (ofSamples samples).counts.count).sum + (ofSamples samples).overflow := by
  have kept : (ofSamples samples).counts.keys.map (ofSamples samples).counts.count =
      (ofSamples samples).counts.keys.map (Histogram.inBucket samples) := by
    refine List.map_congr_left fun b member => ?_
    have inside : b < Histogram.buckets := List.mem_range.mp (List.mem_filter.mp member).1
    rw [count_ofSamples, if_pos inside]
  have sides := List.length_eq_countP_add_countP
    (fun ns => decide (Histogram.bucketOf ns < Histogram.buckets)) (l := samples)
  rw [kept]
  simp only [ofSamples, Counter.ofBuckets, Histogram.sum_inBucket]
  rw [Histogram.before]
  simpa using sides

/-- A merged histogram knows the samples, and nothing of how they came in. -/
structure Hist.Pools (h : Hist) (samples : List Int) : Prop where
  same : h.Same (.ofSamples samples)
  pct : ∀ p, h.pct p = (Hist.ofSamples samples).pct p
  conserved : h.total = (h.counts.keys.map h.counts.count).sum + h.overflow
  /-- One process with all the samples would have dumped the same. -/
  single : Histogram.Fits samples → Int64s samples →
    h.Same (.ofHistogram (.ofSamples samples)) ∧
      ∀ p, h.pct p = (Hist.ofHistogram (.ofSamples samples)).pct p

theorem Hist.Same.pools {h : Hist} {samples all : List Int} (same : h.Same (.ofSamples samples))
    (perm : all.Perm samples) : h.Pools all := by
  rw [← Hist.ofSamples_perm perm] at same
  exact {
    same
    pct := same.pct
    conserved := by
      have sums : (h.counts.keys.map h.counts.count).sum =
          ((Hist.ofSamples all).counts.keys.map (Hist.ofSamples all).counts.count).sum := by
        rw [funext same.count]
        exact (same.keys.map _).sum_eq
      rw [same.total, same.overflow, sums]
      exact Hist.conserved_ofSamples all
    single := by
      intro fits range
      rw [Hist.ofHistogram_eq fits range]
      exact ⟨same, same.pct⟩ }

/-- Whatever the order of the files and the split of the samples. -/
theorem merged_dumps_pool_samples (processes : List Process) {lat lag : List Int}
    (latency : lat.Perm (processes.flatMap Process.lat))
    (selfLag : lag.Perm (processes.flatMap Process.lag)) :
    ∃ merged, Merged.empty.parseFiles (processes.map Process.file) = some merged ∧
      merged.lat.Pools lat ∧ merged.lag.Pools lag := by
  obtain ⟨merged, parsed, holds⟩ := Merged.holds_empty.parseFiles processes
  exact ⟨merged, parsed, holds.lat.pools latency, holds.lag.pools selfLag⟩

/-- A process with one delivery, and one that saw nothing. -/
def busyProcess : Process where
  cfg := oneMessage
  others := {}
  lat := [2500]
  lag := [-1, 3000000000]
  latFits := Histogram.fits_of_few (by decide)
  lagFits := Histogram.fits_of_few (by decide)
  latRange := by decide
  lagRange := by decide

def idleProcess : Process where
  cfg := oneMessage
  others := {}
  lat := []
  lag := []
  latFits := Histogram.fits_of_few (by decide)
  lagFits := Histogram.fits_of_few (by decide)
  latRange := by decide
  lagRange := by decide

theorem merged_dumps_pool_samples_two :
    ∃ merged, Merged.empty.parseFiles ([idleProcess, busyProcess].map Process.file) = some merged ∧
      merged.lat.Pools [2500] ∧ merged.lag.Pools [3000000000, -1] :=
  merged_dumps_pool_samples [idleProcess, busyProcess] (List.Perm.refl _)
    (List.Perm.swap (-1) 3000000000 [])

end NetEngine.Bench
