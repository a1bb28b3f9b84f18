import NetEngine.Bench.Setup
import NetEngine.Library.Utf8

/-! `corpus.cpp`: chat lines that a fixed generator draws from a pool of texts, cut to a budget of
bytes, and handed out one after another. -/

set_option autoImplicit false

namespace NetEngine.Bench

/-! ## The generator -/

structure Lcg where
  s : UInt64

namespace Lcg

def seeded (seed : UInt32) : Lcg := ⟨seed.toUInt64 * 6364136223846793005 + 1442695040888963407⟩

def next (r : Lcg) : Nat × Lcg :=
  let s := r.s * 6364136223846793005 + 1442695040888963407
  ((s >>> 33).toUInt32.toNat, ⟨s⟩)

/-- 0 to 99. -/
def roll (r : Lcg) : Nat × Lcg := (r.next.1 % 100, r.next.2)

end Lcg

/-- The texts of one array of `corpus_data`, of which `mkcorpus.py` leaves none empty. -/
structure Texts where
  lines : List Bytes
  some : 0 < lines.length

structure Pool where
  tiny : Texts
  short : Texts
  mid : Texts
  long : Texts
  xlong : Texts

def pickFrom (r : Lcg) (texts : Texts) : Bytes × Lcg :=
  (texts.lines.get ⟨r.next.1 % texts.lines.length, Nat.mod_lt _ texts.some⟩, r.next.2)

def spaced (s more : Bytes) : Bytes := s ++ [0x20] ++ more

/-- One line, before it is cut. -/
def Pool.draw (pool : Pool) (r : Lcg) : Bytes × Lcg :=
  let k := r.roll
  if k.1 < 45 then
    let s := pickFrom k.2 pool.tiny
    let again := s.2.roll
    if again.1 < 25 then
      let more := pickFrom again.2 pool.tiny
      (spaced s.1 more.1, more.2)
    else (s.1, again.2)
  else if k.1 < 75 then pickFrom k.2 pool.short
  else if k.1 < 94 then pickFrom k.2 pool.mid
  else if k.1 < 99 then
    let s := pickFrom k.2 pool.mid
    let more := pickFrom s.2 pool.mid
    (spaced s.1 more.1, more.2)
  else
    let again := k.2.roll
    if again.1 < 70 then pickFrom again.2 pool.long else pickFrom again.2 pool.xlong

/-! ## The lines -/

structure Corpus where
  lines : List Bytes := []
  cursor : Nat := 0
  total : Nat := 0
  min : Nat := 0
  max : Nat := 0

namespace Corpus

/-- The end of a turn of the loop of `build`. -/
def keep (c : Corpus) (s : Bytes) : Corpus :=
  { c with
    lines := c.lines ++ [s]
    total := c.total + s.length
    min := Nat.min c.min s.length
    max := Nat.max c.max s.length }

def loop (pool : Pool) (maxBytes : Nat) : Nat → Lcg → Corpus → Corpus
  | 0, _, c => c
  | entries + 1, r, c =>
      let s := pool.draw r
      loop pool maxBytes entries s.2 (c.keep (fitLine maxBytes s.1))

def build (c : Corpus) (pool : Pool) (seed : UInt32) (entries maxBytes : Nat) : Corpus :=
  let built := loop pool maxBytes entries (.seeded seed)
    { c with lines := [], total := 0, min := 2 ^ 64 - 1, max := 0 }
  if built.lines = [] then { built with min := 0 } else built

/-- The lines of an empty corpus may not be asked for. -/
def next (c : Corpus) : Option (Bytes × Corpus) :=
  (c.lines[c.cursor]?).map fun s =>
    (s, { c with cursor := if c.cursor + 1 = c.lines.length then 0 else c.cursor + 1 })

/-- So many calls of `next`. -/
def serve (c : Corpus) : Nat → Option (List Bytes × Corpus)
  | 0 => some ([], c)
  | n + 1 => do
      let (early, c) ← c.serve n
      let (s, c) ← c.next
      return (early ++ [s], c)

end Corpus

/-! ## Cutting -/

theorem cutBack_eq (line : Bytes) (cut : Nat) : cutBack line cut = Utf8.cutBack line cut := by
  induction cut with
  | zero => rfl
  | succ cut ih => simp only [cutBack, Utf8.cutBack, Utf8.continuation, ih, decide_eq_true_eq]

/-- `line` is what `most` bytes hold of the text: whole characters, and no more would fit. -/
def FitsWhole (most : Nat) (text : List Char) (line : Bytes) : Prop :=
  ∃ front rest, text = front ++ rest ∧ line = Utf8.encode front ∧ line.length ≤ most ∧
    ∀ c ∈ rest.head?, most < (Utf8.encode (front ++ [c])).length

theorem fitLine_whole (most : Nat) (text : List Char) :
    FitsWhole most text (fitLine most (Utf8.encode text)) := by
  unfold fitLine
  split
  next long =>
    obtain ⟨front, c, rest, same, cut, short, next⟩ := Utf8.take_cutBack long
    rw [cutBack_eq, cut]
    refine ⟨front, c :: rest, same, rfl, short, fun other first => ?_⟩
    obtain rfl : c = other := Option.some.inj first
    exact next
  next short =>
    exact ⟨text, [], (List.append_nil text).symm, rfl, Nat.le_of_not_lt short, by simp⟩

theorem fitLine_shorter (most : Nat) (line : Bytes) : (fitLine most line).length ≤ line.length := by
  unfold fitLine
  split
  · exact List.length_take_le' ..
  · exact Nat.le_refl _

theorem fitLine_short {most : Nat} {line : Bytes} (short : line.length ≤ most) :
    fitLine most line = line := if_neg (Nat.not_lt_of_le short)

/-! ## Drawing -/

/-- The texts of the pool are UTF-8, within the bounds that `mkcorpus.py` sorts them by. -/
structure Texts.Sorted (texts : Texts) (low high : Nat) : Prop where
  text : ∀ line ∈ texts.lines, ∃ text, line = Utf8.encode text
  low : ∀ line ∈ texts.lines, low ≤ line.length
  high : ∀ line ∈ texts.lines, line.length ≤ high

structure Pool.Sorted (pool : Pool) : Prop where
  tiny : pool.tiny.Sorted 1 15
  short : pool.short.Sorted 16 64
  mid : pool.mid.Sorted 65 200
  long : pool.long.Sorted 201 700
  xlong : pool.xlong.Sorted 701 988

/-- A drawn line: UTF-8, with something in it, and below the budget of a payload. -/
structure Drawn (line : Bytes) : Prop where
  text : ∃ text, line = Utf8.encode text
  some : 1 ≤ line.length
  short : line.length ≤ 988

theorem pickFrom_mem (r : Lcg) (texts : Texts) : (pickFrom r texts).1 ∈ texts.lines :=
  List.get_mem ..

theorem Texts.Sorted.drawn {texts : Texts} {low high : Nat} (sorted : texts.Sorted low high)
    (positive : 1 ≤ low) (short : high ≤ 988) (r : Lcg) :
    Drawn (pickFrom r texts).1 where
  text := sorted.text _ (pickFrom_mem r texts)
  some := Nat.le_trans positive (sorted.low _ (pickFrom_mem r texts))
  short := Nat.le_trans (sorted.high _ (pickFrom_mem r texts)) short

theorem Texts.Sorted.spaced {texts : Texts} {low high : Nat} (sorted : texts.Sorted low high)
    (short : high + 1 + high ≤ 988) (r later : Lcg) :
    Drawn (spaced (pickFrom r texts).1 (pickFrom later texts).1) where
  text := by
    obtain ⟨text, same⟩ := sorted.text _ (pickFrom_mem r texts)
    obtain ⟨more, also⟩ := sorted.text _ (pickFrom_mem later texts)
    refine ⟨text ++ [' '] ++ more, ?_⟩
    rw [Bench.spaced, same, also, Utf8.encode_append, Utf8.encode_append]
    rfl
  some := by
    simp only [Bench.spaced, List.length_append, List.length_singleton]
    omega
  short := by
    have first := sorted.high _ (pickFrom_mem r texts)
    have second := sorted.high _ (pickFrom_mem later texts)
    simp only [Bench.spaced, List.length_append, List.length_singleton]
    omega

theorem Pool.Sorted.draw {pool : Pool} (sorted : pool.Sorted) (r : Lcg) : Drawn (pool.draw r).1 := by
  unfold Pool.draw
  simp only
  split
  · split <;> dsimp only
    · exact sorted.tiny.spaced (by decide) _ _
    · exact sorted.tiny.drawn (by decide) (by decide) _
  split
  · exact sorted.short.drawn (by decide) (by decide) _
  split
  · exact sorted.mid.drawn (by decide) (by decide) _
  split
  · exact sorted.mid.spaced (by decide) _ _
  split
  · exact sorted.long.drawn (by decide) (by decide) _
  · exact sorted.xlong.drawn (by decide) (by decide) _

/-- The lines that a seed draws. -/
def Pool.draws (pool : Pool) : Nat → Lcg → List Bytes
  | 0, _ => []
  | entries + 1, r => (pool.draw r).1 :: pool.draws entries (pool.draw r).2

theorem Pool.Sorted.draws {pool : Pool} (sorted : pool.Sorted) (entries : Nat) (r : Lcg) :
    ∀ line ∈ pool.draws entries r, Drawn line := by
  induction entries generalizing r with
  | zero => exact fun _ member => (List.not_mem_nil member).elim
  | succ entries ih =>
      intro line member
      rcases List.mem_cons.mp member with rfl | later
      · exact sorted.draw r
      · exact ih _ line later

@[simp] theorem Pool.draws_length (pool : Pool) (entries : Nat) (r : Lcg) :
    (pool.draws entries r).length = entries := by
  induction entries generalizing r with
  | zero => rfl
  | succ entries ih => rw [Pool.draws, List.length_cons, ih]

/-! ## Building -/

namespace Corpus

variable {pool : Pool} {maxBytes entries : Nat} {c : Corpus}

theorem loop_eq (r : Lcg) :
    loop pool maxBytes entries r c = ((pool.draws entries r).map (fitLine maxBytes)).foldl keep c := by
  induction entries generalizing r c with
  | zero => rfl
  | succ entries ih =>
      rw [loop, Pool.draws, List.map_cons, List.foldl_cons]
      exact ih (pool.draw r).2

@[simp] theorem kept_lines (c : Corpus) (lines : List Bytes) :
    (lines.foldl keep c).lines = c.lines ++ lines := by
  induction lines generalizing c with
  | nil => simp
  | cons s lines ih => simp [ih, keep]

@[simp] theorem kept_cursor (c : Corpus) (lines : List Bytes) :
    (lines.foldl keep c).cursor = c.cursor := by
  induction lines generalizing c with
  | nil => rfl
  | cons s lines ih => exact ih (c.keep s)

@[simp] theorem build_lines (c : Corpus) (pool : Pool) (seed : UInt32) (entries maxBytes : Nat) :
    (c.build pool seed entries maxBytes).lines =
      (pool.draws entries (.seeded seed)).map (fitLine maxBytes) := by
  rw [build, loop_eq]
  split <;> simp

@[simp] theorem build_cursor (c : Corpus) (pool : Pool) (seed : UInt32) (entries maxBytes : Nat) :
    (c.build pool seed entries maxBytes).cursor = c.cursor := by
  rw [build, loop_eq]
  split <;> simp

/-- The counters are those of the lines; with no line so far they are these. -/
structure Counted (least : Nat) (c : Corpus) : Prop where
  total : c.total = (c.lines.map List.length).sum
  min_le : ∀ line ∈ c.lines, c.min ≤ line.length
  le_max : ∀ line ∈ c.lines, line.length ≤ c.max
  min : if c.lines = [] then c.min = least else ∃ line ∈ c.lines, line.length = c.min
  max : if c.lines = [] then c.max = 0 else ∃ line ∈ c.lines, line.length = c.max

/-- With one more line an extreme is that line's length or stays what it was. -/
theorem attained_snoc {lines : List Bytes} {least extreme after : Nat} (s : Bytes)
    (attained : if lines = [] then extreme = least else ∃ line ∈ lines, line.length = extreme)
    (choice : after = s.length ∨ after = extreme) (first : extreme = least → after = s.length) :
    if lines ++ [s] = [] then after = least else ∃ line ∈ lines ++ [s], line.length = after := by
  have last : s ∈ lines ++ [s] := List.mem_append_right _ (List.mem_singleton_self s)
  rw [if_neg (List.ne_nil_of_mem last)]
  rcases choice with new | same
  · exact ⟨s, last, new.symm⟩
  split at attained
  · exact ⟨s, last, (first attained).symm⟩
  · obtain ⟨line, member, attains⟩ := attained
    exact ⟨line, List.mem_append_left _ member, attains.trans same.symm⟩

theorem Counted.keep {least : Nat} (counted : c.Counted least) {s : Bytes}
    (short : s.length ≤ least) : (c.keep s).Counted least where
  total := by simp [Corpus.keep, counted.total]
  min_le := by
    intro line member
    rcases List.mem_append.mp member with early | last
    · exact (Nat.min_le_left ..).trans (counted.min_le line early)
    · rw [List.mem_singleton.mp last]
      exact Nat.min_le_right ..
  le_max := by
    intro line member
    rcases List.mem_append.mp member with early | last
    · exact (counted.le_max line early).trans (Nat.le_max_left ..)
    · rw [List.mem_singleton.mp last]
      exact Nat.le_max_right ..
  min := by
    apply attained_snoc s counted.min
    · exact (Nat.le_total s.length c.min).imp Nat.min_eq_right Nat.min_eq_left
    · intro none
      exact Nat.min_eq_right (short.trans_eq none.symm)
  max := by
    apply attained_snoc s counted.max
    · exact (Nat.le_total c.max s.length).imp Nat.max_eq_right Nat.max_eq_left
    · intro none
      exact Nat.max_eq_right (none.trans_le (Nat.zero_le _))

theorem Counted.kept {least : Nat} {lines : List Bytes} (counted : c.Counted least)
    (short : ∀ line ∈ lines, line.length ≤ least) : (lines.foldl Corpus.keep c).Counted least := by
  induction lines generalizing c with
  | nil => exact counted
  | cons s lines ih =>
      exact ih (counted.keep (short s List.mem_cons_self))
        fun line later => short line (List.mem_cons_of_mem s later)

/-- After the last line the minimum of no line is set to 0. -/
theorem build_counted (c : Corpus) (seed : UInt32)
    (short : ∀ line ∈ (pool.draws entries (.seeded seed)).map (fitLine maxBytes),
      line.length ≤ 2 ^ 64 - 1) :
    (c.build pool seed entries maxBytes).Counted 0 := by
  have start : Counted (2 ^ 64 - 1) { c with lines := [], total := 0, min := 2 ^ 64 - 1, max := 0 } :=
    ⟨rfl, by simp, by simp, by simp, by simp⟩
  have counted := start.kept short
  rw [build, loop_eq]
  split
  next none =>
    refine ⟨counted.total, fun _ _ => Nat.zero_le _, counted.le_max, ?_, counted.max⟩
    dsimp only
    rw [if_pos none]
  next some =>
    refine ⟨counted.total, counted.min_le, counted.le_max, ?_, counted.max⟩
    rw [if_neg some]
    simpa only [if_neg some] using counted.min

/-! ## Handing out -/

/-- The lines go round: the one after the last is the first. -/
theorem serve_eq (inside : c.cursor < c.lines.length) (n : Nat) :
    c.serve n = some ((List.range n).map fun i => c.lines.getD ((c.cursor + i) % c.lines.length) [],
      { c with cursor := (c.cursor + n) % c.lines.length }) := by
  induction n with
  | zero => simp [serve, Nat.mod_eq_of_lt inside]
  | succ n ih =>
      have turn : (c.cursor + n) % c.lines.length < c.lines.length :=
        Nat.mod_lt _ (Nat.zero_lt_of_lt inside)
      have round : (c.cursor + (n + 1)) % c.lines.length =
          if (c.cursor + n) % c.lines.length + 1 = c.lines.length then 0
          else (c.cursor + n) % c.lines.length + 1 := by
        rw [← Nat.add_assoc, ← Nat.mod_add_mod]
        split
        next last => rw [last, Nat.mod_self]
        next => exact Nat.mod_eq_of_lt (by omega)
      rw [serve, ih, List.range_succ, List.map_append, round]
      simp [next, List.getElem?_eq_getElem turn, List.getD_eq_getElem?_getD]

end Corpus

/-- `run_traffic` has the lines of the corpus that it builds from the seed of the settings. -/
theorem config_lines (cfg : Settings) (pool : Pool) :
    (cfg.config (pool.draws 4096 (.seeded cfg.corpusSeed))).lines =
      (Corpus.build {} pool cfg.corpusSeed 4096 (maxBlob - blobHeader)).lines := by
  rw [Corpus.build_lines]
  rfl

/-- With `--corpus` a message carries what `next` returns. -/
theorem body_next {cfg : Config} {traffic : Traffic} (use : cfg.useCorpus = true)
    (inside : traffic.corpusCursor < cfg.lines.length) :
    ({ lines := cfg.lines, cursor := traffic.corpusCursor } : Corpus).next =
      some ((traffic.body cfg).1,
        { lines := cfg.lines, cursor := (traffic.body cfg).2.2 }) := by
  rw [Traffic.body, if_pos use]
  simp [Corpus.next, List.getElem?_eq_getElem inside, List.getD_eq_getElem?_getD]

/-- The corpus that `run_traffic` walks. For any pool sorted as `mkcorpus.py` sorts it: a line is
what the budget holds of a drawn text, so it is UTF-8, and a budget of a whole payload cuts none;
the counters are those of the lines; and `next` hands the lines out in turn, round and round. -/
theorem corpus_lines {pool : Pool} (sorted : pool.Sorted) (seed : UInt32) (entries maxBytes : Nat) :
    let drawn := pool.draws entries (.seeded seed)
    let built := Corpus.build {} pool seed entries maxBytes
    built.lines = drawn.map (fitLine maxBytes) ∧ built.lines.length = entries ∧
      (∀ line ∈ built.lines, ∃ text, Utf8.encode text ∈ drawn ∧ FitsWhole maxBytes text line) ∧
      (maxBlob - blobHeader ≤ maxBytes → built.lines = drawn) ∧
      built.Counted 0 ∧
      (0 < entries → ∀ n, built.serve n =
        some ((List.range n).map fun i => built.lines.getD (i % entries) [],
          { built with cursor := n % entries })) := by
  intro drawn built
  have lines : built.lines = drawn.map (fitLine maxBytes) := Corpus.build_lines ..
  have length : built.lines.length = entries := by
    rw [lines, List.length_map, Pool.draws_length]
  have whole : ∀ line ∈ built.lines,
      ∃ text, Utf8.encode text ∈ drawn ∧ FitsWhole maxBytes text line := by
    intro line member
    rw [lines] at member
    obtain ⟨before, inside, rfl⟩ := List.mem_map.mp member
    obtain ⟨text, rfl⟩ := (sorted.draws entries _ before inside).text
    exact ⟨text, inside, fitLine_whole maxBytes text⟩
  refine ⟨lines, length, whole, ?_, ?_, ?_⟩
  · intro room
    rw [lines]
    refine (List.map_congr_left fun line member => ?_).trans (List.map_id _)
    exact fitLine_short ((sorted.draws entries _ line member).short.trans room)
  · apply Corpus.build_counted
    intro line member
    obtain ⟨before, inside, rfl⟩ := List.mem_map.mp member
    have shorter := fitLine_shorter maxBytes before
    have short := (sorted.draws entries _ before inside).short
    omega
  · intro some n
    have cursor : built.cursor = 0 := Corpus.build_cursor ..
    have inside : built.cursor < built.lines.length := by rwa [cursor, length]
    have served := Corpus.serve_eq inside n
    simpa only [cursor, length, Nat.zero_add] using served

def Texts.plain (n : Nat) : Texts := ⟨[List.replicate n 0x61], Nat.zero_lt_one⟩

theorem Texts.plain_sorted {n low high : Nat} (least : low ≤ n) (most : n ≤ high) :
    (Texts.plain n).Sorted low high where
  text := by
    intro line member
    refine ⟨List.replicate n 'a', ?_⟩
    rw [List.mem_singleton.mp member]
    clear least most member
    induction n with
    | zero => rfl
    | succ n ih => rw [List.replicate_succ, List.replicate_succ, Utf8.encode_cons, ← ih]; rfl
  low := by
    intro line member
    rw [List.mem_singleton.mp member, List.length_replicate]
    exact least
  high := by
    intro line member
    rw [List.mem_singleton.mp member, List.length_replicate]
    exact most

def Pool.plain : Pool := ⟨.plain 2, .plain 16, .plain 65, .plain 201, .plain 701⟩

theorem corpus_lines_plain :
    (Corpus.build {} Pool.plain 1 4096 988).lines = Pool.plain.draws 4096 (.seeded 1) :=
  (corpus_lines ⟨Texts.plain_sorted (by decide) (by decide),
    Texts.plain_sorted (by decide) (by decide), Texts.plain_sorted (by decide) (by decide),
    Texts.plain_sorted (by decide) (by decide), Texts.plain_sorted (by decide) (by decide)⟩
    1 4096 988).2.2.2.1 (by decide)

end NetEngine.Bench
