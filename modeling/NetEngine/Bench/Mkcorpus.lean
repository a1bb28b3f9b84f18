import Mathlib.Data.Char
import Mathlib.Data.List.Lex
import Mathlib.Data.List.Nodup
import NetEngine.Bench.Corpus

/-! `mkcorpus.py`: the pool that the corpus is drawn from, generated from the lines of a directory
of texts. -/

set_option autoImplicit false

namespace NetEngine.Bench

/-! ## Reading the directory -/

inductive Bucket where
  | tiny | short | mid | long | xlong
  deriving DecidableEq

namespace Bucket

/-- `BUCKETS`. -/
def all : List Bucket := [.tiny, .short, .mid, .long, .xlong]

def low : Bucket → Nat
  | .tiny => 1
  | .short => 16
  | .mid => 65
  | .long => 201
  | .xlong => 701

def high : Bucket → Nat
  | .tiny => 15
  | .short => 64
  | .mid => 200
  | .long => 700
  | .xlong => 1024 - 16 - 20

/-- The first bucket that a size is within the bounds of. -/
def find (nb : Nat) : Option Bucket := all.find? fun b => b.low ≤ nb ∧ nb ≤ b.high

end Bucket

/-- What `str.strip` takes off. -/
def isSpace (c : Char) : Bool :=
  let n := c.toNat
  (9 ≤ n ∧ n ≤ 13) ∨ (28 ≤ n ∧ n ≤ 32) ∨ n = 0x85 ∨ n = 0xa0 ∨ n = 0x1680 ∨
    (0x2000 ≤ n ∧ n ≤ 0x200a) ∨ n = 0x2028 ∨ n = 0x2029 ∨ n = 0x202f ∨ n = 0x205f ∨ n = 0x3000

def strip (line : List Char) : List Char :=
  ((line.dropWhile isSpace).reverse.dropWhile isSpace).reverse

/-- A line with its size in UTF-8. -/
abbrev Row := Nat × List Char

def row (line : List Char) : Row := ((Utf8.encode line).length, line)

structure Gathered where
  seen : List (List Char) := []
  buckets : Bucket → List Row := fun _ => []
  rejected : List Row := []
  dupes : Nat := 0

namespace Gathered

def line (g : Gathered) (raw : List Char) : Gathered :=
  let line := strip raw
  if line = [] then g
  else if g.seen.contains line then { g with dupes := g.dupes + 1 }
  else
    let g := { g with seen := g.seen ++ [line] }
    match Bucket.find (row line).1 with
    | some name =>
        { g with buckets := fun b => if b = name then g.buckets b ++ [row line] else g.buckets b }
    | none => { g with rejected := g.rejected ++ [row line] }

def file (g : Gathered) (raws : List (List Char)) : Gathered := raws.foldl line g

end Gathered

/-! ## Generating the pool -/

/-- Rows are compared as pairs are. -/
def rowLe (a b : Row) : Bool := a.1 < b.1 ∨ a.1 = b.1 ∧ a.2 ≤ b.2

inductive Refusal where
  | noFiles
  | noBucket (rejected : List Row)
  | missing (empty : List Bucket)

def sorted (rows : List Row) (some : rows ≠ []) : Texts where
  lines := (rows.mergeSort rowLe).map fun r => Utf8.encode r.2
  some := by
    rw [List.length_map, List.length_mergeSort]
    exact List.length_pos_of_ne_nil some

/-- The files of the directory in the order of their names. -/
def mkcorpus (files : List (List (List Char))) : Except Refusal Pool :=
  if files = [] then .error .noFiles
  else
    let g := files.foldl Gathered.file {}
    if g.rejected ≠ [] then .error (.noBucket g.rejected)
    else if some : ∀ b ∈ Bucket.all, g.buckets b ≠ [] then
      .ok {
        tiny := sorted (g.buckets .tiny) (some _ (by decide))
        short := sorted (g.buckets .short) (some _ (by decide))
        mid := sorted (g.buckets .mid) (some _ (by decide))
        long := sorted (g.buckets .long) (some _ (by decide))
        xlong := sorted (g.buckets .xlong) (some _ (by decide)) }
    else .error (.missing (Bucket.all.filter fun b => g.buckets b = []))

def Pool.texts (pool : Pool) : Bucket → Texts
  | .tiny => pool.tiny
  | .short => pool.short
  | .mid => pool.mid
  | .long => pool.long
  | .xlong => pool.xlong

/-! ## Writing a text -/

def quote : Char := Char.ofNat 34

def backslash : Char := Char.ofNat 92

def escape (s : List Char) : List Char :=
  s.flatMap fun ch =>
    if ch = backslash ∨ ch = quote ∨ ch = '?' then [backslash, ch]
    else if ch = '\t' then [backslash, 't']
    else [ch]

/-- What a C++ compiler reads behind the backslash of an escape sequence that `escape` writes. -/
def sequence (c : Char) : Option Char :=
  if c = backslash ∨ c = quote ∨ c = '?' then some c else if c = 't' then some '\t' else none

/-- A string literal behind its opening quote: the text, and what follows the closing one. -/
def literal : List Char → Option (List Char × List Char)
  | [] => none
  | c :: rest =>
      if c = quote then some ([], rest)
      else if c = backslash then
        match rest with
        | [] => none
        | d :: rest => do
            let d ← sequence d
            let (s, rest) ← literal rest
            return (d :: s, rest)
      else do
        let (s, rest) ← literal rest
        return (c :: s, rest)

section

variable {c d : Char} {s rest after : List Char}

theorem literal_quote : literal (quote :: rest) = some ([], rest) := by
  rw [literal.eq_def]
  exact if_pos rfl

theorem literal_sequence (means : sequence c = some d) (read : literal rest = some (s, after)) :
    literal (backslash :: c :: rest) = some (d :: s, after) := by
  have apart : backslash ≠ quote := by decide
  rw [literal.eq_def]
  simp [apart, means, read]

theorem literal_plain (unquoted : c ≠ quote) (unslashed : c ≠ backslash)
    (read : literal rest = some (s, after)) : literal (c :: rest) = some (c :: s, after) := by
  rw [literal.eq_def]
  simp [unquoted, unslashed, read]

end

theorem escape_cons (ch : Char) (s : List Char) : escape (ch :: s) =
    (if ch = backslash ∨ ch = quote ∨ ch = '?' then [backslash, ch]
      else if ch = '\t' then [backslash, 't'] else [ch]) ++ escape s := rfl

theorem literal_escape (s rest : List Char) : literal (escape s ++ quote :: rest) = some (s, rest) := by
  induction s with
  | nil => exact literal_quote
  | cons ch s ih =>
      rw [escape_cons, List.append_assoc]
      split
      next special => exact literal_sequence (if_pos special) ih
      split
      next plain tab =>
        subst tab
        exact literal_sequence (by decide) ih
      next plain _ =>
        exact literal_plain (fun same => plain (.inr (.inl same))) (fun same => plain (.inl same)) ih

/-- A question mark stands behind a backslash only, so that no two make a trigraph. -/
theorem escape_question (before : Char) (s : List Char) :
    (before :: escape s).IsChain fun a b => b = '?' → a = backslash := by
  induction s generalizing before with
  | nil => exact .singleton before
  | cons ch s ih =>
      have unasked : backslash ≠ '?' := by decide
      rw [escape_cons]
      split
      · exact .cons_cons (fun same => (unasked same).elim) (.cons_cons (fun _ => rfl) (ih ch))
      next plain =>
        split
        · exact .cons_cons (fun same => (unasked same).elim)
            (.cons_cons (fun same => absurd same (by decide)) (ih 't'))
        · exact .cons_cons (fun same => (plain (.inr (.inr same))).elim) (ih ch)

/-! ## What was gathered -/

/-- A line of the directory, of which the empty ones are passed over. -/
def Authored (files : List (List (List Char))) (line : List Char) : Prop :=
  line ≠ [] ∧ ∃ raw ∈ files.flatten, strip raw = line

def Bucket.Fits (b : Bucket) (line : List Char) : Prop :=
  b.low ≤ (Utf8.encode line).length ∧ (Utf8.encode line).length ≤ b.high

/-- No two buckets share a size. -/
theorem Bucket.find_iff (nb : Nat) (b : Bucket) :
    Bucket.find nb = some b ↔ b.low ≤ nb ∧ nb ≤ b.high := by
  have within {b : Bucket} (found : find nb = some b) : b.low ≤ nb ∧ nb ≤ b.high := by
    unfold find at found
    simpa only [decide_eq_true_eq] using List.find?_some found
  refine ⟨within, fun fits => ?_⟩
  cases found : find nb with
  | none =>
      have unfit := List.find?_eq_none.mp found b (by cases b <;> decide)
      simp [fits] at unfit
  | some other =>
      have both := within found
      cases b <;> cases other <;> simp only [low, high] at fits both <;> first | rfl | omega

theorem Bucket.find_none_iff (nb : Nat) :
    Bucket.find nb = none ↔ ∀ b : Bucket, ¬ (b.low ≤ nb ∧ nb ≤ b.high) := by
  constructor
  · intro none b fits
    rw [(find_iff nb b).mpr fits] at none
    cases none
  · intro unfit
    cases found : find nb with
    | none => rfl
    | some b => exact (unfit b ((find_iff nb b).mp found)).elim

namespace Gathered

/-- Everything follows from the lines seen. -/
structure Ok (g : Gathered) (past : List (List Char)) : Prop where
  seen : ∀ line, line ∈ g.seen ↔ line ≠ [] ∧ ∃ raw ∈ past, strip raw = line
  nodup : g.seen.Nodup
  buckets : ∀ b, g.buckets b = (g.seen.filter fun l => Bucket.find (row l).1 = some b).map row
  rejected : g.rejected = (g.seen.filter fun l => Bucket.find (row l).1 = none).map row

variable {g : Gathered} {past : List (List Char)}

theorem Ok.line (ok : g.Ok past) (raw : List Char) : (g.line raw).Ok (past ++ [raw]) := by
  unfold Gathered.line
  simp only
  split
  next empty =>
    refine ⟨fun line => ?_, ok.nodup, ok.buckets, ok.rejected⟩
    rw [ok.seen]
    grind
  split
  next empty again =>
    refine ⟨fun line => ?_, ok.nodup, ok.buckets, ok.rejected⟩
    have earlier := (ok.seen _).mp (List.contains_iff_mem.mp again)
    rw [ok.seen]
    grind
  next empty fresh =>
    have seen : ∀ line, line ∈ g.seen ++ [strip raw] ↔
        line ≠ [] ∧ ∃ later ∈ past ++ [raw], strip later = line := by
      intro line
      rw [List.mem_append, ok.seen]
      grind
    have nodup : (g.seen ++ [strip raw]).Nodup :=
      List.nodup_append.mpr ⟨ok.nodup, List.nodup_singleton _, by grind⟩
    split
    next name found =>
      refine ⟨seen, nodup, fun b => ?_, ?_⟩
      · simp only [List.filter_append, List.map_append, ← ok.buckets]
        by_cases same : b = name
        · subst same
          simp [found]
        · simp [found, same, Ne.symm same]
      · simp only [List.filter_append, List.map_append, ← ok.rejected]
        simp [found]
    next found =>
      refine ⟨seen, nodup, fun b => ?_, ?_⟩
      · simp only [List.filter_append, List.map_append, ← ok.buckets]
        simp [found]
      · simp only [List.filter_append, List.map_append, ← ok.rejected]
        simp [found]

theorem Ok.file (ok : g.Ok past) (raws : List (List Char)) : (g.file raws).Ok (past ++ raws) := by
  induction raws generalizing g past with
  | nil => simpa [Gathered.file] using ok
  | cons raw raws ih =>
      rw [List.append_cons]
      exact ih (ok.line raw)

theorem Ok.files (ok : g.Ok past) (files : List (List (List Char))) :
    (files.foldl Gathered.file g).Ok (past ++ files.flatten) := by
  induction files generalizing g past with
  | nil => simpa using ok
  | cons raws files ih =>
      rw [List.flatten_cons, ← List.append_assoc]
      exact ih (ok.file raws)

theorem ok (files : List (List (List Char))) : (files.foldl Gathered.file {}).Ok files.flatten :=
  @Ok.files {} [] ⟨by simp, List.nodup_nil, fun _ => rfl, rfl⟩ files

end Gathered

/-! ## What the pool is -/

theorem rowLe_trans (a b c : Row) (left : rowLe a b) (right : rowLe b c) : rowLe a c := by
  simp only [rowLe, decide_eq_true_eq] at *
  rcases left with less | ⟨same, le⟩
  · exact .inl (by omega)
  · rcases right with less' | ⟨same', le'⟩
    · exact .inl (by omega)
    · exact .inr ⟨same.trans same', le_trans le le'⟩

theorem rowLe_total (a b : Row) : rowLe a b || rowLe b a := by
  simp only [rowLe, Bool.or_eq_true, decide_eq_true_eq]
  rcases Nat.lt_trichotomy a.1 b.1 with less | same | more
  · exact .inl (.inl less)
  · exact (le_total a.2 b.2).imp (fun le => .inr ⟨same, le⟩) fun le => .inr ⟨same.symm, le⟩
  · exact .inr (.inl more)

theorem rowLe_antisymm (a b : Row) (left : rowLe a b) (right : rowLe b a) : a = b := by
  simp only [rowLe, decide_eq_true_eq] at *
  have same : a.1 = b.1 := by omega
  refine Prod.ext same (le_antisymm ?_ ?_)
  · exact (left.resolve_left (by omega)).2
  · exact (right.resolve_left (by omega)).2

/-- The order of a bucket is that of its rows, whatever order they were found in. -/
theorem sorted_perm {rows others : List Row} (same : rows.Perm others) (some : rows ≠ [])
    (some' : others ≠ []) : sorted rows some = sorted others some' := by
  have ordered : rows.mergeSort rowLe = others.mergeSort rowLe :=
    List.Perm.eq_of_pairwise (fun a b _ _ => rowLe_antisymm a b)
      (List.pairwise_mergeSort rowLe_trans rowLe_total rows)
      (List.pairwise_mergeSort rowLe_trans rowLe_total others)
      ((List.mergeSort_perm rows rowLe).trans (same.trans (List.mergeSort_perm others rowLe).symm))
  simp only [sorted, ordered]

section

variable {files others : List (List (List Char))} {pool : Pool}

theorem gathered_mem (b : Bucket) (r : Row) :
    r ∈ (files.foldl Gathered.file {}).buckets b ↔
      ∃ line, Authored files line ∧ b.Fits line ∧ row line = r := by
  have ok := Gathered.ok files
  rw [ok.buckets, List.mem_map]
  simp only [List.mem_filter, ok.seen, decide_eq_true_eq, Bucket.find_iff, row, Bucket.Fits,
    Authored, and_assoc]

theorem gathered_rejected : (files.foldl Gathered.file {}).rejected = [] ↔
    ∀ line, Authored files line → ∃ b : Bucket, b.Fits line := by
  have ok := Gathered.ok files
  rw [ok.rejected, List.map_eq_nil_iff, List.filter_eq_nil_iff]
  refine forall_congr' fun line => imp_congr (ok.seen line) ?_
  rw [decide_eq_true_iff, Bucket.find_none_iff, not_forall]
  simp only [not_not]
  rfl

theorem gathered_some (b : Bucket) : (files.foldl Gathered.file {}).buckets b ≠ [] ↔
    ∃ line, Authored files line ∧ b.Fits line := by
  constructor
  · intro some
    obtain ⟨r, member⟩ := List.exists_mem_of_ne_nil _ some
    obtain ⟨line, authored, fits, -⟩ := (gathered_mem b r).mp member
    exact ⟨line, authored, fits⟩
  · rintro ⟨line, authored, fits⟩
    exact List.ne_nil_of_mem ((gathered_mem b (row line)).mpr ⟨line, authored, fits, rfl⟩)

/-- The same lines in other files, another order or other numbers fill the buckets alike. -/
theorem gathered_perm (same : ∀ line, Authored files line ↔ Authored others line) (b : Bucket) :
    ((files.foldl Gathered.file {}).buckets b).Perm ((others.foldl Gathered.file {}).buckets b) := by
  have ok := Gathered.ok files
  have ok' := Gathered.ok others
  rw [ok.buckets, ok'.buckets]
  refine ((List.perm_ext_iff_of_nodup ok.nodup ok'.nodup).mpr fun line => ?_).filter _ |>.map row
  rw [ok.seen, ok'.seen]
  exact same line

/-! ## What is generated -/

theorem Pool.eq_of_texts {pool other : Pool} (same : ∀ b, pool.texts b = other.texts b) :
    pool = other := by
  cases pool
  cases other
  exact (Pool.mk.injEq ..).mpr ⟨same .tiny, same .short, same .mid, same .long, same .xlong⟩

theorem mkcorpus_ok_iff : mkcorpus files = .ok pool ↔
    (files.foldl Gathered.file {}).rejected = [] ∧
      ∀ b, ∃ some, pool.texts b = sorted ((files.foldl Gathered.file {}).buckets b) some := by
  by_cases bare : files = []
  · subst bare
    refine ⟨fun made => (by cases made), fun made => ?_⟩
    obtain ⟨some, -⟩ := made.2 .tiny
    exact (some rfl).elim
  rw [mkcorpus, if_neg bare]
  dsimp only
  by_cases fit : (files.foldl Gathered.file {}).rejected = []
  · rw [if_neg (not_not_intro fit)]
    split
    next some =>
      constructor
      · intro made
        obtain rfl := Except.ok.inj made
        refine ⟨fit, fun b => ⟨some b (by cases b <;> decide), ?_⟩⟩
        cases b <;> rfl
      · intro made
        refine congrArg Except.ok (Pool.eq_of_texts fun b => ?_)
        rw [(made.2 b).2]
        cases b <;> rfl
    next missing =>
      refine ⟨fun made => (by cases made), fun made => (missing fun b _ => ?_).elim⟩
      exact (made.2 b).1
  · rw [if_pos fit]
    exact ⟨fun made => (by cases made), fun made => (fit made.1).elim⟩

theorem mkcorpus_isOk_iff : (∃ pool, mkcorpus files = .ok pool) ↔
    (∀ line, Authored files line → ∃ b : Bucket, b.Fits line) ∧
      ∀ b : Bucket, ∃ line, Authored files line ∧ b.Fits line := by
  rw [← gathered_rejected]
  constructor
  · rintro ⟨pool, made⟩
    obtain ⟨fit, texts⟩ := mkcorpus_ok_iff.mp made
    exact ⟨fit, fun b => (gathered_some b).mp (texts b).1⟩
  · rintro ⟨fit, each⟩
    have some (b : Bucket) := (gathered_some b).mpr (each b)
    refine ⟨⟨sorted _ (some .tiny), sorted _ (some .short), sorted _ (some .mid),
      sorted _ (some .long), sorted _ (some .xlong)⟩, mkcorpus_ok_iff.mpr ⟨fit, fun b => ⟨some b, ?_⟩⟩⟩
    cases b <;> rfl

/-- The texts of an array: the lines of the directory within the bounds of its bucket, each once,
the shorter ones first. -/
structure Texts.Of (texts : Texts) (files : List (List (List Char))) (b : Bucket) : Prop where
  mem : ∀ bytes, bytes ∈ texts.lines ↔
    ∃ line, Authored files line ∧ b.Fits line ∧ Utf8.encode line = bytes
  nodup : texts.lines.Nodup
  ordered : texts.lines.Pairwise fun early late => early.length ≤ late.length

theorem Texts.Of.sorted {texts : Texts} {b : Bucket} (of : texts.Of files b) :
    texts.Sorted b.low b.high where
  text := by
    intro bytes member
    obtain ⟨line, -, -, same⟩ := (of.mem bytes).mp member
    exact ⟨line, same.symm⟩
  low := by
    intro bytes member
    obtain ⟨line, -, fits, rfl⟩ := (of.mem bytes).mp member
    exact fits.1
  high := by
    intro bytes member
    obtain ⟨line, -, fits, rfl⟩ := (of.mem bytes).mp member
    exact fits.2

theorem sorted_of (b : Bucket) (some : (files.foldl Gathered.file {}).buckets b ≠ []) :
    (sorted ((files.foldl Gathered.file {}).buckets b) some).Of files b where
  mem := by
    intro bytes
    simp only [sorted, List.mem_map, List.mem_mergeSort, gathered_mem]
    constructor
    · rintro ⟨_, ⟨line, authored, fits, rfl⟩, same⟩
      exact ⟨line, authored, fits, same⟩
    · rintro ⟨line, authored, fits, same⟩
      exact ⟨row line, ⟨line, authored, fits, rfl⟩, same⟩
  nodup := by
    have ok := Gathered.ok files
    refine List.Nodup.map_on ?_ ((List.mergeSort_perm _ rowLe).nodup_iff.mpr ?_)
    · intro r inside r' inside' same
      obtain ⟨line, -, -, rfl⟩ := (gathered_mem b r).mp (List.mem_mergeSort.mp inside)
      obtain ⟨line', -, -, rfl⟩ := (gathered_mem b r').mp (List.mem_mergeSort.mp inside')
      have text := congrArg Utf8.decode same
      simp only [row, Utf8.decode_encode] at text
      rw [Option.some.inj text]
    · rw [ok.buckets]
      exact (ok.nodup.filter _).map fun line line' same => congrArg Prod.snd same
  ordered := by
    refine List.pairwise_map.mpr (List.Pairwise.imp_of_mem ?_
      (List.pairwise_mergeSort rowLe_trans rowLe_total _))
    intro r r' inside inside' le
    obtain ⟨line, -, -, rfl⟩ := (gathered_mem b r).mp (List.mem_mergeSort.mp inside)
    obtain ⟨line', -, -, rfl⟩ := (gathered_mem b r').mp (List.mem_mergeSort.mp inside')
    simp only [rowLe, decide_eq_true_eq] at le
    exact le.elim Nat.le_of_lt fun both => Nat.le_of_eq both.1

theorem mkcorpus_of (made : mkcorpus files = .ok pool) (b : Bucket) : (pool.texts b).Of files b := by
  obtain ⟨some, same⟩ := (mkcorpus_ok_iff.mp made).2 b
  rw [same]
  exact sorted_of b some

theorem mkcorpus_sorted (made : mkcorpus files = .ok pool) : pool.Sorted where
  tiny := (mkcorpus_of made .tiny).sorted
  short := (mkcorpus_of made .short).sorted
  mid := (mkcorpus_of made .mid).sorted
  long := (mkcorpus_of made .long).sorted
  xlong := (mkcorpus_of made .xlong).sorted

theorem mkcorpus_same (same : ∀ line, Authored files line ↔ Authored others line)
    (made : mkcorpus files = .ok pool) : mkcorpus others = .ok pool := by
  obtain ⟨fit, texts⟩ := mkcorpus_ok_iff.mp made
  rw [gathered_rejected] at fit
  refine mkcorpus_ok_iff.mpr ⟨gathered_rejected.mpr fun line authored =>
    fit line ((same line).mpr authored), fun b => ?_⟩
  obtain ⟨some, of⟩ := texts b
  have perm := gathered_perm same b
  have some' : (others.foldl Gathered.file {}).buckets b ≠ [] := by
    intro none
    rw [none] at perm
    exact some (List.perm_nil.mp perm)
  exact ⟨some', of.trans (sorted_perm perm some some')⟩

end

/-- The generator of the pool, for any directory. It refuses exactly where a line is within the
bounds of no bucket or a bucket is left empty. Otherwise each array holds the lines of its bucket,
each once and the shorter ones first, so that the pool is sorted as the corpus needs it. Which
pool it is depends on the set of the lines alone, not on files, order or repetitions. And a
compiler reads each literal that is written back as the line, with no trigraph in it. -/
theorem mkcorpus_pool (files : List (List (List Char))) :
    ((∃ pool, mkcorpus files = .ok pool) ↔
      (∀ line, Authored files line → ∃ b : Bucket, b.Fits line) ∧
        ∀ b : Bucket, ∃ line, Authored files line ∧ b.Fits line) ∧
      (∀ pool, mkcorpus files = .ok pool → pool.Sorted ∧ ∀ b, (pool.texts b).Of files b) ∧
      (∀ others, (∀ line, Authored files line ↔ Authored others line) →
        ∀ pool, mkcorpus files = .ok pool ↔ mkcorpus others = .ok pool) ∧
      ∀ line rest, literal (escape line ++ quote :: rest) = some (line, rest) ∧
        (quote :: escape line).IsChain fun a b => b = '?' → a = backslash :=
  ⟨mkcorpus_isOk_iff, fun _ made => ⟨mkcorpus_sorted made, mkcorpus_of made⟩,
    fun _ same _ => ⟨mkcorpus_same same, mkcorpus_same fun line => (same line).symm⟩,
    fun line rest => ⟨literal_escape line rest, escape_question quote line⟩⟩

end NetEngine.Bench
