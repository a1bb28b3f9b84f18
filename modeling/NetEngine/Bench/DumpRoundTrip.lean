import NetEngine.Bench.DumpText

/-! What is printed into a dump is read back line by line. -/

set_option autoImplicit false

namespace NetEngine.Bench

open Epoll (ascii)

/-! ## Numbers -/

theorem readInt_digits (n : Nat) : readInt (Decimal.print n) = some (n : Int) := by
  have read := Decimal.read_print n
  unfold readInt
  split
  next digits same =>
    have digit : Decimal.IsDigit 45 := Decimal.print_digits (same ▸ List.mem_cons_self)
    exact absurd digit (by decide)
  · rw [read, Option.map_some]

theorem readInt_print (n : Int) : readInt (printInt n) = some n := by
  unfold printInt
  split
  next negative =>
    rw [readInt, Decimal.read_print, Option.map_some, Option.some.injEq]
    omega
  · rw [readInt_digits, Option.some.injEq]
    omega

theorem printInt_letters {n : Int} {letter : UInt8} (member : letter ∈ printInt n) :
    letter = 45 ∨ Decimal.IsDigit letter := by
  unfold printInt at member
  split at member
  · rcases List.mem_cons.mp member with sign | digit
    · exact .inl sign
    · exact .inr (Decimal.print_digits digit)
  · exact .inr (Decimal.print_digits member)

theorem letter_ne_point {letter : UInt8} (known : letter = 45 ∨ Decimal.IsDigit letter) :
    letter ≠ 46 := by
  rintro rfl
  rcases known with sign | digit
  · exact absurd sign (by decide)
  · exact absurd digit (by decide)

theorem readDecimal_printInt (n : Int) : readDecimal (printInt n) = some (n : Rat) := by
  have whole : (printInt n).dropWhile (· ≠ 46) = [] := by
    rw [List.dropWhile_eq_nil_iff]
    intro letter member
    simpa using letter_ne_point (printInt_letters member)
  rw [readDecimal, whole]
  simp only [readInt_print, Option.map_some]

/-- Leading zeros do not change what is read. -/
theorem read_padded (zeros n : Nat) :
    Decimal.read (List.replicate zeros 48 ++ Decimal.print n) = some n := by
  have read := Decimal.read_print n
  have digits : ∀ letter ∈ List.replicate zeros 48 ++ Decimal.print n, Decimal.IsDigit letter := by
    intro letter member
    rcases List.mem_append.mp member with zero | digit
    · rw [List.eq_of_mem_replicate zero]
      decide
    · exact Decimal.print_digits digit
  have zero : (List.replicate zeros (48 : UInt8)).foldl
      (fun n letter => 10 * n + (letter.toNat - 48)) 0 = 0 := by
    induction zeros with
    | zero => rfl
    | succ zeros ih =>
        rw [List.replicate_succ, List.foldl_cons]
        exact ih fun letter member => digits letter (List.mem_cons_of_mem 48 member)
  unfold Decimal.read at read ⊢
  have all := List.all_eq_true.mpr fun letter member => decide_eq_true (digits letter member)
  rw [if_pos ⟨Decimal.print_ne_nil n, Decimal.print_all n⟩] at read
  rw [if_pos ⟨by simp [Decimal.print_ne_nil], all⟩, List.foldl_append, zero]
  exact read

theorem readDecimal_printMillionths (n : Int) :
    readDecimal (printMillionths n) = some ((n : Rat) / 1000000) := by
  have short : (Decimal.print (n.natAbs % 1000000)).length ≤ 6 :=
    (Decimal.width_le_iff (by decide)).mpr (Nat.mod_lt _ (by decide))
  have split : (n.natAbs : Rat) = 1000000 * (n.natAbs / 1000000 : Nat) +
      (n.natAbs % 1000000 : Nat) := by
    exact_mod_cast (Nat.div_add_mod n.natAbs 1000000).symm
  have clear : 46 ∉ (if n < 0 then [45] else []) ++ Decimal.print (n.natAbs / 1000000) := by
    intro member
    rcases List.mem_append.mp member with sign | digit
    · split at sign <;> simp at sign
    · exact letter_ne_point (.inr (Decimal.print_digits digit)) rfl
  have width : (List.replicate (6 - (Decimal.print (n.natAbs % 1000000)).length) 48 ++
      Decimal.print (n.natAbs % 1000000)).length = 6 := by
    rw [List.length_append, List.length_replicate]
    omega
  unfold readDecimal printMillionths
  simp only [Words.takeWhile_sep clear, Words.dropWhile_sep clear, read_padded, width]
  generalize n.natAbs / 1000000 = whole at split ⊢
  generalize n.natAbs % 1000000 = part at split ⊢
  by_cases negative : n < 0
  · have value : (n : Rat) = -(n.natAbs : Rat) := by
      rw [Nat.cast_natAbs, abs_of_neg negative]
      push_cast
      ring
    simp only [negative, if_true, List.cons_append, List.nil_append, readInt, Decimal.read_print,
      Option.map_some, List.head?_cons]
    simp only [Option.bind_eq_bind, Option.bind_some]
    rw [value, split]
    congr 1
    push_cast
    ring
  · have value : (n : Rat) = (n.natAbs : Rat) := by
      rw [Nat.cast_natAbs, abs_of_nonneg (not_lt.mp negative)]
    have plain : (Decimal.print whole ++
        46 :: (List.replicate (6 - (Decimal.print part).length) 48 ++ Decimal.print part)).head? ≠
          some 45 := by
      intro sign
      rw [List.head?_append_of_ne_nil _ (Decimal.print_ne_nil whole)] at sign
      have digit := Decimal.print_digits (List.mem_of_mem_head? sign)
      exact absurd digit (by decide)
    simp only [negative, if_false, List.nil_append, readInt_digits, plain]
    simp only [Option.bind_eq_bind, Option.bind_some]
    rw [value, split]
    congr 1
    push_cast
    ring

/-! ## Words -/

/-- A word as a line holds it. -/
def Printable (word : Bytes) : Prop := word ≠ [] ∧ ∀ letter ∈ word, 33 ≤ letter.toNat

instance (word : Bytes) : Decidable (Printable word) :=
  @instDecidableAnd _ _ _ (List.decidableBAll (fun letter => 33 ≤ letter.toNat) word)

theorem printable_not_blank {letter : UInt8} (visible : 33 ≤ letter.toNat) :
    isBlank letter = false := by
  have space : letter ≠ 32 := by
    rintro rfl
    exact absurd visible (by decide)
  simp only [isBlank, space, decide_false, Bool.false_or, Bool.or_eq_false_iff,
    Bool.and_eq_false_iff, decide_eq_false_iff_not]
  omega

theorem printable_not_break {letter : UInt8} (visible : 33 ≤ letter.toNat) :
    isBreak letter = false := by
  simp only [isBreak, Bool.or_eq_false_iff, Bool.and_eq_false_iff, decide_eq_false_iff_not]
  omega

theorem printable_digits (n : Nat) : Printable (Decimal.print n) := by
  refine ⟨Decimal.print_ne_nil n, fun letter member => ?_⟩
  have digit := Decimal.print_digits member
  exact Nat.le_trans (by decide) digit.1

theorem Printable.append {left right : Bytes} (first : Printable left)
    (second : ∀ letter ∈ right, 33 ≤ letter.toNat) : Printable (left ++ right) := by
  refine ⟨by simp [first.1], fun letter member => ?_⟩
  rcases List.mem_append.mp member with left | right
  · exact first.2 letter left
  · exact second letter right

theorem printable_int (n : Int) : Printable (printInt n) := by
  unfold printInt
  split
  · have sign : Printable [45] := by decide
    exact sign.append (printable_digits _).2
  · exact printable_digits _

theorem printable_millionths (n : Int) : Printable (printMillionths n) := by
  have digits (m : Nat) := (printable_digits m).2
  refine ⟨by simp [printMillionths], fun letter member => ?_⟩
  rcases List.mem_append.mp member with whole | fraction
  · rcases List.mem_append.mp whole with sign | digit
    · split at sign
      · rw [List.mem_singleton.mp sign]
        decide
      · exact absurd sign List.not_mem_nil
    · exact digits _ letter digit
  · rcases List.mem_cons.mp fraction with rfl | part
    · decide
    · rcases List.mem_append.mp part with zero | digit
      · rw [List.eq_of_mem_replicate zero]
        decide
      · exact digits _ letter digit

theorem printable_field {key : String} (visible : Printable (ascii key)) {value : Bytes}
    (shown : Printable value) : Printable (printField key value) := by
  refine visible.append fun letter member => ?_
  rcases List.mem_cons.mp member with rfl | inside
  · decide
  · exact shown.2 letter inside

theorem Line.words_printable (line : Line) {word : Bytes} (member : word ∈ line.words) :
    Printable word := by
  cases line with
  | header version lagFloor lagRatio =>
      simp only [Line.words, List.mem_cons, List.not_mem_nil, or_false] at member
      rcases member with rfl | rfl | rfl | rfl
      · decide
      · have letter : Printable [118] := by decide
        exact letter.append (printable_digits version).2
      · exact printable_field (by decide) (printable_digits lagFloor)
      · exact printable_field (by decide) (printable_digits lagRatio)
  | node id =>
      simp only [Line.words, List.mem_cons, List.not_mem_nil, or_false] at member
      rcases member with rfl | rfl
      · decide
      · exact printable_digits id
  | sum key value =>
      simp only [Line.words, List.mem_cons, List.not_mem_nil, or_false] at member
      rcases member with rfl | rfl
      · cases key <;> decide
      · exact printable_int value
  | first key value =>
      cases key <;> simp only [Line.words, List.mem_cons, List.not_mem_nil, or_false] at member <;>
        rcases member with rfl | rfl
      · decide
      · exact printable_millionths _
      · decide
      · exact printable_int _
      · decide
      · exact printable_int _
  | hist label total overflow min max bucketNs =>
      simp only [Line.words, List.mem_cons, List.not_mem_nil, or_false] at member
      rcases member with rfl | rfl | rfl | rfl | rfl | rfl | rfl
      · decide
      · cases label <;> decide
      · exact printable_field (by decide) (printable_digits total)
      · exact printable_field (by decide) (printable_digits overflow)
      · exact printable_field (by decide) (printable_digits min)
      · exact printable_field (by decide) (printable_digits max)
      · exact printable_field (by decide) (printable_digits bucketNs)
  | bucket b count =>
      simp only [Line.words, List.mem_cons, List.not_mem_nil, or_false] at member
      rcases member with rfl | rfl
      · exact printable_digits b
      · exact printable_digits count
  | close =>
      simp only [Line.words, List.mem_cons, List.not_mem_nil, or_false] at member
      subst member
      decide

/-- A printed line falls into its words again. -/
theorem Line.words_print (line : Line) : Words.words isBlank line.print = line.words := by
  refine Words.words_unwords (by decide) fun word member => ?_
  have shown := line.words_printable member
  exact ⟨shown.1, fun letter inside => printable_not_blank (shown.2 letter inside)⟩

theorem Line.print_whole (line : Line) {letter : UInt8} (member : letter ∈ line.print) :
    32 ≤ letter.toNat ∧ isBreak letter = false := by
  rcases Words.mem_unwords member with rfl | ⟨word, among, inside⟩
  · decide
  · have visible := (line.words_printable among).2 letter inside
    exact ⟨Nat.le_of_succ_le visible, printable_not_break visible⟩

/-! ## Lines -/

theorem readField_print {key : String} (clear : 61 ∉ ascii key) (value : Bytes) :
    readField (printField key value) = some (ascii key, value) := by
  unfold readField printField
  simp only [Words.takeWhile_sep clear, Words.dropWhile_sep clear]

theorem Line.print_ne_end {line : Line} (more : line.words ≠ [ascii "end"]) :
    line.print ≠ ascii "end" := by
  intro same
  have words := line.words_print
  rw [same] at words
  exact more (words.symm.trans (by decide))

theorem readLine_pair {line : Line} {key value : Bytes} (words : line.words = [key, value])
    (other : key ≠ ascii "hist") : readLine line.print = readPair key value := by
  unfold readLine
  rw [if_neg (Line.print_ne_end (by simp [words])), line.words_print, words]
  simp only [other, if_false]

/-- The lines after the header, with values that their formats show in full. -/
def Line.Plain : Line → Prop
  | .header .. => False
  | .first .rate value => ∃ n : Int, value = n / 1000000
  | .first _ value => ∃ n : Int, value = n
  | _ => True

theorem digits_ne {key : Bytes} (letters : key.any (Decimal.IsDigit ·) = false) (n : Nat) :
    key ≠ Decimal.print n := by
  rintro rfl
  obtain ⟨letter, rest, same⟩ := List.exists_cons_of_ne_nil (Decimal.print_ne_nil n)
  have inside : letter ∈ Decimal.print n := by simp [same]
  have digit := List.any_eq_false.mp letters letter inside
  exact digit (decide_eq_true (Decimal.print_digits inside))

theorem readPair_bucket (b count : Nat) :
    readPair (Decimal.print b) (Decimal.print count) = some (.bucket b count) := by
  have sums : SumKey.all.find? (·.key = Decimal.print b) = none := by
    rw [List.find?_eq_none]
    intro key _
    rw [decide_eq_true_eq]
    refine digits_ne ?_ b
    cases key <;> decide
  have firsts : FirstKey.all.find? (·.key = Decimal.print b) = none := by
    rw [List.find?_eq_none]
    intro key _
    rw [decide_eq_true_eq]
    refine digits_ne ?_ b
    cases key <;> decide
  have node : Decimal.print b ≠ ascii "node" := (digits_ne (by decide) b).symm
  unfold readPair
  simp only [sums, firsts, node, if_false, Decimal.read_print]

theorem readNumber_print {fields : List (Bytes × Bytes)} {key : String} {n : Nat}
    (found : fields.reverse.find? (·.1 = ascii key) = some (ascii key, Decimal.print n)) :
    readNumber fields key = some n := by
  rw [readNumber, found, Option.bind_some, Decimal.read_print]

/-- The dictionary of the fields that a `hist` line shows. -/
theorem readHist_print (label : Label) (total overflow min max bucketNs : Nat) :
    readHist [label.key, printField "total" (Decimal.print total),
      printField "overflow" (Decimal.print overflow), printField "min" (Decimal.print min),
      printField "max" (Decimal.print max), printField "bucket_ns" (Decimal.print bucketNs)] =
      some (.hist label total overflow min max bucketNs) := by
  have labelled : (if label.key = ascii "latency" then Label.latency else .selfLag) = label := by
    cases label <;> rfl
  unfold readHist
  simp only [List.mapM_cons, List.mapM_nil, readField_print (show 61 ∉ ascii "total" by decide),
    readField_print (show 61 ∉ ascii "overflow" by decide),
    readField_print (show 61 ∉ ascii "min" by decide),
    readField_print (show 61 ∉ ascii "max" by decide),
    readField_print (show 61 ∉ ascii "bucket_ns" by decide), labelled]
  simp only [Option.pure_def, Option.bind_eq_bind, Option.bind_some]
  rw [readNumber_print (n := total) rfl, readNumber_print (n := overflow) rfl, readNumber_print (n := min) rfl, readNumber_print (n := max) rfl, readNumber_print (n := bucketNs) rfl]
  rfl

theorem readLine_print {line : Line} (plain : line.Plain) : readLine line.print = some line := by
  cases line with
  | header => exact absurd plain id
  | node id =>
      rw [readLine_pair rfl (by decide)]
      simp only [readPair, show SumKey.all.find? (·.key = ascii "node") = none from rfl,
        show FirstKey.all.find? (·.key = ascii "node") = none from rfl, if_true,
        Decimal.read_print, Option.map_some]
  | sum key value =>
      have found : SumKey.all.find? (·.key = key.key) = some key := by cases key <;> rfl
      rw [readLine_pair rfl (by cases key <;> decide)]
      simp only [readPair, found, readInt_print, Option.map_some]
  | first key value =>
      have missing : SumKey.all.find? (·.key = key.key) = none := by cases key <;> rfl
      have found : FirstKey.all.find? (·.key = key.key) = some key := by cases key <;> rfl
      cases key with
      | rate =>
          obtain ⟨n, rfl⟩ := plain
          have whole : ⌊(n : Rat) / 1000000 * 1000000⌋ = n := by
            rw [div_mul_cancel₀ _ (by norm_num), Int.floor_intCast]
          rw [readLine_pair rfl (by decide)]
          simp only [readPair, missing, found, whole, readDecimal_printMillionths, Option.map_some]
      | duration =>
          obtain ⟨n, rfl⟩ := plain
          rw [readLine_pair rfl (by decide)]
          simp only [readPair, missing, found, Int.floor_intCast, readDecimal_printInt,
            Option.map_some]
      | perRoom =>
          obtain ⟨n, rfl⟩ := plain
          rw [readLine_pair rfl (by decide)]
          simp only [readPair, missing, found, Int.floor_intCast, readDecimal_printInt,
            Option.map_some]
  | hist label total overflow min max bucketNs =>
      have words := (Line.hist label total overflow min max bucketNs).words_print
      unfold readLine
      rw [if_neg (Line.print_ne_end (by simp [Line.words])), words]
      simp only [Line.words, if_true]
      rw [readHist_print]
  | bucket b count => rw [readLine_pair rfl (digits_ne (by decide) b).symm, readPair_bucket]
  | close => exact if_pos rfl

/-! ## Files -/

theorem readHeader_print (lagFloor lagRatio : Nat) :
    readHeader (Line.header 1 lagFloor lagRatio).print = some (.header 1 lagFloor lagRatio) := by
  have words := (Line.header 1 lagFloor lagRatio).words_print
  have opening : (ascii "netbench-dump ").isPrefixOf (Line.header 1 lagFloor lagRatio).print := by
    rw [List.isPrefixOf_iff_prefix]
    exact ⟨_, rfl⟩
  have version : 118 :: Decimal.print 1 = ascii "v1" := by
    simp [Decimal.print, Decimal.numeral]
    decide
  unfold readHeader
  rw [if_pos opening, words]
  simp only [Line.words, version, if_true, List.mapM_cons, List.mapM_nil,
    readField_print (show 61 ∉ ascii "lag_floor_ns" by decide),
    readField_print (show 61 ∉ ascii "lag_ratio" by decide)]
  simp only [Option.pure_def, Option.bind_eq_bind, Option.bind_some]
  rw [readNumber_print (n := lagFloor) rfl, readNumber_print (n := lagRatio) rfl]
  rfl

theorem newlines_eq {text : Bytes} (plain : 13 ∉ text) : newlines text = text := by
  induction text with
  | nil => rfl
  | cons letter text ih =>
      obtain ⟨other, rest⟩ := not_or.mp (List.mem_cons.not.mp plain)
      rw [newlines, ih rest]
      · rintro tail rfl
        exact absurd rfl other
      · rintro rfl
        exact absurd rfl other

theorem plain_histogram (label : Label) (h : Histogram) {line : Line}
    (member : line ∈ dumpHistogram label h) : line.Plain := by
  rcases List.mem_append.mp member with opening | closing
  · rcases List.mem_cons.mp opening with rfl | bucket
    · trivial
    · obtain ⟨b, _, rfl⟩ := List.mem_map.mp bucket
      trivial
  · rw [List.mem_singleton.mp closing]
    trivial

theorem plain_scalars (cfg : Config) (st : Stats) {line : Line}
    (member : line ∈ (dumpScalars cfg st).tail) : line.Plain := by
  simp only [dumpScalars, List.tail_cons, List.mem_cons, List.not_mem_nil, or_false] at member
  rcases member with rfl | rfl | rfl | rfl | rfl | rfl | rfl | rfl | rfl | rfl | rfl | rfl
  case inr.inr.inl => exact ⟨cfg.perRoom, rfl⟩
  case inr.inr.inr.inl => exact ⟨_, rfl⟩
  case inr.inr.inr.inr.inl => exact ⟨cfg.duration, rfl⟩
  all_goals trivial

/-- The file falls into the lines that were dumped. -/
theorem readFile_dumpFile (cfg : Config) (st : Stats) :
    readFile (dumpFile cfg st) = some (dumpStats cfg st) := by
  have clear : 13 ∉ dumpFile cfg st := by
    intro member
    obtain ⟨row, among, inside⟩ := List.mem_flatMap.mp member
    obtain ⟨line, _, rfl⟩ := List.mem_map.mp among
    rcases List.mem_append.mp inside with letter | last
    · exact absurd (line.print_whole letter).1 (by decide)
    · exact absurd (List.mem_singleton.mp last) (by decide)
  have rows : Words.lines isBreak (newlines (dumpFile cfg st)) =
      (dumpStats cfg st).map Line.print := by
    rw [newlines_eq clear]
    refine Words.lines_unlines (by decide) fun row among letter inside => ?_
    obtain ⟨line, _, rfl⟩ := List.mem_map.mp among
    exact (line.print_whole inside).2
  have whole : dumpStats cfg st = .header 1 lagFloorNs lagRatio :: (dumpStats cfg st).tail := rfl
  have rest : ((dumpStats cfg st).tail.map Line.print).mapM readLine =
      some (dumpStats cfg st).tail := by
    refine Words.mapM_read fun line member => readLine_print ?_
    have parts : (dumpStats cfg st).tail = (dumpScalars cfg st).tail ++
        dumpHistogram .latency st.latency ++ dumpHistogram .selfLag st.selfLag := rfl
    rw [parts, List.mem_append, List.mem_append] at member
    rcases member with (scalar | latency) | selfLag
    · exact plain_scalars cfg st scalar
    · exact plain_histogram .latency st.latency latency
    · exact plain_histogram .selfLag st.selfLag selfLag
  unfold readFile
  rw [rows, whole, List.map_cons]
  simp only [readHeader_print, rest, Option.bind_eq_bind, Option.bind_some]

end NetEngine.Bench
