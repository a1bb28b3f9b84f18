import NetEngine.Bench.ChatcliProperties

/-! `mode_verify`: the lines that it expects are all different, and it passes exactly if every
client was sent each of them once, byte for byte, and no other chat. -/

set_option autoImplicit false

namespace NetEngine.Chatcli

open Proto

/-! ## The lines that are expected -/

theorem digitChar_inj : ∀ a < 10, ∀ b < 10, Nat.digitChar a = Nat.digitChar b → a = b := by decide

theorem digitChar_plain : ∀ a < 10, Nat.digitChar a ≠ ':' ∧ Nat.digitChar a ≠ '#' ∧
    Nat.digitChar a ≠ Utf8.replacement := by decide

theorem row_inj {row other : List Nat} (small : ∀ d ∈ row, d < 10) (also : ∀ d ∈ other, d < 10)
    (same : row.map Nat.digitChar = other.map Nat.digitChar) : row = other := by
  induction row generalizing other with
  | nil => exact (List.map_eq_nil_iff.mp same.symm).symm
  | cons d row ih =>
      cases other with
      | nil => cases same
      | cons e other =>
          simp only [List.map_cons, List.cons.injEq] at same
          rw [digitChar_inj d (small d List.mem_cons_self) e (also e List.mem_cons_self) same.1,
            ih (fun x member => small x (List.mem_cons_of_mem _ member))
              (fun x member => also x (List.mem_cons_of_mem _ member)) same.2]

def paddedRow (n : Nat) : List Nat :=
  List.replicate (3 - (Decimal.numeral n).length) 0 ++ Decimal.numeral n

theorem padded_eq (n : Nat) : padded n = (paddedRow n).map Nat.digitChar := by
  simp [padded, paddedRow, digits, Nat.digitChar]

theorem paddedRow_lt {n d : Nat} (member : d ∈ paddedRow n) : d < 10 := by
  rcases List.mem_append.mp member with zero | own
  · rw [(List.mem_replicate.mp zero).2]
    decide
  · exact Decimal.numeral_lt own

theorem paddedRow_value (n : Nat) : (paddedRow n).foldl (fun value d => 10 * value + d) 0 = n := by
  have zeros : ∀ k, (List.replicate k 0).foldl (fun value d => 10 * value + d) 0 = 0 := by
    intro k
    induction k with
    | zero => rfl
    | succ k ih => rwa [List.replicate_succ, List.foldl_cons]
  rw [paddedRow, List.foldl_append, zeros, Decimal.numeral_value]

theorem digits_inj {n m : Nat} (same : digits n = digits m) : n = m := by
  have row := row_inj (fun _ => Decimal.numeral_lt) (fun _ => Decimal.numeral_lt) same
  rw [← Decimal.numeral_value n, row, Decimal.numeral_value]

theorem nick_inj {i j : Nat} (same : nick i = nick j) : i = j := by
  have tail : padded i = padded j := (List.cons.inj same).2
  rw [padded_eq, padded_eq] at tail
  have row := row_inj (fun _ => paddedRow_lt) (fun _ => paddedRow_lt) tail
  rw [← paddedRow_value i, row, paddedRow_value]

/-- Letters and digits, with no separator in them. -/
def Plain (text : Text) : Prop := ':' ∉ text ∧ '#' ∉ text ∧ Utf8.replacement ∉ text

theorem row_plain {row : List Nat} (small : ∀ d ∈ row, d < 10) : Plain (row.map Nat.digitChar) := by
  have each : ∀ c ∈ row.map Nat.digitChar, c ≠ ':' ∧ c ≠ '#' ∧ c ≠ Utf8.replacement := by
    intro c member
    obtain ⟨d, inside, rfl⟩ := List.mem_map.mp member
    exact digitChar_plain d (small d inside)
  exact ⟨fun member => (each _ member).1 rfl, fun member => (each _ member).2.1 rfl,
    fun member => (each _ member).2.2 rfl⟩

theorem digits_plain (n : Nat) : Plain (digits n) := row_plain fun _ => Decimal.numeral_lt

theorem nick_plain (i : Nat) : Plain (nick i) := by
  have tail : Plain (padded i) := padded_eq i ▸ row_plain fun _ => paddedRow_lt
  unfold nick
  refine ⟨?_, ?_, ?_⟩
  · simpa using tail.1
  · simpa using tail.2.1
  · simpa [Utf8.replacement] using tail.2.2

theorem fill_plain (n : Nat) : Plain (fill n) := by
  have each : ∀ c ∈ fill n, c ∈ letters := by
    intro c member
    obtain ⟨row, repeated, inside⟩ := List.mem_flatten.mp (List.mem_of_mem_take member)
    rwa [(List.mem_replicate.mp repeated).2] at inside
  exact ⟨fun member => absurd (each _ member) (by decide),
    fun member => absurd (each _ member) (by decide),
    fun member => absurd (each _ member) (by decide)⟩

/-- The first separator is in one place. -/
theorem split_inj {separator : Char} {front other rest more : Text} (clear : separator ∉ front)
    (also : separator ∉ other) (same : front ++ separator :: rest = other ++ separator :: more) :
    front = other ∧ rest = more := by
  induction front generalizing other with
  | nil =>
      cases other with
      | nil => exact ⟨rfl, (List.cons.inj same).2⟩
      | cons c other =>
          have first := (List.cons.inj same).1
          exact absurd (first ▸ List.mem_cons_self) also
  | cons c front ih =>
      cases other with
      | nil =>
          have first := (List.cons.inj same).1
          exact absurd (first ▸ List.mem_cons_self) clear
      | cons d other =>
          obtain ⟨rfl, behind⟩ := List.cons.inj same
          obtain ⟨rfl, rest⟩ := ih (List.not_mem_of_not_mem_cons clear)
            (List.not_mem_of_not_mem_cons also) behind
          exact ⟨rfl, rest⟩

/-- The line that the server makes of the message of client `i` in round `r`. -/
def line (clients r i : Nat) : Text := nick i ++ nickSep ++ body clients r i

/-- A line tells its sender and its round. -/
theorem line_inj {clients r i s j : Nat} (same : line clients r i = line clients s j) :
    r = s ∧ i = j := by
  simp only [line, nickSep, body, List.append_assoc, List.cons_append, List.nil_append] at same
  obtain ⟨who, rest⟩ := split_inj (nick_plain i).1 (nick_plain j).1 same
  have number := split_inj (nick_plain i).2.1 (nick_plain j).2.1 (List.cons.inj rest).2
  have round := split_inj (digits_plain r).1 (digits_plain s).1 number.2
  exact ⟨digits_inj round.1, nick_inj who⟩

theorem line_clean (clients r i : Nat) : Utf8.replacement ∉ line clients r i := by
  have who := (nick_plain i).2.2
  have round := (digits_plain r).2.2
  have rest := (fill_plain (classes.getD ((r * clients + i) % classes.length) 0)).2.2
  simp only [line, nickSep, body, List.mem_append, List.mem_cons, List.not_mem_nil, or_false, not_or]
  exact ⟨⟨who, by decide, by decide⟩, ⟨⟨who, by decide, round⟩, by decide, rest⟩⟩

theorem mem_expected {clients messages : Nat} {text : Text} :
    text ∈ expected clients messages ↔ ∃ r < messages, ∃ i < clients, line clients r i = text := by
  simp [expected, line]

/-- No line is expected twice. -/
theorem expected_nodup (clients messages : Nat) : (expected clients messages).Nodup := by
  refine List.nodup_flatMap.mpr ⟨fun r _ => ?_, ?_⟩
  · exact List.Nodup.map (fun i j same => (line_inj same).2) List.nodup_range
  · refine List.Pairwise.imp (fun apart => ?_) List.nodup_range
    intro text one other
    obtain ⟨i, _, rfl⟩ := List.mem_map.mp one
    obtain ⟨j, _, same⟩ := List.mem_map.mp other
    exact apart (line_inj same).1.symm

/-! ## The tally -/

theorem want_missing (tally : Tally) (got : Counter Text) (entry : Text × Nat) :
    tally.want got entry =
      ⟨tally.missing + (entry.2 - Counter.get entry.1 got),
        tally.dupes + (Counter.get entry.1 got - entry.2), tally.corrupt⟩ := by
  simp only [Tally.want]
  split
  next short =>
    have none : Counter.get entry.1 got - entry.2 = 0 := by omega
    rw [none]
    rfl
  next =>
    split
    next more =>
      have none : entry.2 - Counter.get entry.1 got = 0 := by omega
      rw [none]
      rfl
    next =>
      have none : entry.2 - Counter.get entry.1 got = 0 := by omega
      have extra : Counter.get entry.1 got - entry.2 = 0 := by omega
      rw [none, extra]
      rfl

/-- Nothing is missing, nothing is there twice, and nothing else was seen. -/
def Tally.Clean (tally : Tally) : Prop := tally.missing = 0 ∧ tally.dupes = 0 ∧ tally.corrupt = 0

theorem want_clean (entries got : Counter Text) (tally : Tally) :
    (entries.foldl (fun tally entry => tally.want got entry) tally).Clean ↔
      tally.Clean ∧ ∀ entry ∈ entries, Counter.get entry.1 got = entry.2 := by
  induction entries generalizing tally with
  | nil => simp
  | cons entry entries ih =>
      have both : ∀ held need : Nat,
          (tally.missing + (need - held) = 0 ∧ tally.dupes + (held - need) = 0 ∧ tally.corrupt = 0) ↔
            (tally.missing = 0 ∧ tally.dupes = 0 ∧ tally.corrupt = 0) ∧ held = need := by
        intro held need
        omega
      rw [List.foldl_cons, ih, want_missing]
      simp only [Tally.Clean, List.forall_mem_cons, both, and_assoc]

theorem saw_clean (entries want : Counter Text) (tally : Tally) (positive : ∀ entry ∈ entries, 0 < entry.2) :
    (entries.foldl (fun tally entry => tally.saw want entry) tally).Clean ↔
      tally.Clean ∧ ∀ entry ∈ entries, entry.1 ∈ Counter.keys want := by
  induction entries generalizing tally with
  | nil => simp
  | cons entry entries ih =>
      have own := positive entry List.mem_cons_self
      rw [List.foldl_cons, ih _ fun other member => positive other (List.mem_cons_of_mem _ member)]
      simp only [Tally.saw, List.forall_mem_cons]
      split
      next known => simp [known]
      next unknown =>
        simp only [Tally.Clean, unknown, false_and, and_false, iff_false, not_and]
        omega

/-- A client is found right if what it received is what was wanted, in some order. -/
theorem client_clean (want got : List Text) (tally : Tally) :
    (tally.client (Counter.ofList want) (Counter.ofList got)).Clean ↔ tally.Clean ∧ got.Perm want := by
  rw [Tally.client, saw_clean _ _ _ Counter.ofList_pos, want_clean, and_assoc, ← Counter.perm_iff]

theorem clients_clean (want : List Text) (gots : List (List Text)) (tally : Tally) :
    ((gots.map Counter.ofList).foldl (Tally.client (Counter.ofList want)) tally).Clean ↔
      tally.Clean ∧ ∀ got ∈ gots, got.Perm want := by
  induction gots generalizing tally with
  | nil => simp
  | cons got gots ih =>
      rw [List.map_cons, List.foldl_cons, ih, client_clean, List.forall_mem_cons, and_assoc]

/-! ## The verdict -/

/-- Texts without a replacement come from one row of bytes. -/
theorem decoded_perm {payloads : List Bytes} {want : List Text}
    (clean : ∀ text ∈ want, Utf8.replacement ∉ text) :
    (payloads.map Utf8.replace).Perm want ↔ payloads.Perm (want.map Utf8.encode) := by
  constructor
  · intro same
    have back : (payloads.map Utf8.replace).map Utf8.encode = payloads := by
      rw [List.map_map]
      conv => rhs; rw [← List.map_id payloads]
      apply List.map_congr_left
      intro payload member
      exact (Utf8.replace_clean (clean _ (same.subset (List.mem_map_of_mem member)))).symm
    rw [← back]
    exact same.map Utf8.encode
  · intro same
    have back : (want.map Utf8.encode).map Utf8.replace = want := by
      rw [List.map_map]
      conv => rhs; rw [← List.map_id want]
      apply List.map_congr_left
      intro text _
      exact Utf8.replace_encode text
    rw [← back]
    exact same.map Utf8.replace

/-- The payloads of the chats among frames. -/
def chats (frames : List Frame) : List Bytes := (frames.filter fun frame => frame.1 = sChat).map Prod.snd

/-- The verdict over the bytes that the clients read: it passes if and only if the chats that
arrived whole at each client are the expected lines, each once, and no others. -/
theorem verify_iff (p : Proto) (clients messages : Nat) (frames : Nat → List Frame)
    (pieces : Nat → List Bytes)
    (packs : ∀ i < clients, ∀ frame ∈ frames i, p.Packs frame)
    (inhabited : ∀ i < clients, ∀ piece ∈ pieces i, piece ≠ [])
    (begins : ∀ i < clients, (pieces i).flatten <+: p.stream (frames i)) :
    (expected clients messages).Nodup ∧
      (verify p clients messages pieces = true ↔
        ∀ i < clients, (chats (Framing.whole size (frames i) (pieces i).flatten.length)).Perm
          ((expected clients messages).map Utf8.encode)) := by
  refine ⟨expected_nodup clients messages, ?_⟩
  have gots : (List.range clients).map (fun i => received p (pieces i)) =
      ((List.range clients).map fun i =>
        (chats (Framing.whole size (frames i) (pieces i).flatten.length)).map Utf8.replace).map
          Counter.ofList := by
    rw [List.map_map]
    apply List.map_congr_left
    intro i member
    have inside := List.mem_range.mp member
    have arrived := read_frames_any_split p (frames i) (pieces i) (packs i inside) (inhabited i inside)
      (begins i inside)
    simp only [received, arrived.out, Function.comp_apply, chats, List.filter_map, List.map_map]
    rfl
  have clean : ∀ text ∈ expected clients messages, Utf8.replacement ∉ text := by
    intro text member
    obtain ⟨r, _, i, _, rfl⟩ := mem_expected.mp member
    exact line_clean clients r i
  have verdict : verify p clients messages pieces = true ↔
      (((List.range clients).map fun i => received p (pieces i)).foldl
        (Tally.client (Counter.ofList (expected clients messages))) {}).Clean := by
    simp only [verify, Tally.Clean, Bool.and_eq_true, decide_eq_true_eq, and_assoc]
  rw [verdict, gots, clients_clean]
  constructor
  · rintro ⟨_, each⟩ i inside
    exact (decoded_perm clean).mp (each _ (List.mem_map_of_mem (List.mem_range.mpr inside)))
  · intro each
    refine ⟨⟨rfl, rfl, rfl⟩, fun got member => ?_⟩
    obtain ⟨i, inside, rfl⟩ := List.mem_map.mp member
    exact (decoded_perm clean).mpr (each i (List.mem_range.mp inside))

/-- A notice and the four lines of two clients, which the second of them got last one first. -/
def twoFrames (i : Nat) : List Frame :=
  let lines := (expected 2 2).map fun text => (sChat, Utf8.encode text)
  (100, [104, 105]) :: if i = 0 then lines else lines.reverse

/-- Cut inside a header. -/
def twoPieces (i : Nat) : List Bytes :=
  [(study.stream (twoFrames i)).take 9, (study.stream (twoFrames i)).drop 9]

theorem verify_iff_two : verify study 2 2 twoPieces = true := by
  refine (verify_iff study 2 2 twoFrames twoPieces ?_ (by decide +kernel) fun i _ => ?_).2.mpr
    (by decide +kernel)
  · unfold Packs
    decide +kernel
  · rw [twoPieces, List.flatten_cons, List.flatten_singleton, List.take_append_drop]

end NetEngine.Chatcli
