import Mathlib.Data.List.TakeWhile

/-! A text cut into lines, and a line cut into words, at the letters that a
predicate picks out. -/

set_option autoImplicit false

namespace NetEngine.Words

variable {α : Type} (cut : α → Bool)

/-- The rows between cuts, without the empty ones. -/
def words (text : List α) : List (List α) := (text.splitOnP cut).filter fun row => !row.isEmpty

/-- The rows that end in a cut, and the last one if it is not empty. -/
def lines (text : List α) : List (List α) :=
  let rows := text.splitOnP cut
  if rows.getLast?.any List.isEmpty then rows.dropLast else rows

/-- Words joined by one letter. -/
def unwords (sep : α) : List (List α) → List α
  | [] => []
  | [row] => row
  | row :: rows => row ++ sep :: unwords sep rows

/-- Lines ended by one letter each. -/
def unlines (sep : α) (rows : List (List α)) : List α := rows.flatMap fun row => row ++ [sep]

variable {cut}

theorem words_row {row : List α} (whole : ∀ letter ∈ row, cut letter = false) (some : row ≠ []) :
    words cut row = [row] := by
  rw [words, List.splitOnP_eq_singleton whole]
  simpa using some

theorem words_append_cons {row : List α} (whole : ∀ letter ∈ row, cut letter = false)
    (some : row ≠ []) {sep : α} (cuts : cut sep = true) (text : List α) :
    words cut (row ++ sep :: text) = row :: words cut text := by
  rw [words, List.splitOnP_append_cons_of_forall_mem whole sep cuts,
    List.filter_cons_of_pos (by simpa using some), ← words]

/-- What is joined is taken apart again. -/
theorem words_unwords {sep : α} (cuts : cut sep = true) {rows : List (List α)}
    (whole : ∀ row ∈ rows, row ≠ [] ∧ ∀ letter ∈ row, cut letter = false) :
    words cut (unwords sep rows) = rows := by
  induction rows with
  | nil => simp [words, unwords]
  | cons row rows ih =>
      obtain ⟨some, clean⟩ := whole row List.mem_cons_self
      have rest := ih fun other member => whole other (List.mem_cons_of_mem row member)
      cases rows with
      | nil => exact words_row clean some
      | cons next rows => rw [unwords, words_append_cons clean some cuts, rest]; simp

theorem mem_unwords {sep letter : α} {rows : List (List α)} (member : letter ∈ unwords sep rows) :
    letter = sep ∨ ∃ row ∈ rows, letter ∈ row := by
  induction rows with
  | nil => exact absurd member List.not_mem_nil
  | cons row rows ih =>
      cases rows with
      | nil => exact .inr ⟨row, List.mem_cons_self, member⟩
      | cons next rows =>
          rcases List.mem_append.mp member with own | later
          · exact .inr ⟨row, List.mem_cons_self, own⟩
          · rcases List.mem_cons.mp later with same | rest
            · exact .inl same
            · refine (ih rest).imp_right ?_
              rintro ⟨other, among, inside⟩
              exact ⟨other, List.mem_cons_of_mem row among, inside⟩

theorem lines_nil : lines cut [] = [] := by simp [lines]

theorem lines_append_cons {row : List α} (whole : ∀ letter ∈ row, cut letter = false) {sep : α}
    (cuts : cut sep = true) (text : List α) :
    lines cut (row ++ sep :: text) = row :: lines cut text := by
  have some := List.splitOnP_ne_nil cut text
  simp only [lines, List.splitOnP_append_cons_of_forall_mem whole sep cuts]
  generalize text.splitOnP cut = rows at some ⊢
  cases rows with
  | nil => exact absurd rfl some
  | cons next rows =>
      rw [List.getLast?_cons_cons, List.dropLast_cons_cons]
      split <;> rfl

theorem lines_unlines {sep : α} (cuts : cut sep = true) {rows : List (List α)}
    (whole : ∀ row ∈ rows, ∀ letter ∈ row, cut letter = false) :
    lines cut (unlines sep rows) = rows := by
  induction rows with
  | nil => exact lines_nil
  | cons row rows ih =>
      rw [unlines, List.flatMap_cons, List.append_assoc, List.singleton_append,
        lines_append_cons (whole row List.mem_cons_self) cuts, ← unlines,
        ih fun other member => whole other (List.mem_cons_of_mem row member)]

/-! ## The first separator -/

section
variable [DecidableEq α]

theorem takeWhile_sep {row : List α} {sep : α} (clear : sep ∉ row) (rest : List α) :
    (row ++ sep :: rest).takeWhile (· ≠ sep) = row := by
  rw [List.takeWhile_append_of_pos, List.takeWhile_cons_of_neg (by simp), List.append_nil]
  intro letter member
  rw [decide_eq_true_eq]
  rintro rfl
  exact clear member

theorem dropWhile_sep {row : List α} {sep : α} (clear : sep ∉ row) (rest : List α) :
    (row ++ sep :: rest).dropWhile (· ≠ sep) = sep :: rest := by
  rw [List.dropWhile_append_of_pos, List.dropWhile_cons_of_neg (by simp)]
  intro letter member
  rw [decide_eq_true_eq]
  rintro rfl
  exact clear member

end

/-- Rows that are read back one by one are read back together. -/
theorem mapM_read {β γ : Type} {print : β → γ} {read : γ → Option β} {items : List β}
    (back : ∀ item ∈ items, read (print item) = some item) :
    (items.map print).mapM read = some items := by
  induction items with
  | nil => rfl
  | cons item items ih =>
      rw [List.map_cons, List.mapM_cons, back item List.mem_cons_self,
        ih fun other member => back other (List.mem_cons_of_mem item member)]
      rfl

end NetEngine.Words
