import Mathlib.Data.List.InsertIdx
import Mathlib.Logic.Function.Basic

/-! Numbered cells that hold a list from zero on, and the loops that open and close
a gap among them. -/

set_option autoImplicit false

namespace NetEngine.Cells

variable {α : Type} {cells : Nat → Option α} {l : List α} {index : Nat}

def Holds (cells : Nat → Option α) (l : List α) : Prop := ∀ i < l.length, cells i = l[i]?

theorem Holds.read (held : Holds cells l) :
    (List.range l.length).map cells = l.map some := by
  apply List.ext_getElem?
  intro i
  cases Nat.lt_or_ge i l.length with
  | inl inside => simp [inside, held i inside]
  | inr outside => simp [outside]

theorem Holds.take (held : Holds cells l) (count : Nat) : Holds cells (l.take count) := by
  intro i inside
  rw [List.length_take] at inside
  rw [List.getElem?_take_of_lt (by omega)]
  exact held i (by omega)

theorem Holds.congr {others : Nat → Option α} (held : Holds cells l)
    (same : ∀ i < l.length, others i = cells i) : Holds others l :=
  fun i inside => (same i inside).trans (held i inside)

theorem Holds.push (held : Holds cells l) (value : α) :
    Holds (Function.update cells l.length (some value)) (l ++ [value]) := by
  intro i inside
  rw [List.length_append, List.length_singleton] at inside
  cases Nat.lt_succ_iff_lt_or_eq.mp inside with
  | inl before =>
      rw [Function.update_of_ne (Nat.ne_of_lt before), List.getElem?_append_left before]
      exact held i before
  | inr last =>
      subst last
      simp

/-! ## Opening a gap -/

/-- `for (i = last; i > index; --i) cells[i] = cells[i - 1]`. -/
def shiftUp (index : Nat) : Nat → (Nat → Option α) → Nat → Option α
  | 0, cells => cells
  | last + 1, cells =>
      if index < last + 1 then
        shiftUp index last (Function.update cells (last + 1) (cells last))
      else cells

theorem shiftUp_apply (last i : Nat) :
    shiftUp index last cells i = if index < i ∧ i ≤ last then cells (i - 1) else cells i := by
  induction last generalizing cells with
  | zero => rw [shiftUp, if_neg (by omega)]
  | succ last ih =>
      rw [shiftUp]
      split
      · rw [ih]
        rcases Nat.lt_trichotomy i (last + 1) with below | top | above
        · rw [Function.update_of_ne (by omega), Function.update_of_ne (by omega)]
          simp only [show (index < i ∧ i ≤ last ↔ index < i ∧ i ≤ last + 1) by omega]
        · subst top
          rw [if_neg (by omega), if_pos (by omega)]
          simp
        · rw [if_neg (by omega), if_neg (by omega), Function.update_of_ne (by omega)]
      · rw [if_neg (by omega)]

theorem Holds.insert (held : Holds cells l) (value : α) (inside : index ≤ l.length) :
    Holds (Function.update (shiftUp index l.length cells) index (some value))
      (l.insertIdx index value) := by
  intro i below
  rw [List.length_insertIdx_of_le_length inside] at below
  rw [List.getElem?_insertIdx]
  rcases Nat.lt_trichotomy i index with before | here | after
  · rw [Function.update_of_ne (by omega), shiftUp_apply, if_neg (by omega), if_pos before]
    exact held i (by omega)
  · subst here
    simp [inside]
  · rw [Function.update_of_ne (by omega), shiftUp_apply, if_pos (by omega), if_neg (by omega),
      if_neg (by omega)]
    exact held (i - 1) (by omega)

/-! ## Closing a gap -/

/-- `steps` rounds of `for (i = first; …; ++i) cells[i] = cells[i + 1]`. -/
def shiftDown : Nat → Nat → (Nat → Option α) → Nat → Option α
  | 0, _, cells => cells
  | steps + 1, first, cells =>
      shiftDown steps (first + 1) (Function.update cells first (cells (first + 1)))

theorem shiftDown_apply (steps first i : Nat) :
    shiftDown steps first cells i =
      if first ≤ i ∧ i < first + steps then cells (i + 1) else cells i := by
  induction steps generalizing first cells with
  | zero => rw [shiftDown, if_neg (by omega)]
  | succ steps ih =>
      rw [shiftDown, ih]
      rcases Nat.lt_trichotomy i first with before | start | after
      · rw [if_neg (by omega), if_neg (by omega), Function.update_of_ne (by omega)]
      · subst start
        rw [if_neg (by omega), if_pos (by omega), Function.update_self]
      · rw [Function.update_of_ne (by omega), Function.update_of_ne (by omega)]
        simp only [show (first + 1 ≤ i ∧ i < first + 1 + steps ↔
          first ≤ i ∧ i < first + (steps + 1)) by omega]

theorem Holds.erase (held : Holds cells l) (inside : index < l.length) :
    Holds (shiftDown (l.length - 1 - index) index cells) (l.eraseIdx index) := by
  intro i below
  rw [List.length_eraseIdx_of_lt inside] at below
  rw [shiftDown_apply, List.getElem?_eraseIdx]
  cases Nat.lt_or_ge i index with
  | inl before =>
      rw [if_neg (by omega), if_pos before]
      exact held i (by omega)
  | inr after =>
      rw [if_pos (by omega), if_neg (by omega)]
      exact held (i + 1) (by omega)

end NetEngine.Cells
