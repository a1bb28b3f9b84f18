import Mathlib.Data.List.Basic
import Mathlib.Data.List.Range
import Mathlib.Tactic.Ring

/-! Memory regions as functions from offsets. A copy writes a run of cells; a
circular window of a region of `size` cells is read at `(base + i) % size`.
The lemmas say which cells a list of copies touches and what it leaves there,
so that a copy split at the wrap can be executed one region at a time. -/

set_option autoImplicit false

namespace NetEngine.Region

variable {α : Type}

def write (store : Nat → α) (offset : Nat) (data : List α) : Nat → α := fun index =>
  if offset ≤ index then data.getD (index - offset) (store index) else store index

def read (store : Nat → α) (offset count : Nat) : List α :=
  (List.range count).map fun index => store (offset + index)

/-- `count` cells of the circular region of `size` cells, from position `base` on. -/
def window (store : Nat → α) (size base count : Nat) : List α :=
  (List.range count).map fun index => store ((base + index) % size)

@[simp] theorem read_length (store : Nat → α) (offset count : Nat) :
    (read store offset count).length = count := by
  simp [read]

@[simp] theorem window_length (store : Nat → α) (size base count : Nat) :
    (window store size base count).length = count := by
  simp [window]

theorem write_inside (store : Nat → α) (offset : Nat) (data : List α) (index : Nat)
    (inside : index < data.length) : write store offset data (offset + index) = data[index] := by
  simp [write, inside]

theorem write_outside (store : Nat → α) (offset : Nat) (data : List α) (index : Nat)
    (outside : index < offset ∨ offset + data.length ≤ index) :
    write store offset data index = store index := by
  unfold write
  split
  · simp only [List.getD_eq_getElem?_getD, List.getElem?_eq_none (show data.length ≤ index - offset by omega), Option.getD_none]
  · rfl

@[simp] theorem write_nil (store : Nat → α) (offset : Nat) : write store offset [] = store := by
  funext index
  simp [write]

theorem read_append (store : Nat → α) (offset left right : Nat) :
    read store offset (left + right) = read store offset left ++ read store (offset + left) right := by
  simp only [read, List.range_add, List.map_append, List.map_map]
  congr 1
  apply List.map_congr_left
  intro index _
  simp [Nat.add_assoc]

theorem read_drop (store : Nat → α) {offset count total : Nat} (within : count ≤ total) :
    (read store offset total).drop count = read store (offset + count) (total - count) := by
  obtain ⟨more, rfl⟩ := Nat.exists_eq_add_of_le within
  rw [read_append, List.drop_left' (read_length ..), Nat.add_sub_cancel_left]

theorem read_write (store : Nat → α) (offset : Nat) (data : List α) :
    read (write store offset data) offset data.length = data := by
  apply List.ext_getElem (read_length ..)
  intro index _ inside
  simpa [read] using write_inside store offset data index inside

theorem read_write_behind (store : Nat → α) {offset count other : Nat} (data : List α)
    (behind : offset + count ≤ other) :
    read (write store other data) offset count = read store offset count := by
  apply List.map_congr_left
  intro index member
  rw [List.mem_range] at member
  exact write_outside _ _ _ _ (.inl (by omega))

/-- Positions less than one revolution apart fall on different cells. -/
theorem position_injective {size left right : Nat} (near : left < right)
    (revolution : right < left + size) : left % size ≠ right % size := by
  intro same
  have divides : size ∣ right - left :=
    Nat.dvd_of_mod_eq_zero (Nat.sub_mod_eq_zero_of_mod_eq same.symm)
  have bound := Nat.le_of_dvd (by omega) divides
  omega

theorem position_unwrapped {size base index : Nat} (fits : base % size + index < size) :
    (base + index) % size = base % size + index := by
  have small : index % size = index := Nat.mod_eq_of_lt (by omega)
  rw [Nat.add_mod, small, Nat.mod_eq_of_lt fits]

theorem position_wrapped {size base index : Nat} (inside : base % size < size)
    (fits : index < size) : (base + (size - base % size + index)) % size = index := by
  have turn : base + (size - base % size + index) = index + size * (base / size + 1) := by
    have parts := Nat.div_add_mod base size
    have expand : size * (base / size + 1) = size * (base / size) + size := by ring
    omega
  rw [turn, Nat.add_mul_mod_self_left, Nat.mod_eq_of_lt fits]

theorem window_congr {store other : Nat → α} {size base count : Nat}
    (agree : ∀ index < count, store ((base + index) % size) = other ((base + index) % size)) :
    window store size base count = window other size base count := by
  apply List.map_congr_left
  intro index member
  exact agree index (List.mem_range.mp member)

theorem window_append (store : Nat → α) (size base left right : Nat) :
    window store size base (left + right) =
      window store size base left ++ window store size (base + left) right := by
  simp only [window, List.range_add, List.map_append, List.map_map]
  congr 1
  apply List.map_congr_left
  intro index _
  simp [Nat.add_assoc]

theorem window_take (store : Nat → α) (size base : Nat) {count total : Nat}
    (within : count ≤ total) :
    (window store size base total).take count = window store size base count := by
  obtain ⟨more, rfl⟩ := Nat.exists_eq_add_of_le within
  rw [window_append, List.take_append_of_le_length (by simp), List.take_of_length_le (by simp)]

/-- The two regions of a window that is cut where the storage ends. -/
theorem window_eq_reads (store : Nat → α) {size base count : Nat} (fits : count ≤ size)
    (positive : 0 < size) :
    read store (base % size) (min count (size - base % size)) ++
        read store 0 (count - min count (size - base % size)) =
      window store size base count := by
  have position : base % size < size := Nat.mod_lt _ positive
  obtain whole | wraps : count ≤ size - base % size ∨ size - base % size < count := by omega
  · rw [Nat.min_eq_left whole, Nat.sub_self]
    simp only [read, List.range_zero, List.map_nil, List.append_nil, window]
    apply List.map_congr_left
    intro index member
    rw [List.mem_range] at member
    rw [position_unwrapped (by omega)]
  · rw [Nat.min_eq_right wraps.le]
    have split : count = (size - base % size) + (count - (size - base % size)) := by omega
    conv_rhs => rw [split]
    rw [window_append]
    congr 1
    · simp only [read, window]
      apply List.map_congr_left
      intro index member
      rw [List.mem_range] at member
      rw [position_unwrapped (by omega)]
    · simp only [read, window]
      apply List.map_congr_left
      intro index member
      rw [List.mem_range] at member
      rw [Nat.add_assoc, position_wrapped position (by omega), Nat.zero_add]

/-! ## Pending copies -/

structure Copy (α : Type) where
  offset : Nat
  data : List α

def Copy.apply (store : Nat → α) (copy : Copy α) : Nat → α := write store copy.offset copy.data

/-- Executing `copies` in order lays `data` out over the window at `base`, and
until then no copy touches a cell outside that window. -/
structure Lays (size base : Nat) (data : List α) (store : Nat → α) (copies : List (Copy α)) :
    Prop where
  inside : ∀ copy ∈ copies, ∀ index < copy.data.length,
    ∃ position < data.length, copy.offset + index = (base + position) % size
  laid : ∀ position (bound : position < data.length),
    copies.foldl Copy.apply store ((base + position) % size) = data[position]

theorem Lays.apply {size base : Nat} {data : List α} {store : Nat → α} {copy : Copy α}
    {copies : List (Copy α)} (lays : Lays size base data store (copy :: copies)) :
    Lays size base data (copy.apply store) copies :=
  ⟨fun other member => lays.inside other (List.mem_cons_of_mem _ member), lays.laid⟩

theorem Lays.done {size base : Nat} {data : List α} {store : Nat → α}
    (lays : Lays size base data store []) : window store size base data.length = data := by
  apply List.ext_getElem (by simp)
  intro index left right
  simpa [window] using lays.laid index right

/-- A copy of the window leaves every cell whose position is outside it alone. -/
theorem Lays.apply_outside {size base : Nat} {data : List α} {store : Nat → α} {copy : Copy α}
    {copies : List (Copy α)} (lays : Lays size base data store (copy :: copies)) {cell : Nat}
    (outside : ∀ position < data.length, cell ≠ (base + position) % size) :
    copy.apply store cell = store cell := by
  by_cases touched : copy.offset ≤ cell ∧ cell - copy.offset < copy.data.length
  · obtain ⟨position, bound, same⟩ :=
      lays.inside copy List.mem_cons_self (cell - copy.offset) touched.2
    exact absurd (by omega) (outside position bound)
  · exact write_outside _ _ _ _ (by omega)

private theorem foldl_apply_outside {copies : List (Copy α)} (store : Nat → α) (cell : Nat)
    (outside : ∀ copy ∈ copies, ∀ index < copy.data.length, copy.offset + index ≠ cell) :
    copies.foldl Copy.apply store cell = store cell := by
  induction copies generalizing store with
  | nil => rfl
  | cons copy copies ih =>
      rw [List.foldl_cons, ih _ (fun other member => outside other (List.mem_cons_of_mem _ member))]
      by_cases touched : copy.offset ≤ cell ∧ cell - copy.offset < copy.data.length
      · exact absurd (by omega) (outside copy List.mem_cons_self (cell - copy.offset) touched.2)
      · exact write_outside _ _ _ _ (by omega)

/-- Two windows that follow each other and fit the region together can be laid
by two lists of copies, one after the other. -/
theorem Lays.append {size base : Nat} {left right : List α} {store : Nat → α}
    {leftCopies rightCopies : List (Copy α)} (fits : left.length + right.length ≤ size)
    (first : Lays size base left store leftCopies)
    (second : ∀ after, Lays size (base + left.length) right after rightCopies) :
    Lays size base (left ++ right) store (leftCopies ++ rightCopies) := by
  constructor
  · intro copy member index bound
    rcases List.mem_append.mp member with early | late
    · obtain ⟨position, inside, same⟩ := first.inside copy early index bound
      exact ⟨position, by simp; omega, same⟩
    · obtain ⟨position, inside, same⟩ := (second store).inside copy late index bound
      exact ⟨left.length + position, by simp; omega, by rw [same, Nat.add_assoc]⟩
  · intro position bound
    rw [List.foldl_append]
    by_cases early : position < left.length
    · rw [foldl_apply_outside, List.getElem_append_left early]
      · exact first.laid position early
      · intro copy member index inside same
        obtain ⟨other, otherBound, cell⟩ := (second store).inside copy member index inside
        have before : base + position < base + left.length + other := by omega
        exact position_injective before (by omega) (same.symm.trans cell)
    · have late : position - left.length < right.length := by
        rw [List.length_append] at bound
        omega
      have laid := (second (leftCopies.foldl Copy.apply store)).laid _ late
      have same : base + position = base + left.length + (position - left.length) := by omega
      rw [List.getElem_append_right (by omega), ← laid, same]

/-- One copy lays a window that does not reach the end of the region. -/
theorem Lays.contiguous {size base : Nat} {data : List α}
    (fits : base % size + data.length ≤ size) (store : Nat → α) :
    Lays size base data store [⟨base % size, data⟩] := by
  constructor
  · intro copy member index bound
    simp only [List.mem_cons, List.not_mem_nil, or_false] at member
    subst member
    exact ⟨index, bound, (position_unwrapped (by simp only at bound; omega)).symm⟩
  · intro index bound
    rw [position_unwrapped (by omega)]
    exact write_inside _ _ _ _ bound

/-! ## Pending reads -/

/-- The bytes read so far together with the regions still to be read. -/
structure Reads (size base : Nat) (wanted : List α) (store : Nat → α) (got : List α)
    (regions : List (Nat × Nat)) : Prop where
  inside : ∀ region ∈ regions, ∀ index < region.2,
    ∃ position < wanted.length, region.1 + index = (base + position) % size
  total : got ++ regions.flatMap (fun region => read store region.1 region.2) = wanted

/-- One region reads a window that does not reach the end of the storage. -/
theorem Reads.contiguous {size base count : Nat} (fits : base % size + count ≤ size)
    (store : Nat → α) :
    Reads size base (window store size base count) store [] [(base % size, count)] := by
  constructor
  · intro region member index bound
    simp only [List.mem_cons, List.not_mem_nil, or_false] at member
    subst member
    simp only at bound
    exact ⟨index, by simpa using bound, (position_unwrapped (by omega)).symm⟩
  · simp only [List.flatMap_cons, List.flatMap_nil, List.append_nil, List.nil_append]
    apply List.map_congr_left
    intro index member
    rw [List.mem_range] at member
    rw [position_unwrapped (by omega)]

theorem Reads.read {size base : Nat} {wanted : List α} {store : Nat → α} {got : List α}
    {region : Nat × Nat} {regions : List (Nat × Nat)}
    (reads : Reads size base wanted store got (region :: regions)) :
    Reads size base wanted store (got ++ read store region.1 region.2) regions :=
  ⟨fun other member => reads.inside other (List.mem_cons_of_mem _ member),
    by simpa [List.append_assoc] using reads.total⟩

theorem Reads.done {size base : Nat} {wanted : List α} {store : Nat → α} {got : List α}
    (reads : Reads size base wanted store got []) : got = wanted := by
  simpa using reads.total

/-- A store that agrees on the window leaves the pending reads what they were. -/
theorem Reads.congr {size base : Nat} {wanted : List α} {store other : Nat → α} {got : List α}
    {regions : List (Nat × Nat)} (reads : Reads size base wanted store got regions)
    (agree : ∀ position < wanted.length,
      other ((base + position) % size) = store ((base + position) % size)) :
    Reads size base wanted other got regions := by
  refine ⟨reads.inside, ?_⟩
  rw [← reads.total]
  congr 1
  apply List.flatMap_congr
  intro region member
  apply List.map_congr_left
  intro index bound
  obtain ⟨position, inside, same⟩ := reads.inside region member index (List.mem_range.mp bound)
  rw [same]
  exact agree position inside

end NetEngine.Region
