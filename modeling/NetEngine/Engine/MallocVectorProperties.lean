import NetEngine.Engine.MallocVector

/-! The block in use and the list that it holds: what an assignment, a loop, a copy or a
move to a larger block does to them, and where it leaves the blocks in use. -/

set_option autoImplicit false

namespace NetEngine.MallocVector

variable {T : Type} {width : Nat} {v : Vec T} {l : List T}

namespace Vec

/-! ## The block in use -/

structure Owns (v : Vec T) (name : Nat) (block : Block T) : Prop where
  data : v.data = some name
  live : v.heap name = some block

def put (v : Vec T) (name : Nat) (block : Block T) : Vec T :=
  { v with heap := Function.update v.heap name (some block) }

@[simp] theorem put_put (v : Vec T) (name : Nat) (first second : Block T) :
    (v.put name first).put name second = v.put name second := by
  simp [put]

variable {name index : Nat} {block : Block T} {source : Ref T}

theorem Owns.put (owns : v.Owns name block) (other : Block T) :
    (v.put name other).Owns name other :=
  ⟨owns.data, Function.update_self ..⟩

theorem Owns.around (owns : v.Owns name block) (index : Nat) :
    v.around width (v.addr index) = if width * (index + 1) ≤ block.bytes then some block else none := by
  rw [Vec.around, addr, owns.data, Option.bind_some, owns.live]
  simp [Option.filter]

theorem Owns.reads (owns : v.Owns name block) (index : Nat) :
    v.reads width (.inside (v.addr index)) = decide (width * (index + 1) ≤ block.bytes) := by
  rw [Vec.reads, owns.around]
  split <;> simp [*]

theorem Owns.load (owns : v.Owns name block) (room : width * (index + 1) ≤ block.bytes) :
    v.load width (.inside (v.addr index)) = block.cells index := by
  rw [Vec.load, owns.around, if_pos room]
  rfl

theorem Owns.assign (owns : v.Owns name block) (room : width * (index + 1) ≤ block.bytes)
    (readable : v.reads width source = true) :
    v.assign width index source =
      v.put name { block with cells := Function.update block.cells index (v.load width source) } := by
  rw [Vec.assign, owns.around, if_pos room]
  simp [Vec.put, owns.data, readable]

/-- A copy from one element of the block to another. -/
theorem Owns.assign_inside {other : Nat} (owns : v.Owns name block)
    (room : width * (index + 1) ≤ block.bytes) (readable : width * (other + 1) ≤ block.bytes) :
    v.assign width index (.inside (v.addr other)) =
      v.put name { block with cells := Function.update block.cells index (block.cells other) } := by
  rw [owns.assign room (by rw [owns.reads]; exact decide_eq_true readable), owns.load readable]

theorem put_self (owns : v.Owns name block) : v.put name block = v := by
  rw [Vec.put, ← owns.live, Function.update_eq_self]

theorem Owns.moveUp (owns : v.Owns name block) (last : Nat)
    (room : width * (last + 1) ≤ block.bytes) :
    moveUp width index last v =
      v.put name { block with cells := Cells.shiftUp index last block.cells } := by
  induction last generalizing v block with
  | zero => exact (put_self owns).symm
  | succ last ih =>
      rw [Vec.moveUp, Cells.shiftUp]
      split
      · have below : width * (last + 1) ≤ width * (last + 1 + 1) := Nat.mul_le_mul_left _ (by omega)
        have kept := owns.put
          { block with cells := Function.update block.cells (last + 1) (block.cells last) }
        rw [owns.assign_inside room (by omega), ih kept (Nat.le_trans below room), put_put]
      · exact (put_self owns).symm

theorem Owns.moveDown (owns : v.Owns name block) (rounds first : Nat)
    (room : width * (first + rounds + 1) ≤ block.bytes) :
    moveDown width rounds first v =
      v.put name { block with cells := Cells.shiftDown rounds first block.cells } := by
  induction rounds generalizing v block first with
  | zero => exact (put_self owns).symm
  | succ rounds ih =>
      have here : width * (first + 1) ≤ width * (first + (rounds + 1) + 1) :=
        Nat.mul_le_mul_left _ (by omega)
      have next : width * (first + 1 + 1) ≤ width * (first + (rounds + 1) + 1) :=
        Nat.mul_le_mul_left _ (by omega)
      have rest : first + 1 + rounds + 1 = first + (rounds + 1) + 1 := by omega
      rw [Vec.moveDown, Cells.shiftDown, owns.assign_inside (by omega) (by omega),
        ih (owns.put _) _ (by rwa [rest]), put_put]

/-! ## Faults -/

theorem assign_fault (unreadable : v.reads width source = false ∨
    v.reads width (.inside (v.addr index)) = false) : (v.assign width index source).fault = true := by
  rw [Vec.assign]
  split
  next name block _ around =>
    have reached : v.reads width (.inside (v.addr index)) = true := by
      rw [Vec.reads, around]
      rfl
    have missed : v.reads width source = false := by
      cases unreadable with
      | inl missed => exact missed
      | inr beyond => simp [reached] at beyond
    simp [missed]
  next => rfl

theorem assign_of_fault (fault : v.fault = true) : (v.assign width index source).fault = true := by
  rw [Vec.assign]
  split
  next =>
    split
    · exact fault
    · rfl
  next => rfl

theorem moveUp_of_fault (fault : v.fault = true) (last : Nat) :
    (moveUp width index last v).fault = true := by
  induction last generalizing v with
  | zero => exact fault
  | succ last ih =>
      rw [Vec.moveUp]
      split
      · exact ih (assign_of_fault fault)
      · exact fault

/-- Nothing that is stored makes a block larger. -/
theorem assign_reads (target : Ref T) :
    (v.assign width index source).reads width target = v.reads width target := by
  cases target with
  | outside => rfl
  | inside target =>
      rw [Vec.assign]
      split
      next name block data around =>
        split
        · have live : v.heap name = some block := by
            rw [Vec.around, addr, data] at around
            exact (Option.filter_eq_some_iff.mp around).1
          cases same : target.block with
          | none => simp [Vec.reads, Vec.around, same]
          | some other =>
              by_cases here : other = name
              · subst here
                simp [Vec.reads, Vec.around, same, live, Option.filter]
                split <;> simp
              · simp [Vec.reads, Vec.around, same, here]
        · rfl
      next => rfl

theorem moveUp_reads (target : Ref T) (last : Nat) :
    (moveUp width index last v).reads width target = v.reads width target := by
  induction last generalizing v with
  | zero => rfl
  | succ last ih =>
      rw [Vec.moveUp]
      split
      · rw [ih, assign_reads]
      · rfl

theorem moveUp_stop {last : Nat} (past : last ≤ index) : moveUp width index last v = v := by
  cases last with
  | zero => rfl
  | succ last => rw [Vec.moveUp, if_neg (Nat.not_lt.mpr past)]

/-- `insert` meets the end of a block that is full. -/
theorem insert_fault (unreadable : v.reads width source = false ∨
    v.reads width (.inside (v.addr v.size)) = false) (inside : index ≤ v.size) :
    ((moveUp width index v.size v).assign width index source).fault = true := by
  cases unreadable with
  | inl missed => exact assign_fault (.inl ((moveUp_reads source _).trans missed))
  | inr beyond =>
      cases Nat.lt_or_ge index v.size with
      | inl before =>
          obtain ⟨last, same⟩ := Nat.exists_eq_succ_of_ne_zero (Nat.ne_of_gt (Nat.zero_lt_of_lt before))
          rw [same] at beyond before ⊢
          rw [Vec.moveUp, if_pos before]
          exact assign_of_fault (moveUp_of_fault (assign_fault (.inr beyond)) last)
      | inr after =>
          obtain rfl : index = v.size := Nat.le_antisymm inside after
          rw [moveUp_stop (Nat.le_refl _)]
          exact assign_fault (.inr beyond)

end Vec

/-! ## The list -/

/-- What `insert` stores for an argument: the elements behind the position have been
shifted when it reads one. -/
def Arg.landed (index : Nat) (l : List T) : Arg T → Option T
  | .outside value => some value
  | .element i => if index < i then l[i - 1]? else l[i]?


structure Represents (width : Nat) (v : Vec T) (l : List T) : Prop where
  calm : v.fault = false
  size : v.size = l.length
  fits : v.size ≤ v.capacity
  unused : ∀ name, v.fresh ≤ name → v.heap name = none
  stored : v.data = none ∧ v.capacity = 0 ∨ ∃ name block, v.Owns name block ∧
    Cells.Holds block.cells l ∧ width * l.length ≤ block.bytes ∧ block.bytes < 2 ^ 63

/-- An argument after the elements behind the position were shifted. -/
theorem Vec.Owns.shifted {name index : Nat} {block : Block T} {argument : Arg T} {x : T}
    (owns : v.Owns name block) (held : Cells.Holds block.cells l)
    (room : width * (l.length + 1) ≤ block.bytes) (known : argument.value l = some x) :
    ∃ y, argument.landed index l = some y ∧
      (v.put name { block with cells := Cells.shiftUp index l.length block.cells }).reads width
        (argument.ref v) = true ∧
      (v.put name { block with cells := Cells.shiftUp index l.length block.cells }).load width
        (argument.ref v) = some y := by
  cases argument with
  | outside y => exact ⟨y, rfl, rfl, rfl⟩
  | element i =>
      obtain ⟨below, _⟩ := List.getElem?_eq_some_iff.mp known
      have within : width * (i + 1) ≤ block.bytes :=
        Nat.le_trans (Nat.mul_le_mul_left _ (by omega)) room
      have moved := owns.put { block with cells := Cells.shiftUp index l.length block.cells }
      have reads := @Owns.reads T width _ _ _ moved i
      rw [decide_eq_true within] at reads
      have load := moved.load within
      simp only [Cells.shiftUp_apply] at load
      rw [Arg.landed]
      split at load
      next shifted =>
        have before : i - 1 < l.length := by omega
        have stored := (held (i - 1) before).trans (List.getElem?_eq_getElem before)
        rw [if_pos shifted.1, List.getElem?_eq_getElem before]
        exact ⟨_, rfl, reads, load.trans stored⟩
      next still =>
        have stored := (held i below).trans known
        rw [if_neg (by omega)]
        exact ⟨x, known, reads, load.trans stored⟩

namespace Represents

open Vec

theorem owned (shows : Represents width v l) (some : 0 < v.capacity) :
    ∃ name block, v.Owns name block ∧ Cells.Holds block.cells l ∧
      width * l.length ≤ block.bytes ∧ block.bytes < 2 ^ 63 := by
  cases shows.stored with
  | inl nothing => omega
  | inr owned => exact owned

theorem contents (shows : Represents width v l) : v.contents width = l.map some := by
  cases shows.stored with
  | inl nothing =>
      have empty : l.length = 0 := by
        have fits := shows.fits
        have size := shows.size
        omega
      rw [List.length_eq_zero_iff.mp empty, Vec.contents, shows.size, empty]
      rfl
  | inr owned =>
      obtain ⟨name, block, owns, held, room, _⟩ := owned
      rw [Vec.contents, shows.size, ← held.read]
      refine List.map_congr_left fun index member => owns.load ?_
      have below : width * (index + 1) ≤ width * l.length :=
        Nat.mul_le_mul_left _ (List.mem_range.mp member)
      omega

theorem value (shows : Represents width v l) {argument : Arg T} {x : T}
    (known : argument.value l = some x) : v.reads width (argument.ref v) = true ∧
      v.load width (argument.ref v) = some x := by
  cases argument with
  | outside y => exact ⟨rfl, known⟩
  | element index =>
      obtain ⟨inside, _⟩ := List.getElem?_eq_some_iff.mp known
      have fits := shows.fits
      have size := shows.size
      obtain ⟨name, block, owns, held, room, _⟩ := shows.owned (by omega)
      have below : width * (index + 1) ≤ width * l.length := Nat.mul_le_mul_left _ inside
      rw [Arg.ref, owns.reads, owns.load (by omega), held index inside]
      exact ⟨decide_eq_true (by omega), known⟩

theorem short (shows : Represents width v l) : width * v.size < 2 ^ 63 := by
  cases shows.stored with
  | inl nothing =>
      have fits := shows.fits
      have empty : v.size = 0 := by omega
      rw [empty]
      exact Nat.two_pow_pos 63
  | inr owned =>
      obtain ⟨_, _, _, _, room, small⟩ := owned
      rw [shows.size]
      exact Nat.lt_of_le_of_lt room small

theorem apart {name : Nat} {block : Block T} (shows : Represents width v l)
    (owns : v.Owns name block) : name ≠ v.fresh := by
  intro same
  have nothing := shows.unused name (Nat.le_of_eq same.symm)
  simp [owns.live] at nothing

/-- Another list in the block in use. -/
theorem put {name bytes size : Nat} {block : Block T} {cells : Nat → Option T} {after : List T}
    (shows : Represents width v l) (owns : v.Owns name block) (small : bytes < 2 ^ 63)
    (held : Cells.Holds cells after) (length : after.length = size) (fits : size ≤ v.capacity)
    (room : width * size ≤ bytes) :
    Represents width { v.put name ⟨bytes, cells⟩ with size } after := by
  subst length
  refine ⟨shows.calm, rfl, fits, ?_, .inr ⟨name, _, ⟨owns.data, Function.update_self ..⟩, held, room,
    small⟩⟩
  intro other later
  have apart : other ≠ name := by
    intro same
    have nothing := shows.unused other later
    simp [same, owns.live] at nothing
  exact (Function.update_of_ne apart ..).trans (shows.unused other later)

theorem keep (shows : Represents width v l) (count : Nat) (fewer : count ≤ v.size) :
    Represents width { v with size := count } (l.take count) := by
  have size := shows.size
  have fits := shows.fits
  have length : (l.take count).length = count := by
    rw [List.length_take]
    omega
  refine ⟨shows.calm, length.symm, Nat.le_trans fewer fits, shows.unused, ?_⟩
  cases shows.stored with
  | inl nothing => exact .inl nothing
  | inr owned =>
      obtain ⟨name, block, owns, held, room, small⟩ := owned
      refine .inr ⟨name, block, ⟨owns.data, owns.live⟩, held.take count, ?_, small⟩
      exact Nat.le_trans (Nat.mul_le_mul_left _ (by omega)) room

theorem finish (shows : Represents width v l) : v.finish = v.addr l.length := by
  have size := shows.size
  have fits := shows.fits
  rw [Vec.finish, addr, addr]
  split
  next none =>
    cases shows.stored with
    | inl nothing => rw [none, show l.length = 0 by omega]
    | inr owned =>
        obtain ⟨name, block, owns, _⟩ := owned
        exact absurd (none.symm.trans owns.data) (Option.some_ne_none name).symm
  next => rw [size]

theorem erase {index : Nat} (shows : Represents width v l) (inside : index < v.size) :
    Represents width (v.erase width index).1 (l.eraseIdx index) ∧
      (v.erase width index).2 = (v.erase width index).1.addr index := by
  have size := shows.size
  have fits := shows.fits
  obtain ⟨name, block, owns, held, room, small⟩ := shows.owned (by omega)
  rw [size] at inside
  have length := List.length_eraseIdx_of_lt inside
  have last : index + (l.length - 1 - index) + 1 = l.length := by omega
  have moved := @Owns.moveDown _ width _ _ _ owns (l.length - 1 - index) index (by rwa [last])
  rw [Vec.erase, size, if_neg (Nat.not_le.mpr inside), moved]
  refine ⟨?_, rfl⟩
  have fewer : v.size - 1 = l.length - 1 := by rw [size]
  have shorter : v.size - 1 ≤ l.length := by omega
  exact shows.put owns small (held.erase inside) (length.trans fewer.symm)
    (Nat.le_trans (Nat.sub_le ..) fits)
    (Nat.le_trans (Nat.mul_le_mul_left _ shorter) room)

/-! ### Calls that find room -/

section Spare

variable {source : Ref T} {x : T} {index : Nat} (shows : Represents width v l)
  (spare : v.size < v.capacity) (roomy : v.reads width (.inside (v.addr v.size)) = true)

include shows spare roomy

theorem push (readable : v.reads width source = true) (known : v.load width source = some x) :
    Represents width { v.assign width v.size source with size := v.size + 1 } (l ++ [x]) := by
  obtain ⟨name, block, owns, held, _, small⟩ := shows.owned (by omega)
  rw [owns.reads, decide_eq_true_iff] at roomy
  rw [owns.assign roomy readable, known]
  have size := shows.size
  have pushed := held.push x
  have length : (l ++ [x]).length = v.size + 1 := by simp [size]
  rw [← size] at pushed
  exact shows.put owns small pushed length spare roomy

/-- What `insert` leaves when it has shifted the elements behind the position. -/
theorem insert {argument : Arg T} (inside : index ≤ v.size) (known : argument.value l = some x) :
    ∃ y, argument.landed index l = some y ∧
      Represents width
        { (moveUp width index v.size v).assign width index (argument.ref v) with
          size := ((moveUp width index v.size v).assign width index (argument.ref v)).size + 1 }
        (l.insertIdx index y) := by
  obtain ⟨name, block, owns, held, _, small⟩ := shows.owned (by omega)
  rw [owns.reads, decide_eq_true_iff] at roomy
  have size := shows.size
  rw [size] at inside roomy
  have here : width * (index + 1) ≤ block.bytes :=
    Nat.le_trans (Nat.mul_le_mul_left _ (by omega)) roomy
  obtain ⟨y, landed, reads, load⟩ := owns.shifted held roomy known
  have moved := owns.put { block with cells := Cells.shiftUp index l.length block.cells }
  have length := List.length_insertIdx_of_le_length inside y
  refine ⟨y, landed, ?_⟩
  rw [size, owns.moveUp _ roomy, moved.assign here reads, load, put_put]
  exact shows.put owns small (held.insert y inside) (length.trans (by rw [← size]; rfl)) spare
    (by rw [← size] at roomy; exact roomy)

end Spare

end Represents

/-! ## Growth -/

namespace Vec

theorem reserve_idle {malloc : Malloc} {capacity : Nat}
    (idle : capacity ≤ v.capacity ∨ malloc.grants (width * capacity % 2 ^ 64) = false) :
    v.reserve width malloc capacity = v := by
  rw [Vec.reserve]
  split
  · rfl
  · next more =>
      cases idle with
      | inl enough => exact absurd enough more
      | inr refused => exact if_neg (by rw [refused]; exact Bool.false_ne_true)

/-- A vector that has moved to a new block: nothing reads through the old one. -/
structure Grown (width : Nat) (v w : Vec T) (l : List T) (capacity bytes : Nat) : Prop where
  shows : Represents width w l
  capacity : w.capacity = capacity
  block : ∃ block, w.Owns v.fresh block ∧ block.bytes = bytes
  stale : ∀ index, w.reads width (.inside (v.addr index)) = false

section Reserve

variable {malloc : Malloc} {capacity bytes : Nat} {cells : Nat → Option T}

theorem grown_of {w : Vec T} (shows : Represents width v l) (more : v.capacity < capacity)
    (room : width * v.size ≤ bytes) (small : bytes < 2 ^ 63)
    (fields : w = { v with data := some v.fresh, capacity, heap := w.heap, fresh := v.fresh + 1 })
    (block : w.heap v.fresh = some ⟨bytes, cells⟩) (held : Cells.Holds cells l)
    (gone : ∀ name, v.data = some name → w.heap name = none)
    (unused : ∀ name, v.fresh < name → w.heap name = none) :
    Grown width v w l capacity bytes := by
  have data : w.data = some v.fresh := by rw [fields]
  have size : w.size = v.size := by rw [fields]
  have grown : w.capacity = capacity := by rw [fields]
  have fresh : w.fresh = v.fresh + 1 := by rw [fields]
  have fault : w.fault = v.fault := by rw [fields]
  have owns : w.Owns v.fresh ⟨bytes, cells⟩ := ⟨data, block⟩
  have fits := shows.fits
  have stored : width * l.length ≤ bytes := by rwa [← shows.size]
  refine ⟨⟨fault.trans shows.calm, size.trans shows.size, by omega, ?_,
    .inr ⟨_, _, owns, held, stored, small⟩⟩, grown, ⟨_, owns, rfl⟩, ?_⟩
  · intro name later
    exact unused name (by omega)
  · intro index
    rw [Vec.reads, Vec.around, addr]
    cases old : v.data with
    | none => rfl
    | some name =>
        rw [Option.bind_some, gone name old]
        rfl

/-- A copy into a block that was just given. -/
theorem memcpy_allocated {old count : Nat} {block : Block T} (live : v.heap old = some block)
    (apart : old ≠ v.fresh) :
    (v.allocate bytes).memcpy width v.fresh old count =
      if count ≤ bytes ∧ count ≤ block.bytes then
        { v.allocate bytes with
          heap := Function.update (v.allocate bytes).heap v.fresh (some ⟨bytes, fun i =>
            if width * (i + 1) ≤ count then block.cells i else none⟩) }
      else { v.allocate bytes with fault := true } := by
  have target : (v.allocate bytes).heap v.fresh = some ⟨bytes, fun _ => none⟩ :=
    Function.update_self ..
  have source : (v.allocate bytes).heap old = some block :=
    (Function.update_of_ne apart ..).trans live
  rw [memcpy]
  simp only [target, source, ite_self]

variable (shows : Represents width v l)
  (more : v.capacity < capacity) (granted : malloc.grants (width * capacity % 2 ^ 64) = true)

include shows more granted

theorem reserve_grown (room : width * v.size ≤ width * capacity % 2 ^ 64) :
    Grown width v (v.reserve width malloc capacity) l capacity (width * capacity % 2 ^ 64) := by
  have small := malloc.addressable _ granted
  have exact := shows.short
  generalize request : width * capacity % 2 ^ 64 = bytes at granted room small ⊢
  rw [Vec.reserve, if_neg (Nat.not_le.mpr more), request, if_pos granted]
  cases shows.stored with
  | inl nothing =>
      have fits := shows.fits
      have empty : l = [] := List.length_eq_zero_iff.mp (by rw [← shows.size]; omega)
      simp only [nothing.1]
      refine @grown_of _ _ _ _ _ _ (fun _ => none) _ shows more room small rfl
        (Function.update_self ..) ?_ ?_ ?_
      · rw [empty]
        exact fun i inside => absurd inside (Nat.not_lt_zero i)
      · exact fun name same => absurd (nothing.1.symm.trans same) (Option.some_ne_none name).symm
      · intro name later
        exact (Function.update_of_ne (Nat.ne_of_gt later) ..).trans
          (shows.unused name (Nat.le_of_lt later))
  | inr owned =>
      obtain ⟨old, block, owns, held, stored, _⟩ := owned
      have apart := shows.apart owns
      have whole : width * v.size % 2 ^ 64 = width * v.size := Nat.mod_eq_of_lt (by omega)
      rw [← shows.size] at stored
      simp only [owns.data, whole, memcpy_allocated owns.live apart, if_pos (And.intro room stored)]
      refine grown_of shows more room small rfl
        ((Function.update_of_ne apart.symm ..).trans (Function.update_self ..)) ?_ ?_ ?_
      · refine held.congr fun i inside => if_pos ?_
        exact Nat.mul_le_mul_left _ (by rw [shows.size]; exact inside)
      · intro name same
        obtain rfl : name = old := Option.some.inj (same.symm.trans owns.data)
        exact Function.update_self ..
      · intro name later
        have unused := shows.unused name (Nat.le_of_lt later)
        simp [free, allocate, Function.update_apply, unused, Nat.ne_of_gt later]

theorem reserve_short (beyond : width * capacity % 2 ^ 64 < width * v.size) :
    (v.reserve width malloc capacity).size = v.size ∧
      (v.reserve width malloc capacity).capacity = capacity ∧
      (v.reserve width malloc capacity).fault = true := by
  have exact := shows.short
  have whole : width * v.size % 2 ^ 64 = width * v.size := Nat.mod_eq_of_lt (by omega)
  rw [Vec.reserve, if_neg (Nat.not_le.mpr more), if_pos granted]
  cases shows.stored with
  | inl nothing =>
      have fits := shows.fits
      have empty : v.size = 0 := by omega
      simp [empty] at beyond
  | inr owned =>
      obtain ⟨old, block, owns, _, _, _⟩ := owned
      have apart := shows.apart owns
      simp only [owns.data, whole, memcpy_allocated owns.live apart,
        if_neg fun room => absurd (And.left room) (Nat.not_le.mpr beyond)]
      simp [free, allocate]

end Reserve

end Vec

end NetEngine.MallocVector
