import NetEngine.Engine.MallocVectorProperties

/-! What the calls of a vector are to do to a list, and when they do it. -/

set_option autoImplicit false

namespace NetEngine.MallocVector

variable {T : Type} {width : Nat} {v : Vec T} {l : List T}

def Call.valid (l : List T) : Call T → Prop
  | .pushBack value => (value.value l).isSome
  | .insert _ value => (value.value l).isSome
  | .resize size => size ≤ l.length
  | _ => True

def Call.onList (l : List T) : Call T → List T
  | .pushBack value => l ++ (value.value l).toList
  | .insert index value => (value.value l).elim l (l.insertIdx index ·)
  | .erase index => l.eraseIdx index
  | .popBack => l.dropLast
  | .clear => []
  | .reserve _ => l
  | .resize size => l.take size

def refused (width : Nat) (v : Vec T) (call : Call T × Malloc) : Bool :=
  match call.1.request v with
  | some capacity => !call.2.grants (width * capacity % 2 ^ 64)
  | none => false

/-- A vector beside the list that it stands for. -/
structure Paired (T : Type) where
  vec : Vec T
  list : List T

namespace Paired

def after (width : Nat) (s : Paired T) (call : Call T × Malloc) : List T :=
  if refused width s.vec call then s.list else call.1.onList s.list

def step (width : Nat) (s : Paired T) (call : Call T × Malloc) : Paired T :=
  ⟨MallocVector.step width s.vec call, s.after width call⟩

/-- Where the iterator that a call returns stands: on the new element, on the successor
of the one erased, or at the end. -/
def landing (width : Nat) (s : Paired T) (call : Call T × Malloc) : Option Nat :=
  match call.1 with
  | .insert index _ =>
      some (if refused width s.vec call ∨ s.list.length < index then (s.after width call).length
        else index)
  | .erase index =>
      some (if index < s.list.length then index else (s.after width call).length)
  | _ => none

/-- What a call is to do. -/
structure Meets (width : Nat) (s : Paired T) (call : Call T × Malloc) : Prop where
  calm : (s.step width call).vec.fault = false
  contents : (s.step width call).vec.contents width = (s.after width call).map some
  fits : (s.step width call).vec.size ≤ (s.step width call).vec.capacity
  returned : (perform width s.vec call).2 =
    (s.landing width call).map (s.step width call).vec.addr
  unchanged : refused width s.vec call = true →
    (s.step width call).vec.contents width = s.vec.contents width ∧
      (s.step width call).vec.size = s.vec.size ∧
      (s.step width call).vec.capacity = s.vec.capacity

end Paired

/-- The element that is named stays what it was when those behind the position are
shifted. -/
def Arg.Settled (index : Nat) (l : List T) : Arg T → Prop
  | .outside _ => True
  | .element i => index < i → l[i - 1]? = l[i]?

theorem Arg.Settled.landed {index : Nat} {value : Arg T} (settled : value.Settled index l) :
    value.landed index l = value.value l := by
  cases value with
  | outside x => rfl
  | element i =>
      rw [Arg.landed]
      split
      next behind => exact settled behind
      next => rfl

/-- The block in use has room for one more element; or a new one is had, which has it,
and the argument is not in the old one. -/
def Adds (width : Nat) (malloc : Malloc) (v : Vec T) (value : Arg T) : Prop :=
  if v.size < v.capacity then v.reads width (.inside (v.addr v.size)) = true
  else malloc.grants (width * v.newCapacity % 2 ^ 64) = true →
    (∃ x, value = .outside x) ∧ width * (v.size + 1) ≤ width * v.newCapacity % 2 ^ 64

theorem adds_spare {malloc : Malloc} {value : Arg T} (spare : v.size < v.capacity)
    (roomy : v.reads width (.inside (v.addr v.size)) = true) : Adds width malloc v value := by
  rw [Adds, if_pos spare]
  exact roomy

theorem adds_outside {malloc : Malloc} {x : T} (full : v.capacity ≤ v.size)
    (room : width * (v.size + 1) ≤ width * v.newCapacity % 2 ^ 64) :
    Adds width malloc v (.outside x) := by
  rw [Adds, if_neg (Nat.not_lt.mpr full)]
  exact fun _ => ⟨⟨x, rfl⟩, room⟩

def Paired.Safe (width : Nat) (s : Paired T) : Call T × Malloc → Prop
  | (.pushBack value, malloc) => Adds width malloc s.vec value
  | (.insert index value, malloc) => index ≤ s.vec.size →
      Adds width malloc s.vec value ∧ (s.vec.size < s.vec.capacity → value.Settled index s.list)
  | (.reserve capacity, malloc) => s.vec.capacity < capacity →
      malloc.grants (width * capacity % 2 ^ 64) = true →
      width * s.vec.size ≤ width * capacity % 2 ^ 64
  | _ => True

/-! ### Adding an element -/

section Adding

open Vec

variable {malloc : Malloc} {value : Arg T} (positive : 0 < width) (shows : Represents width v l)

include positive shows

theorem newCapacity_more (full : v.capacity ≤ v.size) : v.capacity < v.newCapacity := by
  have short := shows.short
  have count : v.size ≤ width * v.size := Nat.le_mul_of_pos_left _ positive
  have fits := shows.fits
  rw [newCapacity]
  split
  · rw [Nat.mod_eq_of_lt (by omega)]
    omega
  · omega

/-- A vector that can take the element: `w` is `v`, or what `v` has grown to. -/
structure Ready (width : Nat) (v w : Vec T) (l : List T) (value : Arg T) : Prop where
  shows : Represents width w l
  spare : w.size < w.capacity
  roomy : w.reads width (.inside (w.addr w.size)) = true
  larger : v.size ≤ w.size
  same : value.ref v = value.ref w

theorem grow_ready (adds : Adds width malloc v value) :
    Ready width v (v.grow width malloc) l value ∧
        (v.capacity ≤ v.size → malloc.grants (width * v.newCapacity % 2 ^ 64) = true) ∨
      v.capacity ≤ v.size ∧ malloc.grants (width * v.newCapacity % 2 ^ 64) = false ∧
        v.grow width malloc = v := by
  rw [Adds] at adds
  rw [grow]
  split at adds
  next spare =>
    rw [if_neg (Nat.not_le.mpr spare)]
    exact .inl ⟨⟨shows, spare, adds, Nat.le_refl _, rfl⟩, fun full => absurd spare (Nat.not_lt.mpr full)⟩
  next full =>
    have full := Nat.not_lt.mp full
    rw [if_pos full]
    cases granted : malloc.grants (width * v.newCapacity % 2 ^ 64) with
    | false => exact .inr ⟨full, rfl, reserve_idle (.inr granted)⟩
    | true =>
        obtain ⟨⟨x, rfl⟩, room⟩ := adds granted
        have more := newCapacity_more positive shows full
        have less : width * v.size ≤ width * (v.size + 1) := Nat.mul_le_mul_left _ (Nat.le_succ _)
        have grown := reserve_grown shows more granted (Nat.le_trans less room)
        have same : (v.reserve width malloc v.newCapacity).size = v.size :=
          grown.shows.size.trans shows.size.symm
        obtain ⟨block, owns, bytes⟩ := grown.block
        refine .inl ⟨⟨grown.shows, ?_, ?_, Nat.le_of_eq same.symm, rfl⟩, fun _ => rfl⟩
        · rw [same, grown.capacity]
          have fits := shows.fits
          omega
        · rw [owns.reads, bytes, same]
          exact decide_eq_true room

omit positive shows in
theorem Ready.insert {index : Nat} {x : T} (ready : Ready width v (v.grow width malloc) l value)
    (inside : index ≤ v.size) (known : value.value l = some x) :
    ∃ y, value.landed index l = some y ∧
      Represents width (v.insert width malloc index (value.ref v)).1 (l.insertIdx index y) ∧
      (v.insert width malloc index (value.ref v)).2 =
        (v.insert width malloc index (value.ref v)).1.addr index := by
  have within : index ≤ (v.grow width malloc).size := Nat.le_trans inside ready.larger
  obtain ⟨y, landed, inserted⟩ := ready.shows.insert ready.spare ready.roomy within known
  refine ⟨y, landed, ?_⟩
  rw [Vec.insert, if_neg (Nat.not_lt.mpr inside), ready.same]
  simp only [if_neg (Nat.not_le.mpr ready.spare)]
  exact ⟨inserted, trivial⟩

theorem grow_careless (careless : ¬ Adds width malloc v value) :
    (v.grow width malloc).size = v.size ∧ v.size < (v.grow width malloc).capacity ∧
      ((v.grow width malloc).fault = true ∨
        (v.grow width malloc).reads width (value.ref v) = false ∨
        (v.grow width malloc).reads width
          (.inside ((v.grow width malloc).addr (v.grow width malloc).size)) = false) := by
  rw [Adds] at careless
  rw [grow]
  split at careless
  next spare =>
    rw [if_neg (Nat.not_le.mpr spare)]
    exact ⟨rfl, spare, .inr (.inr (Bool.eq_false_iff.mpr careless))⟩
  next full =>
    have full := Nat.not_lt.mp full
    rw [if_pos full]
    obtain ⟨granted, careless⟩ := Classical.not_imp.mp careless
    have more := newCapacity_more positive shows full
    have fits := shows.fits
    cases Nat.lt_or_ge (width * v.newCapacity % 2 ^ 64) (width * v.size) with
    | inl beyond =>
        obtain ⟨size, capacity, fault⟩ := reserve_short shows more granted beyond
        exact ⟨size, by omega, .inl fault⟩
    | inr room =>
        have grown := reserve_grown shows more granted room
        have same : (v.reserve width malloc v.newCapacity).size = v.size :=
          grown.shows.size.trans shows.size.symm
        obtain ⟨block, owns, bytes⟩ := grown.block
        refine ⟨same, by rw [grown.capacity]; omega, .inr ?_⟩
        cases value with
        | outside x =>
            refine .inr ?_
            rw [owns.reads, bytes, same]
            exact decide_eq_false fun room => careless ⟨⟨x, rfl⟩, room⟩
        | element i => exact .inl (grown.stale i)

theorem refused_add {call : Call T} (asks : call.request v =
    if v.capacity ≤ v.size ∧ v.capacity < v.newCapacity then some v.newCapacity else none) :
    refused width v (call, malloc) = true ↔
      v.capacity ≤ v.size ∧ malloc.grants (width * v.newCapacity % 2 ^ 64) = false := by
  rw [refused, asks]
  by_cases full : v.capacity ≤ v.size
  · rw [if_pos ⟨full, newCapacity_more positive shows full⟩]
    simp [full]
  · simp [full]

end Adding

namespace Paired

open Vec

variable {s : Paired T} {call : Call T × Malloc}

/-- A call that has done what it is to do, to a vector that stands for the list again. -/
structure Done (width : Nat) (s : Paired T) (call : Call T × Malloc) : Prop where
  shows : Represents width (s.step width call).vec (s.step width call).list
  returned : (perform width s.vec call).2 =
    (s.landing width call).map (s.step width call).vec.addr
  unchanged : refused width s.vec call = true → (s.step width call).vec = s.vec

theorem Done.meets (done : Done width s call) : Meets width s call where
  calm := done.shows.calm
  contents := done.shows.contents
  fits := done.shows.fits
  returned := done.returned
  unchanged := fun no => by
    rw [done.unchanged no]
    exact ⟨rfl, rfl, rfl⟩

section Calls

variable (positive : 0 < width) (shows : Represents width s.vec s.list) {malloc : Malloc}

include positive shows

theorem pushBack_done {value : Arg T} (valid : (value.value s.list).isSome)
    (adds : Adds width malloc s.vec value) : Done width s (.pushBack value, malloc) := by
  obtain ⟨x, known⟩ := Option.isSome_iff_exists.mp valid
  have asked : refused width s.vec (.pushBack value, malloc) = true ↔ _ :=
    refused_add positive shows rfl
  cases grow_ready positive shows adds with
  | inl ready =>
      obtain ⟨ready, granted⟩ := ready
      have had : ¬ refused width s.vec (.pushBack value, malloc) = true := by
        rw [asked]
        intro ⟨full, denied⟩
        exact Bool.false_ne_true (denied.symm.trans (granted full))
      have list : s.after width (.pushBack value, malloc) = s.list ++ [x] := by
        rw [after, if_neg had, Call.onList, known]
        rfl
      refine ⟨?_, rfl, fun no => absurd no had⟩
      obtain ⟨readable, stored⟩ := ready.shows.value known
      have pushed := ready.shows.push ready.spare ready.roomy readable stored
      change Represents width (s.vec.pushBack width malloc (value.ref s.vec)) (s.after width _)
      rw [list, pushBack, ready.same]
      exact (if_pos ready.spare).symm ▸ pushed
  | inr idle =>
      obtain ⟨full, denied, still⟩ := idle
      have no := asked.mpr ⟨full, denied⟩
      have same : s.vec.pushBack width malloc (value.ref s.vec) = s.vec := by
        rw [pushBack, still]
        exact if_neg (Nat.not_lt.mpr full)
      refine ⟨?_, rfl, fun _ => same⟩
      change Represents width (s.vec.pushBack width malloc (value.ref s.vec)) (s.after width _)
      rw [same, after, if_pos no]
      exact shows

omit positive in
theorem insert_idle {index : Nat} {value : Arg T}
    (same : s.vec.insert width malloc index (value.ref s.vec) = (s.vec, s.vec.finish))
    (list : s.after width (.insert index value, malloc) = s.list)
    (off : refused width s.vec (.insert index value, malloc) = true ∨ s.list.length < index) :
    Done width s (.insert index value, malloc) := by
  refine ⟨?_, ?_, fun _ => congrArg Prod.fst same⟩
  · change Represents width (s.vec.insert width malloc index (value.ref s.vec)).1 (s.after width _)
    rw [same, list]
    exact shows
  · change some (s.vec.insert width malloc index (value.ref s.vec)).2 =
      (landing width s _).map (s.vec.insert width malloc index (value.ref s.vec)).1.addr
    rw [same, landing]
    simp only [if_pos off, list, shows.finish]
    rfl

theorem insert_done {index : Nat} {value : Arg T} (valid : (value.value s.list).isSome)
    (safe : s.Safe width (.insert index value, malloc)) :
    Done width s (.insert index value, malloc) := by
  obtain ⟨x, known⟩ := Option.isSome_iff_exists.mp valid
  have size := shows.size
  cases Nat.lt_or_ge s.vec.size index with
  | inl beyond =>
      have had : refused width s.vec (.insert index value, malloc) = false := by
        rw [refused, Call.request, if_neg fun asks => Nat.not_le.mpr beyond asks.1]
      refine insert_idle shows (if_pos beyond) ?_ (.inr (size ▸ beyond))
      rw [after, had, Call.onList, known]
      exact List.insertIdx_of_length_lt (by omega)
  | inr inside =>
      obtain ⟨adds, settled⟩ := safe inside
      have asked : refused width s.vec (.insert index value, malloc) = true ↔ _ :=
        refused_add positive shows (by rw [Call.request]; simp [inside])
      cases grow_ready positive shows adds with
      | inl ready =>
          obtain ⟨ready, granted⟩ := ready
          have had : ¬ refused width s.vec (.insert index value, malloc) = true := by
            rw [asked]
            intro ⟨full, denied⟩
            exact Bool.false_ne_true (denied.symm.trans (granted full))
          have calm : value.Settled index s.list := by
            by_cases spare : s.vec.size < s.vec.capacity
            · exact settled spare
            · rw [Adds, if_neg spare] at adds
              obtain ⟨⟨y, rfl⟩, _⟩ := adds (granted (Nat.not_lt.mp spare))
              trivial
          obtain ⟨y, landed, inserted, found⟩ := ready.insert inside known
          obtain rfl : x = y := by
            rw [calm.landed, known] at landed
            exact Option.some.inj landed
          have list : s.after width (.insert index value, malloc) = s.list.insertIdx index x := by
            rw [after, if_neg had, Call.onList, known]
            rfl
          refine ⟨?_, ?_, fun no => absurd no had⟩
          · change Represents width (s.vec.insert width malloc index (value.ref s.vec)).1
              (s.after width _)
            rw [list]
            exact inserted
          · change some (s.vec.insert width malloc index (value.ref s.vec)).2 =
              (landing width s _).map (s.vec.insert width malloc index (value.ref s.vec)).1.addr
            have here : ¬ (refused width s.vec (.insert index value, malloc) = true ∨
                s.list.length < index) := fun either => either.elim had (by omega)
            rw [found, landing]
            simp only [if_neg here]
            rfl
      | inr idle =>
          obtain ⟨full, denied, still⟩ := idle
          have no := asked.mpr ⟨full, denied⟩
          refine insert_idle shows ?_ (if_pos no) (.inl no)
          rw [Vec.insert, if_neg (Nat.not_lt.mpr inside), still]
          exact if_pos full

omit positive in
theorem erase_done {index : Nat} : Done width s (.erase index, malloc) := by
  have size := shows.size
  have list : s.after width (.erase index, malloc) = s.list.eraseIdx index := rfl
  cases Nat.lt_or_ge index s.vec.size with
  | inl inside =>
      obtain ⟨erased, found⟩ := shows.erase inside
      refine ⟨erased, ?_, fun no => absurd no Bool.false_ne_true⟩
      change some (s.vec.erase width index).2 =
        (landing width s _).map (s.vec.erase width index).1.addr
      rw [found, landing]
      simp only [if_pos (size ▸ inside)]
      rfl
  | inr beyond =>
      have same : s.vec.erase width index = (s.vec, s.vec.finish) := if_pos beyond
      rw [size] at beyond
      have still : s.list.eraseIdx index = s.list := List.eraseIdx_of_length_le beyond
      refine ⟨?_, ?_, fun no => absurd no Bool.false_ne_true⟩
      · change Represents width (s.vec.erase width index).1 (s.after width (.erase index, malloc))
        rw [same, list, still]
        exact shows
      · change some (s.vec.erase width index).2 =
          (landing width s _).map (s.vec.erase width index).1.addr
        rw [same, landing]
        simp only [if_neg (Nat.not_lt.mpr beyond), list, still, shows.finish]
        rfl

omit positive in
theorem reserve_done {capacity : Nat} (safe : s.Safe width (.reserve capacity, malloc)) :
    Done width s (.reserve capacity, malloc) := by
  have list : s.after width (.reserve capacity, malloc) = s.list := ite_self _
  cases Nat.lt_or_ge s.vec.capacity capacity with
  | inr enough =>
      have same : s.vec.reserve width malloc capacity = s.vec := reserve_idle (.inl enough)
      refine ⟨?_, rfl, fun _ => same⟩
      change Represents width (s.vec.reserve width malloc capacity) (s.after width _)
      rw [same, list]
      exact shows
  | inl more =>
      have asked : refused width s.vec (.reserve capacity, malloc) =
          !malloc.grants (width * capacity % 2 ^ 64) := by
        rw [refused, Call.request, if_pos more]
      cases granted : malloc.grants (width * capacity % 2 ^ 64) with
      | true =>
          have grown := reserve_grown shows more granted (safe more granted)
          refine ⟨?_, rfl, fun no => ?_⟩
          · change Represents width (s.vec.reserve width malloc capacity) (s.after width _)
            rw [list]
            exact grown.shows
          · rw [asked, granted] at no
            exact absurd no Bool.false_ne_true
      | false =>
          have same : s.vec.reserve width malloc capacity = s.vec := reserve_idle (.inr granted)
          refine ⟨?_, rfl, fun _ => same⟩
          change Represents width (s.vec.reserve width malloc capacity) (s.after width _)
          rw [same, list]
          exact shows

/-- A call that is safe does what it is to do. -/
theorem done (valid : call.1.valid s.list) (safe : s.Safe width call) : Done width s call := by
  have size := shows.size
  have fits := shows.fits
  obtain ⟨call, malloc⟩ := call
  cases call with
  | pushBack value => exact pushBack_done positive shows valid safe
  | insert index value => exact insert_done positive shows valid safe
  | erase index => exact erase_done shows
  | reserve capacity => exact reserve_done shows safe
  | popBack =>
      refine ⟨?_, rfl, fun no => absurd no Bool.false_ne_true⟩
      change Represents width s.vec.popBack s.list.dropLast
      rw [popBack, List.dropLast_eq_take, ← size]
      split
      next => exact shows.keep _ (Nat.sub_le ..)
      next none =>
        have empty : s.vec.size = 0 := Nat.eq_zero_of_not_pos none
        have same : { s.vec with size := 0 } = s.vec := by rw [← empty]
        have kept := shows.keep 0 (Nat.zero_le _)
        rw [same] at kept
        rwa [empty]
  | clear => exact ⟨shows.keep 0 (Nat.zero_le _), rfl, fun no => absurd no Bool.false_ne_true⟩
  | resize count =>
      have valid : count ≤ s.list.length := valid
      have enough : count ≤ s.vec.capacity := by omega
      have had : refused width s.vec (.resize count, malloc) = false := by
        rw [refused, Call.request, if_neg (Nat.not_lt.mpr enough)]
      refine ⟨?_, rfl, fun no => absurd (had.symm.trans no) Bool.false_ne_true⟩
      change Represents width (s.vec.resize width malloc count) (s.after width (.resize count, malloc))
      rw [after, had, resize, if_neg (Nat.not_lt.mpr enough)]
      simp only [if_pos enough]
      exact shows.keep count (by omega)

theorem pushBack_fault {value : Arg T} (careless : ¬ Adds width malloc s.vec value) :
    (s.vec.pushBack width malloc (value.ref s.vec)).fault = true := by
  obtain ⟨size, more, fault⟩ := grow_careless positive shows careless
  rw [pushBack]
  simp only [if_pos (size ▸ more)]
  cases fault with
  | inl fault => exact assign_of_fault fault
  | inr unreadable => exact assign_fault unreadable

theorem insert_faults {index : Nat} {value : Arg T} (inside : index ≤ s.vec.size)
    (careless : ¬ Adds width malloc s.vec value) :
    (s.vec.insert width malloc index (value.ref s.vec)).1.fault = true := by
  obtain ⟨size, more, fault⟩ := grow_careless positive shows careless
  rw [Vec.insert, if_neg (Nat.not_lt.mpr inside)]
  simp only [if_neg (Nat.not_le.mpr (size ▸ more))]
  cases fault with
  | inl fault => exact assign_of_fault (moveUp_of_fault fault _)
  | inr unreadable => exact insert_fault unreadable (size ▸ inside)

omit positive in
/-- An element that was shifted away is stored as its predecessor. -/
theorem insert_settled {index : Nat} {value : Arg T} {x : T} (inside : index ≤ s.vec.size)
    (known : value.value s.list = some x) (spare : s.vec.size < s.vec.capacity)
    (roomy : s.vec.reads width (.inside (s.vec.addr s.vec.size)) = true)
    (same : (s.vec.insert width malloc index (value.ref s.vec)).1.contents width =
      (s.list.insertIdx index x).map some) : value.Settled index s.list := by
  have still : s.vec.grow width malloc = s.vec := if_neg (Nat.not_le.mpr spare)
  have ready : Ready width s.vec (s.vec.grow width malloc) s.list value := by
    rw [still]
    exact ⟨shows, spare, roomy, Nat.le_refl _, rfl⟩
  obtain ⟨y, landed, inserted, _⟩ := ready.insert inside known
  have lists := (List.map_inj_right fun _ _ => Option.some.inj).mp (inserted.contents.symm.trans same)
  have values := congrArg (·[index]?) lists
  rw [shows.size] at inside
  simp only [List.getElem?_insertIdx_self, if_pos inside] at values
  cases value with
  | outside z => trivial
  | element i =>
      intro behind
      rw [Arg.landed, if_pos behind] at landed
      exact (landed.trans values).trans known.symm

/-- A call that does what it is to do was safe. -/
theorem safe_of_meets (valid : call.1.valid s.list) (meets : Meets width s call) :
    s.Safe width call := by
  have calm := meets.calm
  obtain ⟨call, malloc⟩ := call
  cases call with
  | pushBack value =>
      by_contra careless
      exact Bool.false_ne_true (calm.symm.trans (pushBack_fault positive shows careless))
  | insert index value =>
      intro inside
      have adds : Adds width malloc s.vec value := by
        by_contra careless
        exact Bool.false_ne_true (calm.symm.trans (insert_faults positive shows inside careless))
      refine ⟨adds, fun spare => ?_⟩
      obtain ⟨x, known⟩ := Option.isSome_iff_exists.mp valid
      have roomy := adds
      rw [Adds, if_pos spare] at roomy
      have had : ¬ refused width s.vec (.insert index value, malloc) = true := by
        rw [refused, Call.request, if_neg fun asks => Nat.not_le.mpr spare asks.2.1]
        exact Bool.false_ne_true
      have contents : (s.vec.insert width malloc index (value.ref s.vec)).1.contents width =
          (s.after width (.insert index value, malloc)).map some := meets.contents
      rw [after, if_neg had, Call.onList, known] at contents
      exact insert_settled shows inside known spare roomy contents
  | reserve capacity =>
      intro more granted
      by_contra beyond
      obtain ⟨_, _, fault⟩ := reserve_short shows more granted (Nat.not_le.mp beyond)
      exact Bool.false_ne_true (calm.symm.trans fault)
  | _ => trivial

end Calls

end Paired

/-! ### Runs -/

theorem construct_represents (malloc : Malloc) (capacity : Nat) :
    Represents width (Vec.construct width malloc capacity : Vec T) [] := by
  have vacant : Represents width (⟨none, 0, 0, fun _ => none, 0, false⟩ : Vec T) [] :=
    ⟨rfl, rfl, Nat.le_refl _, fun _ _ => rfl, .inl ⟨rfl, rfl⟩⟩
  rw [Vec.construct]
  split
  next =>
    dsimp only
    split
    next granted =>
      refine ⟨rfl, rfl, Nat.zero_le _, fun name later => ?_, .inr ⟨0,
        ⟨width * capacity % 2 ^ 64, fun _ => none⟩, ⟨rfl, rfl⟩, fun i inside => absurd inside (Nat.not_lt_zero i), Nat.zero_le _,
        malloc.addressable _ granted⟩⟩
      exact Function.update_of_ne (Nat.ne_of_gt later) ..
    next => exact vacant
  next => exact vacant

/-- In a run with valid calls every call does what it is to do exactly when every call is
safe. -/
theorem refines_iff (positive : 0 < width) (malloc : Malloc) (capacity : Nat)
    (calls : List (Call T × Malloc))
    (valid : Machine.Each (Paired.step width) (fun s call => call.1.valid s.list) calls
      ⟨Vec.construct width malloc capacity, []⟩) :
    Machine.Each (Paired.step width) (Paired.Meets width) calls
        ⟨Vec.construct width malloc capacity, []⟩ ↔
      Machine.Each (Paired.step width) (Paired.Safe width) calls
        ⟨Vec.construct width malloc capacity, []⟩ := by
  refine @Machine.each_iff _ _ (Paired.step width) (fun s => Represents width s.vec s.list) _ _ _
    ?_ ?_ _ (construct_represents malloc capacity) _ valid
  · intro s call shows valid safe
    exact (Paired.done positive shows valid safe).shows
  · intro s call shows valid
    exact ⟨Paired.safe_of_meets positive shows valid,
      fun safe => (Paired.done positive shows valid safe).meets⟩

/-- `[1, 2]` with room for more, and its second element inserted in front. -/
def selfInsert : List (Call UInt8 × Malloc) :=
  [(.pushBack (.outside 1), .ample), (.pushBack (.outside 2), .ample), (.insert 0 (.element 1), .ample)]

def selfPush : List (Call UInt8 × Malloc) :=
  [(.pushBack (.outside 1), .ample), (.pushBack (.element 0), .ample)]

theorem refines_fails :
    (Machine.Each (Paired.step 1) (fun s call => call.1.valid s.list) selfInsert
        ⟨Vec.construct 1 .ample 4, []⟩ ∧
      (Machine.run (step 1) (Vec.construct 1 .ample 4) selfInsert).contents 1 = [some 1, some 1, some 2] ∧
      ¬ Machine.Each (Paired.step 1) (Paired.Meets 1) selfInsert ⟨Vec.construct 1 .ample 4, []⟩) ∧
    Machine.Each (Paired.step 1) (fun s call => call.1.valid s.list) selfPush
        ⟨Vec.construct 1 .ample 1, []⟩ ∧
      (Machine.run (step 1) (Vec.construct 1 .ample 1) selfPush).fault = true ∧
      ¬ Machine.Each (Paired.step 1) (Paired.Meets 1) selfPush ⟨Vec.construct 1 .ample 1, []⟩ := by
  refine ⟨⟨⟨rfl, rfl, rfl, trivial⟩, by decide +kernel, ?_⟩, ⟨rfl, rfl, trivial⟩, by decide +kernel, ?_⟩
  · intro ⟨_, _, meets, _⟩
    exact absurd meets.contents (by decide +kernel)
  · intro ⟨_, meets, _⟩
    exact absurd meets.calm (by decide +kernel)

/-- An element copied to the place behind it, and then a larger block. -/
def fitting : List (Call UInt32 × Malloc) :=
  [(.pushBack (.outside 1), .ample), (.pushBack (.outside 2), .ample),
    (.insert 1 (.element 0), .ample), (.pushBack (.outside 3), .ample)]

theorem refines_iff_fitting :
    Machine.Each (Paired.step 4) (Paired.Meets 4) fitting ⟨Vec.construct 4 .ample 3, []⟩ := by
  have valid : Machine.Each (Paired.step 4) (fun s call => call.1.valid s.list) fitting
      ⟨Vec.construct 4 .ample 3, []⟩ := ⟨rfl, rfl, rfl, rfl, trivial⟩
  refine (refines_iff (by decide) .ample 3 fitting valid).mpr
    ⟨?_, ?_, fun _ => ⟨?_, fun _ before => absurd before (by decide)⟩, ?_, trivial⟩
  · exact adds_spare (by decide +kernel) (by decide +kernel)
  · exact adds_spare (by decide +kernel) (by decide +kernel)
  · exact adds_spare (by decide +kernel) (by decide +kernel)
  · exact adds_outside (by decide +kernel) (by decide +kernel)

end NetEngine.MallocVector
