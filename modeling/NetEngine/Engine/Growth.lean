import NetEngine.Engine.CstrHashMapProperties
import NetEngine.Engine.MallocVectorProperties

/-! Growth in `size_t`: when the blocks of a vector and the bucket arrays of a hash map
are as large as their capacities say. -/

set_option autoImplicit false

namespace NetEngine.MallocVector

variable {T : Type} {width : Nat} {malloc : Malloc}

namespace Vec

variable {v : Vec T}

/-- The bytes that the block in use was requested with. -/
def requested (v : Vec T) : Nat := ((v.data.bind v.heap).map Block.bytes).getD 0

/-- At least `capacity() * sizeof(T)`, not reduced. -/
def Backed (width : Nat) (v : Vec T) : Prop := width * v.capacity ≤ v.requested

instance (width : Nat) (v : Vec T) : Decidable (v.Backed width) :=
  inferInstanceAs (Decidable (_ ≤ _))

/-- New blocks have new names. -/
def Named (v : Vec T) : Prop := ∀ name, v.data = some name → name < v.fresh

/-- A call that leaves the block in use as it is. -/
structure Keeps (v w : Vec T) : Prop where
  data : w.data = v.data
  capacity : w.capacity = v.capacity
  fresh : w.fresh = v.fresh
  requested : w.requested = v.requested

theorem Keeps.refl (v : Vec T) : Keeps v v := ⟨rfl, rfl, rfl, rfl⟩

theorem Keeps.trans {u w : Vec T} (first : Keeps u v) (second : Keeps v w) : Keeps u w :=
  ⟨second.data.trans first.data, second.capacity.trans first.capacity,
    second.fresh.trans first.fresh, second.requested.trans first.requested⟩

theorem Keeps.resized {w : Vec T} (keeps : Keeps v w) (size : Nat) : Keeps v { w with size } :=
  ⟨keeps.data, keeps.capacity, keeps.fresh, keeps.requested⟩

theorem keeps_assign (index : Nat) (source : Ref T) : Keeps v (v.assign width index source) := by
  rw [assign]
  split
  next name block data around =>
    split
    · refine ⟨rfl, rfl, rfl, ?_⟩
      have live : v.heap name = some block := by
        rw [Vec.around, addr, data] at around
        exact (Option.filter_eq_some_iff.mp around).1
      simp [requested, data, live]
    · exact ⟨rfl, rfl, rfl, rfl⟩
  next => exact ⟨rfl, rfl, rfl, rfl⟩

theorem keeps_moveUp (index last : Nat) : Keeps v (moveUp width index last v) := by
  induction last generalizing v with
  | zero => exact .refl v
  | succ last ih =>
      rw [moveUp]
      split
      · exact (keeps_assign ..).trans ih
      · exact .refl v

theorem keeps_moveDown (rounds first : Nat) : Keeps v (moveDown width rounds first v) := by
  induction rounds generalizing v first with
  | zero => exact .refl v
  | succ rounds ih => exact (keeps_assign ..).trans (ih _)

/-- What a call leaves that asked `malloc` for a capacity and got it, or did not. -/
structure Leaves (width : Nat) (v w : Vec T) (got : Option Nat) : Prop where
  named : v.Named → w.Named
  idle : got = none → w.capacity = v.capacity ∧ w.requested = v.requested
  moved : v.Named → ∀ capacity, got = some capacity →
    w.capacity = capacity ∧ w.requested = width * capacity % 2 ^ 64

theorem Keeps.leaves {w : Vec T} (keeps : Keeps v w) : Leaves width v w none := by
  refine ⟨fun named name same => ?_, fun _ => ⟨keeps.capacity, keeps.requested⟩, fun _ _ none => nomatch none⟩
  rw [keeps.data] at same
  rw [keeps.fresh]
  exact named name same

theorem Leaves.then {w u : Vec T} {got : Option Nat} (leaves : Leaves width v w got)
    (keeps : Keeps w u) : Leaves width v u got := by
  refine ⟨fun named name same => ?_, fun none => ?_, fun named capacity some => ?_⟩
  · rw [keeps.data] at same
    rw [keeps.fresh]
    exact leaves.named named name same
  · rw [keeps.capacity, keeps.requested]
    exact leaves.idle none
  · rw [keeps.capacity, keeps.requested]
    exact leaves.moved named capacity some

theorem memcpy_bytes (target source count name : Nat) :
    ((v.memcpy width target source count).heap name).map Block.bytes =
      (v.heap name).map Block.bytes := by
  rw [memcpy]
  split
  next new old there _ =>
    split
    · by_cases same : name = target
      · subst same
        simp [there]
      · simp [same]
    · rfl
  next => rfl

theorem memcpy_fresh (target source count : Nat) :
    (v.memcpy width target source count).fresh = v.fresh := by
  rw [memcpy]
  split
  next =>
    split
    · rfl
    · rfl
  next => rfl

theorem reserve_leaves (capacity : Nat) :
    Leaves width v (v.reserve width malloc capacity)
      ((if v.capacity < capacity then some capacity else none).filter fun capacity =>
        malloc.grants (width * capacity % 2 ^ 64)) := by
  cases Nat.lt_or_ge v.capacity capacity with
  | inr enough =>
      rw [if_neg (Nat.not_lt.mpr enough), reserve_idle (.inl enough)]
      exact (Keeps.refl v).leaves
  | inl more =>
      rw [if_pos more]
      cases granted : malloc.grants (width * capacity % 2 ^ 64) with
      | false =>
          rw [reserve_idle (.inr granted), Option.filter_some, granted]
          exact (Keeps.refl v).leaves
      | true =>
          rw [Option.filter_some, granted, reserve, if_neg (Nat.not_le.mpr more), if_pos granted]
          refine ⟨fun _ name same => ?_, (by simp), fun named _ got => ?_⟩
          · obtain rfl := Option.some.inj same
            cases data : v.data with
            | none => exact Nat.lt_succ_self _
            | some old =>
                change v.fresh < ((v.allocate _).memcpy width v.fresh old _).fresh
                rw [memcpy_fresh]
                exact Nat.lt_succ_self _
          · obtain rfl := Option.some.inj got
            refine ⟨rfl, ?_⟩
            rw [requested, Option.bind_some]
            have given : ((v.allocate (width * capacity % 2 ^ 64)).heap v.fresh).map Block.bytes =
                some (width * capacity % 2 ^ 64) := by
              simp [allocate]
            cases data : v.data with
            | none => exact congrArg (Option.getD · 0) given
            | some old =>
                have apart : v.fresh ≠ old := Nat.ne_of_gt (named old data)
                simp only [free, Function.update_of_ne apart, memcpy_bytes, given, Option.getD_some]

/-- The capacity for which a call gets a block. -/
def got (width : Nat) (v : Vec T) (call : Call T × Malloc) : Option Nat :=
  (call.1.request v).filter fun capacity => call.2.grants (width * capacity % 2 ^ 64)

theorem grow_leaves : Leaves width v (v.grow width malloc)
    ((if v.capacity ≤ v.size ∧ v.capacity < v.newCapacity then some v.newCapacity else none).filter
      fun capacity => malloc.grants (width * capacity % 2 ^ 64)) := by
  rw [grow]
  split
  next full =>
    simp only [full, true_and]
    exact reserve_leaves v.newCapacity
  next spare =>
    simp only [spare, false_and, if_false]
    exact (Keeps.refl v).leaves

/-- Every call leaves the block in use, or one that it asked for. -/
theorem step_leaves (call : Call T × Malloc) : Leaves width v (step width v call) (v.got width call) := by
  obtain ⟨call, malloc⟩ := call
  cases call with
  | pushBack value =>
      have grown : Leaves width v (v.grow width malloc) (v.got width (.pushBack value, malloc)) :=
        grow_leaves
      change Leaves width v (v.pushBack width malloc (value.ref v)) _
      rw [pushBack]
      split
      next => exact grown.then ((keeps_assign ..).resized _)
      next => exact grown
  | insert index value =>
      change Leaves width v (v.insert width malloc index (value.ref v)).1 _
      rw [got, Call.request, insert]
      split
      next beyond =>
        rw [if_neg fun asks => Nat.not_le.mpr beyond asks.1]
        exact (Keeps.refl v).leaves
      next inside =>
        simp only [Nat.not_lt.mp inside, true_and]
        split
        next => exact grow_leaves
        next => exact grow_leaves.then (((keeps_moveUp ..).trans (keeps_assign ..)).resized _)
  | erase index =>
      change Leaves width v (v.erase width index).1 none
      rw [erase]
      split
      next => exact (Keeps.refl v).leaves
      next =>
        exact ((keeps_moveDown ..).resized _).leaves
  | popBack =>
      change Leaves width v v.popBack none
      rw [popBack]
      split
      next => exact ((Keeps.refl v).resized _).leaves
      next => exact (Keeps.refl v).leaves
  | clear => exact ((Keeps.refl v).resized 0).leaves
  | reserve capacity => exact reserve_leaves capacity
  | resize count =>
      have grown : Leaves width v
          (if v.capacity < count then v.reserve width malloc count else v)
          (v.got width (.resize count, malloc)) := by
        split
        next => exact reserve_leaves count
        next enough =>
          rw [got, Call.request, if_neg enough]
          exact (Keeps.refl v).leaves
      change Leaves width v (v.resize width malloc count) _
      rw [resize]
      generalize (if v.capacity < count then v.reserve width malloc count else v) = w at grown ⊢
      split
      next => exact grown.then ((Keeps.refl w).resized count)
      next => exact grown

/-- The size of what a call gets is its unreduced product. -/
def Exact (width : Nat) (v : Vec T) (call : Call T × Malloc) : Prop :=
  ∀ capacity, v.got width call = some capacity → width * capacity < 2 ^ 64

theorem reduced_covers {count : Nat} : count ≤ count % 2 ^ 64 ↔ count < 2 ^ 64 := by
  have below := Nat.mod_lt count (show 0 < 2 ^ 64 by decide)
  constructor
  · intro covers
    omega
  · intro small
    rw [Nat.mod_eq_of_lt small]

theorem step_backed_iff {call : Call T × Malloc} (named : v.Named) (backed : v.Backed width) :
    (step width v call).Backed width ↔ v.Exact width call := by
  have leaves := @step_leaves T width v call
  rw [Backed, Exact]
  cases asked : v.got width call with
  | none =>
      obtain ⟨capacity, requested⟩ := leaves.idle asked
      rw [capacity, requested]
      exact iff_of_true backed nofun
  | some capacity =>
      obtain ⟨larger, requested⟩ := leaves.moved named capacity asked
      rw [larger, requested, reduced_covers]
      constructor
      · intro small other same
        obtain rfl := Option.some.inj same
        exact small
      · intro exact
        exact exact capacity rfl

theorem construct_cases (width : Nat) (malloc : Malloc) (capacity : Nat) :
    (construct width malloc capacity : Vec T).Named ∧
      ((0 < capacity ∧ malloc.grants (width * capacity % 2 ^ 64) = true) ∧
          (construct width malloc capacity : Vec T).capacity = capacity ∧
          (construct width malloc capacity : Vec T).requested = width * capacity % 2 ^ 64 ∨
        ¬ (0 < capacity ∧ malloc.grants (width * capacity % 2 ^ 64) = true) ∧
          (construct width malloc capacity : Vec T).capacity = 0) := by
  rw [construct]
  split
  next some =>
    dsimp only
    split
    next granted =>
      refine ⟨fun name same => ?_, .inl ⟨⟨some, granted⟩, rfl, ?_⟩⟩
      · obtain rfl := Option.some.inj same
        exact Nat.lt_succ_self _
      · simp [requested, allocate]
    next refused => exact ⟨(fun _ same => by cases same), .inr ⟨fun both => refused both.2, rfl⟩⟩
  next none => exact ⟨(fun _ same => by cases same), .inr ⟨fun both => none both.1, rfl⟩⟩

/-- The block in use is as large as the capacity says: after the construction, and after
each call. -/
def BackedRun (width : Nat) (malloc : Malloc) (capacity : Nat) (calls : List (Call T × Malloc)) :
    Prop :=
  (construct width malloc capacity : Vec T).Backed width ∧
    Machine.Each (step width) (fun v call => (step width v call).Backed width) calls
      (construct width malloc capacity)

/-- No size that `malloc` granted was reduced. -/
def ExactRun (width : Nat) (malloc : Malloc) (capacity : Nat) (calls : List (Call T × Malloc)) :
    Prop :=
  (0 < capacity → malloc.grants (width * capacity % 2 ^ 64) = true → width * capacity < 2 ^ 64) ∧
    Machine.Each (step width) (Exact width) calls (construct width malloc capacity)

theorem construct_backed_iff (capacity : Nat) :
    (construct width malloc capacity : Vec T).Backed width ↔
      (0 < capacity → malloc.grants (width * capacity % 2 ^ 64) = true →
        width * capacity < 2 ^ 64) := by
  rw [Backed]
  cases (@construct_cases T width malloc capacity).2 with
  | inl given =>
      obtain ⟨⟨some, granted⟩, larger, requested⟩ := given
      rw [larger, requested, reduced_covers]
      exact ⟨fun small _ _ => small, fun small => small some granted⟩
  | inr none =>
      rw [none.2]
      exact iff_of_true (Nat.zero_le _) fun some granted => absurd ⟨some, granted⟩ none.1

theorem backedRun_iff (capacity : Nat) (calls : List (Call T × Malloc)) :
    BackedRun width malloc capacity calls ↔ ExactRun width malloc capacity calls := by
  rw [BackedRun, ExactRun, construct_backed_iff]
  refine and_congr_right fun small => ?_
  refine @Machine.each_iff _ _ (step width) (fun v => v.Named ∧ v.Backed width) (fun _ _ => True) _ _
    ?_ ?_ _ ⟨(construct_cases width malloc capacity).1, construct_backed_iff capacity |>.mpr small⟩ _
    (Machine.each_of_forall (fun _ _ => trivial) ..)
  · intro v call sound _ exact
    exact ⟨(v.step_leaves call).named sound.1, (step_backed_iff sound.1 sound.2).mpr exact⟩
  · intro v call sound _
    exact step_backed_iff sound.1 sound.2

end Vec

end NetEngine.MallocVector

namespace NetEngine.CstrHashMap

variable {V : Type}

/-- A capacity that serves: a power of two, no less than was asked for, with a bucket for
every index. -/
structure Serves (capacity asked : Nat) : Prop where
  power : ∃ k, capacity = 2 ^ k
  enough : asked ≤ capacity
  indexed : ∀ hash, indexIn capacity hash < capacity

theorem serves_iff {asked : Nat} (word : asked < 2 ^ 64) :
    Serves (nextPowerOfTwo asked) asked ↔ asked ≤ 2 ^ 63 := by
  constructor
  · intro serves
    by_contra large
    have enough := serves.enough
    rw [nextPowerOfTwo_wraps (Nat.not_le.mp large) word] at enough
    omega
  · intro small
    obtain ⟨k, power, enough⟩ := nextPowerOfTwo_spec small
    rw [power]
    exact ⟨⟨k, rfl⟩, enough, indexIn_lt⟩

theorem Map.construct_capacity {heap : Heap} {asked : Nat} {made : Map V}
    (accepted : Map.construct heap asked = some made) : made.capacity = nextPowerOfTwo asked := by
  rw [Map.construct] at accepted
  split at accepted
  next =>
    obtain rfl := Option.some.inj accepted
    rfl
  next => cases accepted

theorem Map.reserve_capacity {memory : Memory} {heap : Heap} {asked : Nat} {map later : Map V}
    (more : map.capacity < asked) (accepted : map.reserve memory heap asked = some later) :
    later.capacity = nextPowerOfTwo asked := by
  rw [Map.reserve, if_pos more, Map.rehashTo] at accepted
  dsimp only at accepted
  split at accepted
  next =>
    obtain rfl := Option.some.inj accepted
    rfl
  next => cases accepted

end NetEngine.CstrHashMap

namespace NetEngine.Growth

open MallocVector CstrHashMap

/-- Growth is sound exactly for the requests whose size is not reduced, and for the
capacities up to the largest power of two. -/
theorem growth_iff {T V : Type} (width : Nat) (malloc : Malloc) (capacity : Nat)
    (calls : List (MallocVector.Call T × Malloc)) (memory : CstrHashMap.Memory) (heap : Heap)
    (map after : Map V) (asked : Nat) (word : asked < 2 ^ 64) :
    (Vec.BackedRun width malloc capacity calls ↔ Vec.ExactRun width malloc capacity calls) ∧
    (Map.construct heap asked = some after → (Serves after.capacity asked ↔ asked ≤ 2 ^ 63)) ∧
    (map.capacity < asked → map.reserve memory heap asked = some after →
      (Serves after.capacity asked ↔ asked ≤ 2 ^ 63)) := by
  refine ⟨Vec.backedRun_iff capacity calls, fun accepted => ?_, fun more accepted => ?_⟩
  · rw [Map.construct_capacity accepted]
    exact serves_iff word
  · rw [Map.reserve_capacity more accepted]
    exact serves_iff word

theorem growth_iff_doubled :
    Vec.ExactRun 8 .ample 1 [(.pushBack (.outside (1 : UInt64)), .ample),
        (.pushBack (.outside 2), .ample)] ∧
      Serves 64 33 := by
  have doubled := growth_iff 8 .ample 1 [(.pushBack (.outside (1 : UInt64)), .ample),
    (.pushBack (.outside 2), .ample)] (fun _ => World.blank) World.ample
    (⟨fun _ => [], 64, 0⟩ : Map Nat) ⟨fun _ => [], 64, 0⟩ 33 (by decide)
  have backed : Vec.BackedRun 8 .ample 1 [(.pushBack (.outside (1 : UInt64)), .ample),
      (.pushBack (.outside 2), .ample)] :=
    ⟨by decide +kernel, by decide +kernel, by decide +kernel, trivial⟩
  exact ⟨doubled.1.mp backed, (doubled.2.1 rfl).mpr (by decide)⟩

/-- Room for `2 ^ 61 + 1` elements of eight bytes is asked for with one of them; and
`2 ^ 63 + 1` buckets become none. -/
theorem growth_wraps :
    (∃ v : Vec UInt64, v = Machine.run (MallocVector.step 8) (Vec.construct 8 .ample 4)
        [(.reserve (2 ^ 61 + 1), .ample)] ∧
      v.capacity = 2 ^ 61 + 1 ∧ v.requested = 8) ∧
    ¬ Vec.BackedRun 8 .ample 4 [((.reserve (2 ^ 61 + 1) : MallocVector.Call UInt64), .ample)] ∧
    ∃ made : Map Nat, Map.construct World.ample (2 ^ 63 + 1) = some made ∧ made.capacity = 0 ∧
      ¬ Serves made.capacity (2 ^ 63 + 1) := by
  refine ⟨⟨_, rfl, by decide +kernel, by decide +kernel⟩, fun backed => ?_, ⟨fun _ => [], 0, 0⟩, rfl, rfl,
    fun serves => ?_⟩
  · exact absurd (show Vec.Backed 8 _ from backed.2.1) (by decide +kernel)
  · exact absurd serves.enough (by decide)

end NetEngine.Growth
