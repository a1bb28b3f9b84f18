import Mathlib.Data.List.Basic
import Mathlib.Data.List.Perm.Basic
import Mathlib.Logic.Function.Iterate

/-! Tables of chains, for hash maps with separate chaining: all entries in order
of their buckets, what editing one chain does to them, and a walk that visits
chain after chain. -/

set_option autoImplicit false

namespace NetEngine.Buckets

variable {α β : Type}

/-- The chain of each bucket. -/
abbrev Table (α : Type) := Nat → List α

def entries (table : Table α) (capacity : Nat) : List α := (List.range capacity).flatMap table

def push (table : Table α) (bucket : Nat) (entry : α) : Table α :=
  Function.update table bucket (entry :: table bucket)

/-- Every entry is in the bucket that `place` gives it. -/
def Placed (place : α → Nat) (table : Table α) (capacity : Nat) : Prop :=
  ∀ bucket < capacity, ∀ entry ∈ table bucket, place entry = bucket

variable {table : Table α} {place : α → Nat} {capacity bucket : Nat} {entry : α}

theorem mem_entries : entry ∈ entries table capacity ↔ ∃ bucket < capacity, entry ∈ table bucket := by
  simp [entries]

/-- A placed entry is searched for in one bucket only. -/
theorem Placed.mem_iff (placed : Placed place table capacity) (inside : place entry < capacity) :
    entry ∈ entries table capacity ↔ entry ∈ table (place entry) := by
  rw [mem_entries]
  constructor
  · intro found
    obtain ⟨bucket, within, member⟩ := found
    rwa [placed bucket within entry member]
  · exact fun member => ⟨_, inside, member⟩

theorem entries_congr {later : Table α} (same : ∀ bucket < capacity, later bucket = table bucket) :
    entries later capacity = entries table capacity :=
  List.flatMap_congr fun bucket member => same bucket (List.mem_range.mp member)

@[simp] theorem entries_empty : entries (fun _ => ([] : List α)) capacity = [] := by
  simp [entries]

/-! ## Editing a chain -/

theorem entries_push (inside : bucket < capacity) :
    (entries (push table bucket entry) capacity).Perm (entry :: entries table capacity) := by
  induction capacity with
  | zero => cases inside
  | succ capacity ih =>
      simp only [entries, List.range_succ, List.flatMap_append, List.flatMap_singleton] at ih ⊢
      cases Nat.lt_succ_iff_lt_or_eq.mp inside with
      | inl below =>
          rw [push, Function.update_of_ne (Nat.ne_of_gt below)]
          exact (ih below).append_right _
      | inr last =>
          have before : (List.range capacity).flatMap (push table bucket entry) =
              (List.range capacity).flatMap table :=
            entries_congr fun other below => Function.update_of_ne (by omega) _ _
          rw [before, last, push, Function.update_self]
          exact List.perm_middle

theorem Placed.push (placed : Placed place table capacity) (own : place entry = bucket) :
    Placed place (push table bucket entry) capacity := by
  intro other within found member
  rw [Buckets.push, Function.update_apply] at member
  split at member
  next same =>
    cases List.mem_cons.mp member with
    | inl new => rw [new, own, same]
    | inr old => exact same ▸ placed bucket (same ▸ within) found old
  · exact placed other within found member

/-- An edit of one chain that is the edit of all entries by `change`. -/
theorem entries_map {chain : List α} {change : α → α} (own : chain = (table bucket).map change)
    (others : ∀ other < capacity, other ≠ bucket → ∀ entry ∈ table other, change entry = entry) :
    entries (Function.update table bucket chain) capacity = (entries table capacity).map change := by
  rw [entries, entries, List.map_flatMap]
  refine List.flatMap_congr fun other member => ?_
  rw [Function.update_apply]
  split
  next same => rw [own, same]
  next apart =>
    have fixed := others other (List.mem_range.mp member) apart
    exact ((List.map_congr_left fixed).trans (List.map_id _)).symm

theorem entries_filter {chain : List α} {keep : α → Bool} (own : chain = (table bucket).filter keep)
    (others : ∀ other < capacity, other ≠ bucket → ∀ entry ∈ table other, keep entry = true) :
    entries (Function.update table bucket chain) capacity = (entries table capacity).filter keep := by
  rw [entries, entries, List.filter_flatMap]
  refine List.flatMap_congr fun other member => ?_
  rw [Function.update_apply]
  split
  next same => rw [own, same]
  next apart => exact (List.filter_eq_self.mpr (others other (List.mem_range.mp member) apart)).symm

/-! ## Scattering into a new table -/

/-- Every entry in turn becomes the head of its new chain. -/
def scatter (place : α → Nat) (table : Table α) (entries : List α) : Table α :=
  entries.foldl (fun table entry => push table (place entry) entry) table

/-- Chain after chain is entry after entry. -/
theorem scatter_chains (place : α → Nat) (target source : Table α) (capacity : Nat) :
    (List.range capacity).foldl (fun table bucket => scatter place table (source bucket)) target =
      scatter place target (entries source capacity) :=
  List.foldl_flatMap.symm

theorem entries_scatter (table : Table α) (inside : ∀ entry, place entry < capacity)
    (moved : List α) :
    (entries (scatter place table moved) capacity).Perm (moved ++ entries table capacity) := by
  induction moved generalizing table with
  | nil => exact .refl _
  | cons entry moved ih =>
      refine (ih (push table (place entry) entry)).trans ?_
      refine ((entries_push (inside entry)).append_left moved).trans ?_
      exact List.perm_middle

theorem Placed.scatter (placed : Placed place table capacity) (moved : List α) :
    Placed place (scatter place table moved) capacity := by
  induction moved generalizing table with
  | nil => exact placed
  | cons entry moved ih => exact ih (placed.push rfl)

theorem placed_empty : Placed place (fun _ => []) capacity := fun _ _ _ member => nomatch member

/-! ## Walking -/

/-- Where a walk stands: the rest of the chain it is in, nothing at the end. -/
structure Cursor (α : Type) where
  bucket : Nat
  chain : List α

/-- The first chain from `start` on that has an entry. -/
def firstFrom (table : Table α) (capacity start : Nat) : Cursor α :=
  match (List.range' start (capacity - start)).find? fun bucket => !(table bucket).isEmpty with
  | some bucket => ⟨bucket, table bucket⟩
  | none => ⟨capacity, []⟩

/-- What a walk still visits. -/
def Cursor.rest (table : Table α) (capacity : Nat) (cursor : Cursor α) : List α :=
  cursor.chain ++ (List.range' (cursor.bucket + 1) (capacity - (cursor.bucket + 1))).flatMap table

def Cursor.advance (table : Table α) (capacity : Nat) (cursor : Cursor α) : Cursor α :=
  match cursor.chain with
  | _ :: next :: chain => { cursor with chain := next :: chain }
  | _ => firstFrom table capacity (cursor.bucket + 1)

/-- An empty chain is the end. -/
def Cursor.Ended (table : Table α) (capacity : Nat) (cursor : Cursor α) : Prop :=
  cursor.chain = [] → cursor.rest table capacity = []

theorem firstFrom_rest (table : Table α) (capacity start : Nat) :
    (firstFrom table capacity start).rest table capacity =
      (List.range' start (capacity - start)).flatMap table := by
  generalize count : capacity - start = n
  induction n generalizing start with
  | zero =>
      rw [firstFrom, count]
      simp [Cursor.rest]
  | succ n ih =>
      have next : capacity - (start + 1) = n := by omega
      rw [List.range'_succ, List.flatMap_cons, firstFrom, count, List.range'_succ, List.find?_cons]
      cases first : table start with
      | nil =>
          have later := ih (start + 1) next
          rw [firstFrom, next] at later
          simpa using later
      | cons entry chain => simp [Cursor.rest, first, next]

theorem firstFrom_ended (table : Table α) (capacity start : Nat) :
    (firstFrom table capacity start).Ended table capacity := by
  intro stopped
  unfold firstFrom at stopped ⊢
  split at stopped
  next bucket found =>
    have busy := List.find?_some found
    simp only at stopped
    rw [stopped] at busy
    cases busy
  · simp [Cursor.rest]

namespace Cursor

variable {cursor : Cursor α}

theorem advance_ended (cursor : Cursor α) :
    (cursor.advance table capacity).Ended table capacity := by
  unfold advance
  split
  · exact nofun
  · exact firstFrom_ended table capacity _

theorem advance_rest (ended : cursor.Ended table capacity) :
    (cursor.advance table capacity).rest table capacity = (cursor.rest table capacity).tail := by
  unfold advance
  split
  next same => simp [rest, same]
  next last =>
    rw [firstFrom_rest]
    cases same : cursor.chain with
    | nil =>
        have beyond := ended same
        rw [beyond]
        rw [rest, same] at beyond
        exact beyond
    | cons entry chain =>
        cases chain with
        | nil => simp [rest, same]
        | cons next chain => exact absurd same (last entry next chain)

theorem rest_head (ended : cursor.Ended table capacity) :
    cursor.chain.head? = (cursor.rest table capacity).head? := by
  cases same : cursor.chain with
  | nil => rw [ended same]
  | cons entry chain => simp [rest, same]

theorem iterate_rest (ended : cursor.Ended table capacity) (n : Nat) :
    ((advance table capacity)^[n] cursor).Ended table capacity ∧
      ((advance table capacity)^[n] cursor).rest table capacity =
        (cursor.rest table capacity).drop n := by
  induction n generalizing cursor with
  | zero => exact ⟨ended, rfl⟩
  | succ n ih =>
      rw [Function.iterate_succ_apply]
      obtain ⟨after, rest⟩ := ih (advance_ended cursor)
      refine ⟨after, rest.trans ?_⟩
      rw [advance_rest ended, List.drop_tail]

end Cursor

/-- From the first chain on, the `n`-th stop of the walk is the `n`-th entry, and
the walk is at the end when there is none. -/
theorem walk_visits (table : Table α) (capacity n : Nat) :
    ((Cursor.advance table capacity)^[n] (firstFrom table capacity 0)).chain.head? =
      (entries table capacity)[n]? := by
  obtain ⟨ended, rest⟩ := Cursor.iterate_rest (firstFrom_ended table capacity 0) n
  rw [Cursor.rest_head ended, rest, firstFrom_rest, List.head?_drop, Nat.sub_zero,
    ← List.range_eq_range']
  rfl

end NetEngine.Buckets
