import Mathlib.Data.List.Basic
import Mathlib.Data.List.Induction

/-! A `collections.Counter`: a dictionary of counts, in the order of first insertion. -/

set_option autoImplicit false

namespace NetEngine

abbrev Counter (α : Type) := List (α × Nat)

namespace Counter

variable {α : Type} [DecidableEq α]

/-- `counter[key] += 1`. -/
def bump (key : α) : Counter α → Counter α
  | [] => [(key, 1)]
  | (other, n) :: rest => if other = key then (other, n + 1) :: rest else (other, n) :: bump key rest

def ofList (values : List α) : Counter α := values.foldl (fun counter key => bump key counter) []

theorem ofList_snoc (values : List α) (value : α) :
    ofList (values ++ [value]) = bump value (ofList values) := List.foldl_append

/-- `counter.get(key, 0)`. -/
def get (key : α) : Counter α → Nat
  | [] => 0
  | (other, n) :: rest => if other = key then n else get key rest

def keys (counter : Counter α) : List α := counter.map Prod.fst

omit [DecidableEq α] in
@[simp] theorem keys_cons (entry : α × Nat) (rest : Counter α) :
    keys (entry :: rest) = entry.1 :: keys rest := rfl

theorem get_bump (key other : α) (counter : Counter α) :
    get other (bump key counter) = get other counter + if key = other then 1 else 0 := by
  induction counter with
  | nil => simp [bump, get]
  | cons entry rest ih =>
      obtain ⟨first, n⟩ := entry
      by_cases here : first = key
      · subst here
        by_cases same : first = other <;> simp [bump, get, same]
      · by_cases same : first = other
        · subst same
          simp [bump, get, here, Ne.symm here]
        · simp [bump, get, here, same, ih]

theorem get_ofList (values : List α) (key : α) : get key (ofList values) = values.count key := by
  induction values using List.reverseRecOn with
  | nil => rfl
  | append_singleton values value ih =>
      rw [ofList_snoc, get_bump, ih, List.count_append, List.count_singleton]
      simp

theorem keys_bump (key : α) (counter : Counter α) :
    keys (bump key counter) = if key ∈ keys counter then keys counter else keys counter ++ [key] := by
  induction counter with
  | nil => simp [bump, keys]
  | cons entry rest ih =>
      obtain ⟨first, n⟩ := entry
      by_cases here : first = key
      · simp [bump, here]
      · simp only [bump, here, if_false, keys_cons, ih, List.mem_cons, Ne.symm here, false_or]
        split
        · rfl
        · rw [List.cons_append]

theorem keys_ofList_nodup (values : List α) : (keys (ofList values)).Nodup := by
  induction values using List.reverseRecOn with
  | nil => exact List.nodup_nil
  | append_singleton values value ih =>
      rw [ofList_snoc, keys_bump]
      split
      · exact ih
      next new => simpa [List.nodup_append] using ⟨ih, fun other member same => new (same ▸ member)⟩

theorem mem_keys_ofList {values : List α} {key : α} : key ∈ keys (ofList values) ↔ key ∈ values := by
  induction values using List.reverseRecOn with
  | nil => rfl
  | append_singleton values value ih =>
      rw [ofList_snoc, keys_bump]
      split
      next known =>
        rw [ih, List.mem_append, List.mem_singleton]
        constructor
        · exact .inl
        · rintro (early | rfl)
          · exact early
          · exact ih.mp known
      next => simp [ih]

theorem get_of_mem {counter : Counter α} (once : (keys counter).Nodup) {key : α} {n : Nat}
    (member : (key, n) ∈ counter) : get key counter = n := by
  induction counter with
  | nil => cases member
  | cons entry rest ih =>
      obtain ⟨first, m⟩ := entry
      rw [keys_cons, List.nodup_cons] at once
      rcases List.mem_cons.mp member with own | later
      · cases own
        simp [get]
      · have apart : first ≠ key := by
          rintro rfl
          exact once.1 (List.mem_map.mpr ⟨_, later, rfl⟩)
        simp only [get, apart, if_false]
        exact ih once.2 later

/-- The entries are the values, each with its number. -/
theorem mem_ofList {values : List α} {key : α} {n : Nat} :
    (key, n) ∈ ofList values ↔ key ∈ values ∧ n = values.count key := by
  constructor
  · intro member
    refine ⟨mem_keys_ofList.mp (List.mem_map_of_mem member), ?_⟩
    rw [← get_ofList, get_of_mem (keys_ofList_nodup values) member]
  · rintro ⟨member, rfl⟩
    obtain ⟨⟨other, n⟩, entry, rfl⟩ := List.mem_map.mp (mem_keys_ofList.mpr member)
    have count := get_of_mem (keys_ofList_nodup values) entry
    rw [get_ofList] at count
    rwa [count]

theorem ofList_pos {values : List α} : ∀ entry ∈ ofList values, 0 < entry.2 := by
  rintro ⟨key, n⟩ member
  obtain ⟨inside, rfl⟩ := mem_ofList.mp member
  exact List.count_pos_iff.mpr inside

/-- Two lists are the same up to order if each value of one is counted as often in the other,
and the other has no more. -/
theorem perm_iff {got want : List α} :
    got.Perm want ↔ (∀ entry ∈ ofList want, get entry.1 (ofList got) = entry.2) ∧
      ∀ entry ∈ ofList got, entry.1 ∈ keys (ofList want) := by
  rw [List.perm_iff_count]
  constructor
  · intro same
    constructor
    · rintro ⟨key, n⟩ member
      rw [(mem_ofList.mp member).2, get_ofList, same]
    · rintro ⟨key, n⟩ member
      have inside := List.count_pos_iff.mpr (mem_ofList.mp member).1
      rw [same] at inside
      exact mem_keys_ofList.mpr (List.count_pos_iff.mp inside)
  · rintro ⟨counts, known⟩ key
    by_cases wanted : key ∈ want
    · have count := counts (key, want.count key) (mem_ofList.mpr ⟨wanted, rfl⟩)
      rwa [get_ofList] at count
    · have absent : key ∉ got := by
        intro inside
        have entry := known (key, got.count key) (mem_ofList.mpr ⟨inside, rfl⟩)
        exact wanted (mem_keys_ofList.mp entry)
      rw [List.count_eq_zero_of_not_mem wanted, List.count_eq_zero_of_not_mem absent]

end Counter

end NetEngine
