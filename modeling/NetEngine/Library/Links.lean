import Mathlib.Data.List.Basic
import Mathlib.Data.List.Nodup
import Mathlib.Logic.Function.Basic

/-! Intrusive lists: the links are stored with the keys, as two functions, and a
list of keys says in which order they stand. Pushing to the front and taking a
key out write at most four links each. -/

set_option autoImplicit false

namespace NetEngine.Links

variable {κ : Type} [DecidableEq κ]

/-- A write through a link that may be null. -/
def writeAt (links : κ → Option κ) (target value : Option κ) : κ → Option κ :=
  match target with
  | none => links
  | some key => Function.update links key value

theorem writeAt_own (links : κ → Option κ) (key : κ) (value : Option κ) :
    writeAt links (some key) value key = value :=
  Function.update_self ..

theorem writeAt_other {links : κ → Option κ} {target value : Option κ} {key : κ}
    (apart : target ≠ some key) : writeAt links target value key = links key := by
  cases target with
  | none => rfl
  | some other =>
      refine Function.update_of_ne (fun same => apart ?_) _ _
      rw [same]

omit [DecidableEq κ] in
/-- The keys from one on, `before` being in front of the first. -/
def Linked (prev next : κ → Option κ) : Option κ → List κ → Prop
  | _, [] => True
  | before, key :: keys =>
      prev key = before ∧ next key = keys.head? ∧ Linked prev next (some key) keys

/-- Only the links that lead on: enough to walk the keys. -/
def Threaded (next : κ → Option κ) : List κ → Prop
  | [] => True
  | key :: keys => next key = keys.head? ∧ Threaded next keys

section

variable {prev next otherPrev otherNext : κ → Option κ} {before : Option κ} {key : κ}
  {keys front back : List κ}

omit [DecidableEq κ] in
theorem Linked.congr (linked : Linked prev next before keys)
    (samePrev : ∀ key ∈ keys, otherPrev key = prev key)
    (sameNext : ∀ key ∈ keys, otherNext key = next key) :
    Linked otherPrev otherNext before keys := by
  induction keys generalizing before with
  | nil => trivial
  | cons key keys ih =>
      obtain ⟨back, on, rest⟩ := linked
      refine ⟨(samePrev key List.mem_cons_self).trans back,
        (sameNext key List.mem_cons_self).trans on, ih rest ?_ ?_⟩
      · exact fun other member => samePrev other (List.mem_cons_of_mem _ member)
      · exact fun other member => sameNext other (List.mem_cons_of_mem _ member)

omit [DecidableEq κ] in
theorem Threaded.congr (threaded : Threaded next keys)
    (same : ∀ key ∈ keys, otherNext key = next key) : Threaded otherNext keys := by
  induction keys with
  | nil => trivial
  | cons key keys ih =>
      obtain ⟨on, rest⟩ := threaded
      exact ⟨(same key List.mem_cons_self).trans on,
        ih rest fun other member => same other (List.mem_cons_of_mem _ member)⟩

omit [DecidableEq κ] in
theorem Linked.threaded (linked : Linked prev next before keys) : Threaded next keys := by
  induction keys generalizing before with
  | nil => trivial
  | cons key keys ih => exact ⟨linked.2.1, ih linked.2.2⟩

omit [DecidableEq κ] in
theorem Linked.next_eq (linked : Linked prev next before (front ++ key :: back)) :
    next key = back.head? := by
  induction front generalizing before with
  | nil => exact linked.2.1
  | cons first front ih => exact ih linked.2.2

omit [DecidableEq κ] in
/-- What is in front of a key that is not the first. -/
theorem Linked.prev_mem (linked : Linked prev next before (front ++ key :: back)) :
    front = [] ∧ prev key = before ∨ ∃ other ∈ front, prev key = some other := by
  induction front generalizing before with
  | nil => exact .inl ⟨rfl, linked.1⟩
  | cons first front ih =>
      refine .inr ?_
      rcases ih linked.2.2 with ⟨_, same⟩ | ⟨other, member, same⟩
      · exact ⟨first, List.mem_cons_self, same⟩
      · exact ⟨other, List.mem_cons_of_mem _ member, same⟩

/-! ## Writing -/

/-- A new first key. -/
theorem Linked.push (linked : Linked prev next none keys) (nodup : (key :: keys).Nodup) :
    Linked (writeAt (Function.update prev key none) keys.head? (some key))
      (Function.update next key keys.head?) none (key :: keys) := by
  obtain ⟨fresh, distinct⟩ := List.nodup_cons.mp nodup
  cases keys with
  | nil => exact ⟨Function.update_self .., Function.update_self .., trivial⟩
  | cons first rest =>
      obtain ⟨_, on, rest_linked⟩ := linked
      have apart : first ≠ key := fun same => fresh (same ▸ List.mem_cons_self)
      refine ⟨?_, Function.update_self .., writeAt_own .., ?_, rest_linked.congr ?_ ?_⟩
      · rw [List.head?_cons, writeAt_other (by simpa using apart), Function.update_self]
      · rw [Function.update_of_ne apart, on]
      · intro other member
        have notFirst : first ≠ other := fun same => (List.nodup_cons.mp distinct).1 (same ▸ member)
        have notKey : other ≠ key := fun same => fresh (same ▸ List.mem_cons_of_mem _ member)
        rw [List.head?_cons, writeAt_other (by simpa using notFirst), Function.update_of_ne notKey]
      · intro other member
        have notKey : other ≠ key := fun same => fresh (same ▸ List.mem_cons_of_mem _ member)
        rw [Function.update_of_ne notKey]

/-- The links around a key are closed behind it. -/
theorem Linked.unlink (linked : Linked prev next before (front ++ key :: back))
    (nodup : (front ++ key :: back).Nodup)
    (outside : ∀ other, before = some other → other ∉ front ++ key :: back) :
    Linked (writeAt prev (next key) (prev key)) (writeAt next (prev key) (next key)) before
      (front ++ back) := by
  induction front generalizing before with
  | nil =>
      obtain ⟨start, on, rest⟩ := linked
      obtain ⟨fresh, distinct⟩ := List.nodup_cons.mp nodup
      rw [start, on]
      cases back with
      | nil => trivial
      | cons first back =>
          obtain ⟨_, further, rest⟩ := rest
          have apart : ∀ other ∈ first :: back, before ≠ some other := fun other member same =>
            outside other same (List.mem_cons_of_mem _ member)
          refine ⟨writeAt_own .., ?_, rest.congr (fun other member => ?_) fun other member => ?_⟩
          · rw [writeAt_other (apart first List.mem_cons_self), further]
          · refine writeAt_other ?_
            rintro ⟨⟩
            exact (List.nodup_cons.mp distinct).1 member
          · exact writeAt_other (apart other (List.mem_cons_of_mem _ member))
  | cons first front ih =>
      obtain ⟨start, on, rest⟩ := linked
      rw [List.cons_append] at nodup outside
      obtain ⟨fresh, distinct⟩ := List.nodup_cons.mp nodup
      have follows := rest.next_eq
      refine ⟨?_, ?_, ih rest distinct ?_⟩
      · rw [writeAt_other, start]
        rw [follows]
        intro same
        exact fresh (List.mem_append_right _ (List.mem_cons_of_mem _ (List.mem_of_mem_head? same)))
      · -- the key is the next one, or its predecessor stands further on
        rcases rest.prev_mem with ⟨rfl, behind⟩ | ⟨other, member, behind⟩
        · rw [behind, writeAt_own, follows]
          rfl
        · rw [behind, writeAt_other, on]
          · cases front with
            | nil => cases member
            | cons second front => rfl
          · rintro ⟨⟩
            exact fresh (List.mem_append_left _ member)
      · rintro other ⟨⟩
        exact fresh

end

end NetEngine.Links
