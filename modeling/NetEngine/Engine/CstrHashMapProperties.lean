import Mathlib.Data.List.Nodup
import NetEngine.Engine.CstrHashMap
import NetEngine.Library.Bits

/-! The hash map as a finite map from contents to values. The entries, in any
order, are such a map; every call edits one chain, which is the same edit of the
entries, and a rehash only reorders them. -/

set_option autoImplicit false

namespace NetEngine.CstrHashMap

open Buckets

/-! ## Capacities -/

theorem nextPowerOfTwo_eq {value : Nat} (large : 1 < value) (small : value ≤ 2 ^ 63) :
    nextPowerOfTwo value = 2 ^ ((value - 1).log2 + 1) := by
  have positive : value - 1 ≠ 0 := by omega
  have short : value - 1 < 2 ^ 63 := by omega
  have high : (value - 1).log2 < 63 := (Nat.log2_lt positive).mpr short
  have smear := (((((Bits.smeared_one (value - 1)).double).double).double).double).double.double
  have power := smear.full positive (Nat.lt_trans short (by decide))
  rw [nextPowerOfTwo, if_neg (Nat.not_le.mpr large)]
  refine (congrArg (· % 2 ^ 64) power).trans (Nat.mod_eq_of_lt ?_)
  exact Nat.pow_lt_pow_right (by decide) (by omega)

theorem nextPowerOfTwo_spec {value : Nat} (small : value ≤ 2 ^ 63) :
    ∃ k, nextPowerOfTwo value = 2 ^ k ∧ value ≤ 2 ^ k := by
  cases Nat.lt_or_ge 1 value with
  | inr tiny => exact ⟨0, if_pos tiny, tiny⟩
  | inl large =>
      have below := Nat.lt_log2_self (n := value - 1)
      exact ⟨_, nextPowerOfTwo_eq large small, by omega⟩

/-- Above the largest power the round-up wraps. -/
theorem nextPowerOfTwo_wraps {value : Nat} (large : 2 ^ 63 < value) (word : value < 2 ^ 64) :
    nextPowerOfTwo value = 0 := by
  have positive : value - 1 ≠ 0 := by omega
  have top : (value - 1).log2 = 63 := (Nat.log2_eq_iff positive).mpr (by omega)
  have smear := (((((Bits.smeared_one (value - 1)).double).double).double).double).double.double
  have power := smear.full positive (show value - 1 < 2 ^ 64 by omega)
  rw [top] at power
  rw [nextPowerOfTwo, if_neg (by omega)]
  exact (congrArg (· % 2 ^ 64) power).trans (by decide)

theorem nextPowerOfTwo_lt {value : Nat} (large : 1 < value) (small : value ≤ 2 ^ 63) :
    nextPowerOfTwo value < 2 * value := by
  have above := Nat.log2_self_le (n := value - 1) (by omega)
  rw [nextPowerOfTwo_eq large small, Nat.pow_succ]
  omega

theorem nextPowerOfTwo_power {k : Nat} (small : k ≤ 63) : nextPowerOfTwo (2 ^ k) = 2 ^ k := by
  rcases Nat.eq_zero_or_pos k with rfl | positive
  · rfl
  have large : 1 < 2 ^ k := Nat.one_lt_two_pow (Nat.ne_of_gt positive)
  have word : 2 ^ k ≤ 2 ^ 63 := Nat.pow_le_pow_right (by decide) small
  obtain ⟨j, power, wide⟩ := nextPowerOfTwo_spec word
  have close := nextPowerOfTwo_lt large word
  rw [power] at close ⊢
  rw [← Nat.pow_succ'] at close
  have low : k ≤ j := (Nat.pow_le_pow_iff_right (by decide)).mp wide
  have high : j < k + 1 := (Nat.pow_lt_pow_iff_right (by decide)).mp close
  rw [show j = k by omega]

theorem indexIn_power {k : Nat} (hash : UInt64) : indexIn (2 ^ k) hash = hash.toNat &&& (2 ^ k - 1) := by
  have power := Nat.two_pow_pos k
  cases Nat.lt_or_ge k 64 with
  | inl narrow =>
      have below : 2 ^ k < 2 ^ 64 := Nat.pow_lt_pow_right (by decide) narrow
      have mask : (2 ^ k + (2 ^ 64 - 1)) % 2 ^ 64 = 2 ^ k - 1 := by omega
      rw [indexIn, mask]
  | inr wide =>
      -- Both masks leave the whole hash.
      have room : 2 ^ 64 ≤ 2 ^ k := Nat.pow_le_pow_right (by decide) wide
      have mask : (2 ^ k + (2 ^ 64 - 1)) % 2 ^ 64 = 2 ^ 64 - 1 := by
        obtain ⟨extra, rfl⟩ := Nat.exists_eq_add_of_le wide
        rw [Nat.pow_add, Nat.mul_add_mod]
        exact Nat.mod_eq_of_lt (by decide)
      rw [indexIn, mask, Nat.and_two_pow_sub_one_eq_mod, Nat.and_two_pow_sub_one_eq_mod,
        Nat.mod_eq_of_lt hash.toNat_lt, Nat.mod_eq_of_lt (Nat.lt_of_lt_of_le hash.toNat_lt room)]

theorem indexIn_lt {k : Nat} (hash : UInt64) : indexIn (2 ^ k) hash < 2 ^ k := by
  rw [indexIn_power, Nat.and_two_pow_sub_one_eq_mod]
  exact Nat.mod_lt _ (Nat.two_pow_pos k)

/-! ## Contents -/

theorem cmpBytes_eq_zero {lhs rhs : List UInt8} (left : 0 ∉ lhs) (right : 0 ∉ rhs) :
    cmpBytes lhs rhs = 0 ↔ lhs = rhs := by
  have positive {byte : UInt8} (nonzero : byte ≠ 0) : byte.toNat ≠ 0 := fun zero =>
    nonzero (UInt8.toNat_inj.mp zero)
  induction lhs generalizing rhs with
  | nil =>
      cases rhs with
      | nil => exact iff_of_true rfl rfl
      | cons byte rest =>
          have nonzero := positive (fun zero => right (zero ▸ List.mem_cons_self) : byte ≠ 0)
          refine iff_of_false ?_ nofun
          simp only [cmpBytes]
          omega
  | cons byte rest ih =>
      have nonzero := positive (fun zero => left (zero ▸ List.mem_cons_self) : byte ≠ 0)
      cases rhs with
      | nil =>
          refine iff_of_false ?_ nofun
          simp only [cmpBytes]
          omega
      | cons other others =>
          rw [cmpBytes, List.cons.injEq]
          split
          next same =>
            have rest := ih (fun member => left (List.mem_cons_of_mem _ member))
              (fun member => right (List.mem_cons_of_mem _ member))
            exact rest.trans (and_iff_right same).symm
          next apart =>
            refine iff_of_false (fun zero => apart (UInt8.toNat_inj.mp ?_)) fun both => apart both.1
            omega

variable {V : Type} {memory : Memory}

/-- Keys are compared by content. -/
theorem same_iff {key : Address} {node : Node V} :
    Map.same memory key node = true ↔ memory node.key = memory key := by
  rw [Map.same, beq_iff_eq, cstrCmp]
  split
  next pointer => exact iff_of_true rfl (by rw [pointer])
  · rw [cmpBytes_eq_zero (memory node.key).terminated (memory key).terminated]
    cases memory node.key
    cases memory key
    rw [Text.mk.injEq]

/-! ## Chains with at most one match -/

section Chain

variable {chain : List (Node V)} {found : Node V → Bool}

/-- No two nodes have one content. -/
def Distinct (memory : Memory) (nodes : List (Node V)) : Prop :=
  (nodes.map fun node => memory node.key).Nodup

theorem Distinct.cons_iff {node : Node V} :
    Distinct memory (node :: chain) ↔
      (∀ other ∈ chain, memory other.key ≠ memory node.key) ∧ Distinct memory chain := by
  simp [Distinct]

theorem Distinct.perm {other : List (Node V)} (distinct : Distinct memory chain)
    (perm : other.Perm chain) : Distinct memory other :=
  (perm.map _).nodup_iff.mpr distinct

theorem assignFirst_eq_map {key : Address} (value : V) (distinct : Distinct memory chain) :
    Map.assignFirst (Map.same memory key) value chain =
      chain.map fun node => if Map.same memory key node then { node with value } else node := by
  induction chain with
  | nil => rfl
  | cons node chain ih =>
      rw [Distinct.cons_iff] at distinct
      rw [Map.assignFirst, List.map_cons]
      split
      next own =>
        have others : ∀ other ∈ chain,
            (if Map.same memory key other then { other with value } else other) = other := by
          intro other member
          rw [if_neg]
          rw [same_iff] at own ⊢
          exact own ▸ distinct.1 other member
        rw [List.map_congr_left others, List.map_id']
      · rw [ih distinct.2]

theorem eraseP_eq_filter {key : Address} (distinct : Distinct memory chain) :
    chain.eraseP (Map.same memory key) = chain.filter fun node => !Map.same memory key node := by
  induction chain with
  | nil => rfl
  | cons node chain ih =>
      rw [Distinct.cons_iff] at distinct
      cases own : Map.same memory key node with
      | true =>
          have others : ∀ other ∈ chain, (!Map.same memory key other) = true := by
            intro other member
            rw [Bool.not_eq_true', Bool.eq_false_iff]
            rw [same_iff] at own
            intro match_
            exact distinct.1 other member ((same_iff.mp match_).trans own.symm)
          rw [List.eraseP_cons_of_pos own, List.filter_cons_of_neg (by rw [own]; exact nofun),
            List.filter_eq_self.mpr others]
      | false =>
          rw [List.eraseP_cons_of_neg (by rw [own]; exact nofun),
            List.filter_cons_of_pos (by rw [own]; rfl), ih distinct.2]

theorem dropWhile_head : (chain.dropWhile fun node => !found node).head? = chain.find? found := by
  induction chain with
  | nil => rfl
  | cons node chain ih =>
      rw [List.find?_cons, List.dropWhile_cons]
      cases found node with
      | true => rfl
      | false => exact ih

end Chain

/-! ## Entries as a finite map -/

/-- The nodes hold exactly the bindings of `content`. -/
def Describes (memory : Memory) (nodes : List (Node V)) (content : Text → Option V) : Prop :=
  ∀ text value, content text = some value ↔ ∃ node ∈ nodes, memory node.key = text ∧ node.value = value

section Describes

variable {nodes other : List (Node V)} {content : Text → Option V} {key : Address} {value : V}

theorem Describes.perm (describes : Describes memory nodes content) (perm : other.Perm nodes) :
    Describes memory other content := by
  intro text value
  rw [describes text value]
  simp only [perm.mem_iff]

theorem Describes.none_iff (describes : Describes memory nodes content) {text : Text} :
    content text = none ↔ ∀ node ∈ nodes, memory node.key ≠ text := by
  constructor
  · intro absent node member own
    have present := (describes text node.value).mpr ⟨node, member, own, rfl⟩
    rw [absent] at present
    cases present
  · intro apart
    cases bound : content text with
    | none => rfl
    | some value =>
        obtain ⟨node, member, own, _⟩ := (describes text value).mp bound
        exact absurd own (apart node member)

theorem Describes.cons (describes : Describes memory nodes content)
    (fresh : content (memory key) = none) :
    Describes memory (⟨key, value⟩ :: nodes) (Function.update content (memory key) (some value)) := by
  intro text bound
  have apart := describes.none_iff.mp fresh
  rw [Function.update_apply]
  simp only [List.mem_cons]
  split
  next own =>
    constructor
    · intro same
      exact ⟨⟨key, value⟩, .inl rfl, own.symm, Option.some.inj same⟩
    · intro found
      obtain ⟨node, new | old, here, same⟩ := found
      · rw [new] at same
        exact congrArg some same
      · exact absurd (here.trans own) (apart node old)
  next elsewhere =>
    rw [describes text bound]
    constructor
    · intro found
      obtain ⟨node, member, here, same⟩ := found
      exact ⟨node, .inr member, here, same⟩
    · intro found
      obtain ⟨node, new | old, here, same⟩ := found
      · rw [new] at here
        exact absurd here.symm elsewhere
      · exact ⟨node, old, here, same⟩

theorem Describes.assign (describes : Describes memory nodes content)
    (present : content (memory key) ≠ none) :
    Describes memory
      (nodes.map fun node => if Map.same memory key node then { node with value } else node)
      (Function.update content (memory key) (some value)) := by
  intro text bound
  rw [Function.update_apply]
  simp only [List.mem_map]
  split
  next own =>
    constructor
    · intro same
      obtain ⟨old, before⟩ := Option.ne_none_iff_exists'.mp present
      obtain ⟨node, member, here, _⟩ := (describes _ _).mp before
      refine ⟨{ node with value }, ⟨node, member, if_pos (same_iff.mpr here)⟩, ?_, Option.some.inj same⟩
      exact here.trans own.symm
    · intro found
      obtain ⟨_, ⟨node, member, rfl⟩, here, same⟩ := found
      split at here
      next matched =>
        rw [if_pos matched] at same
        exact congrArg some same
      next missed => exact absurd (same_iff.mpr (here.trans own)) missed
  next elsewhere =>
    rw [describes text bound]
    constructor
    · intro found
      obtain ⟨node, member, here, same⟩ := found
      have missed : ¬ Map.same memory key node = true := fun matched =>
        elsewhere (here.symm.trans (same_iff.mp matched))
      exact ⟨node, ⟨node, member, if_neg missed⟩, here, same⟩
    · intro found
      obtain ⟨_, ⟨node, member, rfl⟩, here, same⟩ := found
      split at here
      next matched => exact absurd (here.symm.trans (same_iff.mp matched)) elsewhere
      next missed =>
        rw [if_neg missed] at same
        exact ⟨node, member, here, same⟩

theorem Describes.erase (describes : Describes memory nodes content) :
    Describes memory (nodes.filter fun node => !Map.same memory key node)
      (Function.update content (memory key) none) := by
  intro text bound
  rw [Function.update_apply]
  simp only [List.mem_filter, Bool.not_eq_true', Bool.eq_false_iff, ne_eq, same_iff]
  split
  next own =>
    refine iff_of_false nofun fun found => ?_
    obtain ⟨node, ⟨_, apart⟩, here, _⟩ := found
    exact apart (here.trans own)
  next elsewhere =>
    rw [describes text bound]
    constructor
    · intro found
      obtain ⟨node, member, here, same⟩ := found
      exact ⟨node, ⟨member, fun own => elsewhere (here.symm.trans own)⟩, here, same⟩
    · intro found
      obtain ⟨node, ⟨member, _⟩, here, same⟩ := found
      exact ⟨node, member, here, same⟩

end Describes

/-! ## The invariant -/

namespace Map

def place (memory : Memory) (capacity : Nat) (node : Node V) : Nat :=
  indexIn capacity (hashFunc (memory node.key))

/-- A well-formed map; `size` stays under the load limit also between two calls. -/
structure Ok (memory : Memory) (map : Map V) : Prop where
  power : map.capacity = 0 ∨ ∃ k, map.capacity = 2 ^ k
  addressable : 8 * map.capacity < 2 ^ 64
  placed : Placed (place memory map.capacity) map.buckets map.capacity
  distinct : Distinct memory map.entries
  size : map.size = map.entries.length
  load : map.size ≤ loadLimit map.capacity

/-- The heap grants what `insert` and `operator[]` ask it for: buckets in a map without any, and
for a content that is not there a node, with twice the buckets where it would overload them. -/
def Granted (memory : Memory) (heap : Heap) (map : Map V) (key : Address) : Prop :=
  (map.capacity = 0 → heap.array 64 = true) ∧
    ((∀ node ∈ map.entries, memory node.key ≠ memory key) → heap.node = true ∧
      (map.capacity ≠ 0 → 3 * map.capacity < 4 * (map.size + 1) →
        heap.array (2 * map.capacity) = true))

theorem vacant_ok : Ok memory (vacant : Map V) where
  power := .inl rfl
  addressable := Nat.two_pow_pos 64
  placed := nofun
  distinct := List.nodup_nil
  size := rfl
  load := Nat.zero_le _

theorem construct_ok {heap : Heap} {capacity : Nat} {map : Map V} (small : capacity ≤ 2 ^ 63)
    (made : construct heap capacity = some map) :
    Ok memory map ∧ map.entries = [] ∧ map.capacity ≠ 0 := by
  obtain ⟨k, power, _⟩ := nextPowerOfTwo_spec small
  unfold construct at made
  split at made
  next granted =>
    cases made
    have empty : entries (⟨fun _ => [], nextPowerOfTwo capacity, 0⟩ : Map V) = [] := entries_empty
    refine ⟨{
      power := .inr ⟨k, power⟩
      addressable := heap.addressable _ granted
      placed := placed_empty
      distinct := by rw [empty]; exact List.nodup_nil
      size := by rw [empty]; rfl
      load := Nat.zero_le _ }, empty, ?_⟩
    change nextPowerOfTwo capacity ≠ 0
    rw [power]
    exact Nat.ne_of_gt (Nat.two_pow_pos k)
  · cases made

theorem erase_capacity (memory : Memory) (map : Map V) (key : Address) :
    (map.erase memory key).capacity = map.capacity := by
  unfold erase
  split
  · rfl
  · simp only
    split <;> rfl

namespace Ok

variable {map later : Map V} {heap : Heap} {key : Address}

theorem bucketIndex_lt (ok : Ok memory map) (usable : map.capacity ≠ 0) (hash : UInt64) :
    map.bucketIndex hash < map.capacity := by
  cases ok.power with
  | inl zero => exact absurd zero usable
  | inr power =>
      obtain ⟨k, power⟩ := power
      rw [bucketIndex, power]
      exact indexIn_lt hash

theorem place_lt (ok : Ok memory map) (usable : map.capacity ≠ 0) (node : Node V) :
    place memory map.capacity node < map.capacity :=
  ok.bucketIndex_lt usable _

theorem chain_distinct (ok : Ok memory map) {bucket : Nat} (inside : bucket < map.capacity) :
    Distinct memory (map.buckets bucket) := by
  have distinct := ok.distinct
  rw [Distinct, entries, Buckets.entries, List.map_flatMap, List.nodup_flatMap] at distinct
  exact distinct.1 bucket (List.mem_range.mpr inside)

theorem elsewhere (ok : Ok memory map) {bucket : Nat} (inside : bucket < map.capacity)
    (other : bucket ≠ map.bucketIndex (hashFunc (memory key))) :
    ∀ node ∈ map.buckets bucket, ¬ same memory key node = true := by
  intro node member matched
  have own := ok.placed bucket inside node member
  rw [place, same_iff.mp matched] at own
  exact other own.symm

/-- A look-up in one chain is a look-up in all entries. -/
theorem any_iff (ok : Ok memory map) (usable : map.capacity ≠ 0) (key : Address) :
    (map.buckets (map.bucketIndex (hashFunc (memory key)))).any (same memory key) = true ↔
      ∃ node ∈ map.entries, memory node.key = memory key := by
  rw [List.any_eq_true]
  constructor
  · intro found
    obtain ⟨node, member, matched⟩ := found
    exact ⟨node, mem_entries.mpr ⟨_, ok.bucketIndex_lt usable _, member⟩, same_iff.mp matched⟩
  · intro found
    obtain ⟨node, member, own⟩ := found
    have chain := (ok.placed.mem_iff (ok.place_lt usable node)).mp member
    rw [place, own] at chain
    exact ⟨node, chain, same_iff.mpr own⟩

/-- A rehash keeps every entry, and only reorders them. -/
theorem rehashTo (ok : Ok memory map) {newCapacity : Nat} (grows : map.capacity ≤ newCapacity)
    (small : newCapacity ≤ 2 ^ 63)
    (done : map.rehashTo memory heap newCapacity = some later) :
    Ok memory later ∧ later.entries.Perm map.entries ∧ later.size = map.size ∧
      newCapacity ≤ later.capacity := by
  obtain ⟨k, power, wide⟩ := nextPowerOfTwo_spec small
  unfold Map.rehashTo at done
  simp only at done
  split at done
  next granted =>
    cases done
    have inside (node : Node V) :
        indexIn (nextPowerOfTwo newCapacity) (hashFunc (memory node.key)) <
          nextPowerOfTwo newCapacity := by
      rw [power]
      exact indexIn_lt _
    have nested := scatter_chains (fun node => indexIn (nextPowerOfTwo newCapacity)
      (hashFunc (memory node.key))) (fun _ => []) map.buckets map.capacity
    have scattered := entries_scatter (fun _ => []) inside map.entries
    rw [entries_empty, List.append_nil] at scattered
    have perm : (Buckets.entries ((List.range map.capacity).foldl
        (fun table bucket => scatter (fun node => indexIn (nextPowerOfTwo newCapacity)
          (hashFunc (memory node.key))) table (map.buckets bucket)) fun _ => [])
        (nextPowerOfTwo newCapacity)).Perm map.entries := by
      rw [nested]
      exact scattered
    refine ⟨{
      power := .inr ⟨k, power⟩
      addressable := heap.addressable _ granted
      placed := ?_
      distinct := ok.distinct.perm perm
      size := ok.size.trans perm.length_eq.symm
      load := ?_ }, perm, rfl, by rw [power]; exact wide⟩
    · rw [nested]
      exact placed_empty.scatter map.entries
    · refine Nat.le_trans ok.load (Nat.div_le_div_right (Nat.mul_le_mul_right 3 ?_))
      change map.capacity ≤ nextPowerOfTwo newCapacity
      rw [power]
      exact Nat.le_trans grows wide
  · cases done

/-- An edit of one chain that keeps the nodes' keys and places. -/
theorem setChain (ok : Ok memory map) {bucket : Nat} {chain : List (Node V)} {nodes : List (Node V)}
    {size : Nat} (entries_eq : Buckets.entries (Function.update map.buckets bucket chain)
      map.capacity = nodes)
    (placed : ∀ node ∈ chain, place memory map.capacity node = bucket)
    (distinct : Distinct memory nodes) (length : size = nodes.length) (shrinks : size ≤ map.size) :
    Ok memory { map.setChain bucket chain with size } where
  power := ok.power
  addressable := ok.addressable
  placed := fun other inside node member => by
    change node ∈ Function.update map.buckets bucket chain other at member
    rw [Function.update_apply] at member
    split at member
    next same => rw [same]; exact placed node member
    · exact ok.placed other inside node member
  distinct := by
    change Distinct memory (Buckets.entries (Function.update map.buckets bucket chain) map.capacity)
    rw [entries_eq]
    exact distinct
  size := by
    change size = (Buckets.entries (Function.update map.buckets bucket chain) map.capacity).length
    rw [entries_eq]
    exact length
  load := Nat.le_trans shrinks ok.load

theorem assign_entries (ok : Ok memory map) (usable : map.capacity ≠ 0) (value : V) :
    (map.assign memory key value).entries = map.entries.map fun node =>
      if same memory key node then { node with value } else node := by
  refine entries_map (assignFirst_eq_map value (ok.chain_distinct (ok.bucketIndex_lt usable _)))
    fun other inside apart node member => ?_
  exact if_neg (ok.elsewhere inside apart node member)

theorem assign (ok : Ok memory map) (usable : map.capacity ≠ 0) (value : V) :
    Ok memory (map.assign memory key value) := by
  have keys : ∀ node : Node V,
      (if same memory key node then { node with value } else node).key = node.key := by
    intro node
    split <;> rfl
  refine ok.setChain (ok.assign_entries usable value) (fun node member => ?_) ?_ ?_ (Nat.le_refl _)
  · rw [assignFirst_eq_map value (ok.chain_distinct (ok.bucketIndex_lt usable _))] at member
    obtain ⟨old, inChain, rfl⟩ := List.mem_map.mp member
    rw [place, keys]
    exact ok.placed _ (ok.bucketIndex_lt usable _) old inChain
  · rw [Distinct, List.map_map]
    have same : ((fun node : Node V => memory node.key) ∘ fun node : Node V =>
        if same memory key node then { node with value } else node) = fun node => memory node.key :=
      funext fun node => congrArg memory (keys node)
    rw [same]
    exact ok.distinct
  · rw [List.length_map]
    exact ok.size

theorem empty_of_zero (zero : map.capacity = 0) : map.entries = [] := by
  rw [entries, Buckets.entries, zero]
  rfl

theorem erase (ok : Ok memory map) (key : Address) :
    Ok memory (map.erase memory key) ∧
      (map.erase memory key).entries = map.entries.filter fun node => !same memory key node := by
  unfold Map.erase
  split
  next zero =>
    rw [empty_of_zero zero]
    exact ⟨ok, rfl⟩
  next usable =>
    have inside := ok.bucketIndex_lt usable (hashFunc (memory key))
    simp only
    split
    next present =>
      obtain ⟨node, member, own⟩ := (ok.any_iff usable key).mp present
      have edited : Buckets.entries (Function.update map.buckets
          (map.bucketIndex (hashFunc (memory key)))
          ((map.buckets (map.bucketIndex (hashFunc (memory key)))).eraseP (same memory key)))
          map.capacity = map.entries.filter fun node => !same memory key node :=
        entries_filter (eraseP_eq_filter (ok.chain_distinct inside))
          fun other within apart node member => by
            rw [Bool.not_eq_true', Bool.eq_false_iff]
            exact ok.elsewhere within apart node member
      refine ⟨ok.setChain edited (fun node member => ?_) ?_ ?_ (Nat.sub_le _ _), edited⟩
      · exact ok.placed _ inside node (List.eraseP_subset member)
      · exact List.Nodup.sublist (List.filter_sublist.map _) ok.distinct
      · rw [← eraseP_eq_filter ok.distinct, List.length_eraseP_of_mem member (same_iff.mpr own),
          ok.size]
    next absent =>
      refine ⟨ok, (List.filter_eq_self.mpr fun node member => ?_).symm⟩
      rw [Bool.not_eq_true', Bool.eq_false_iff, ne_eq, same_iff]
      exact fun own => absent ((ok.any_iff usable key).mpr ⟨node, member, own⟩)

theorem clear (ok : Ok memory map) : Ok memory map.clear ∧ map.clear.entries = [] := by
  have vacated : map.clear.entries = [] := by
    rw [entries, Buckets.entries, List.flatMap_eq_nil_iff]
    intro bucket member
    exact if_pos (List.mem_range.mp member)
  refine ⟨{
    power := ok.power
    addressable := ok.addressable
    placed := fun bucket inside node member => by
      have within : bucket < map.capacity := inside
      change node ∈ (if bucket < map.capacity then [] else map.buckets bucket) at member
      rw [if_pos within] at member
      cases member
    distinct := by rw [vacated]; exact List.nodup_nil
    size := by rw [vacated]; rfl
    load := Nat.zero_le _ }, vacated⟩

theorem reserve (ok : Ok memory map) {newCapacity : Nat} (small : newCapacity ≤ 2 ^ 63)
    (done : map.reserve memory heap newCapacity = some later) :
    Ok memory later ∧ later.entries.Perm map.entries ∧ later.size = map.size ∧
      (map.capacity ≠ 0 → later.capacity ≠ 0) := by
  unfold Map.reserve at done
  split at done
  next grows =>
    obtain ⟨after, perm, size, wide⟩ := ok.rehashTo (Nat.le_of_lt grows) small done
    exact ⟨after, perm, size, fun _ zero => by omega⟩
  · cases done
    exact ⟨ok, .refl _, rfl, id⟩

/-- After the test of `insert` there is room for one more. -/
theorem makeRoom (ok : Ok memory map) (usable : map.capacity ≠ 0)
    (done : map.rehashIfNeededForInsert memory heap = some later) :
    Ok memory later ∧ later.entries.Perm map.entries ∧ later.size = map.size ∧
      later.capacity ≠ 0 ∧ later.size + 1 ≤ loadLimit later.capacity := by
  have addressable := ok.addressable
  have load := ok.load
  unfold Map.rehashIfNeededForInsert at done
  rw [if_neg usable, Nat.mod_eq_of_lt (by omega)] at done
  split at done
  next full =>
    obtain ⟨after, perm, size, wide⟩ := ok.rehashTo (by omega) (by omega) done
    refine ⟨after, perm, size, by omega, ?_⟩
    simp only [loadLimit] at load ⊢
    omega
  next room =>
    cases done
    exact ⟨ok, .refl _, rfl, usable, by omega⟩

theorem link (ok : Ok memory map) (usable : map.capacity ≠ 0) {value : V}
    (room : map.size + 1 ≤ loadLimit map.capacity)
    (fresh : ∀ node ∈ map.entries, memory node.key ≠ memory key)
    (done : map.link memory heap key value = some later) :
    Ok memory later ∧ later.entries.Perm (⟨key, value⟩ :: map.entries) ∧
      later.size = map.size + 1 ∧ later.capacity = map.capacity := by
  unfold Map.link at done
  split at done
  · cases done
    have perm : (Buckets.entries (push map.buckets (map.bucketIndex (hashFunc (memory key)))
        ⟨key, value⟩) map.capacity).Perm (⟨key, value⟩ :: map.entries) :=
      entries_push (ok.bucketIndex_lt usable _)
    refine ⟨{
      power := ok.power
      addressable := ok.addressable
      placed := ok.placed.push rfl
      distinct := ?_
      size := ?_
      load := room }, perm, rfl, rfl⟩
    · exact (Distinct.cons_iff.mpr ⟨fresh, ok.distinct⟩).perm perm
    · exact (congrArg (· + 1) ok.size).trans perm.length_eq.symm
  · cases done

/-- `insert` and `operator[]`: an update of a map that has the content, a new node
in one that has not. -/
theorem upsert (ok : Ok memory map) {present : Map V → Map V} {fresh : V}
    (done : map.upsert memory heap key present fresh = some later) :
    (∃ node ∈ map.entries, memory node.key = memory key) ∧ map.capacity ≠ 0 ∧ later = present map ∨
      (∀ node ∈ map.entries, memory node.key ≠ memory key) ∧ Ok memory later ∧
        later.entries.Perm (⟨key, fresh⟩ :: map.entries) ∧ later.size = map.size + 1 ∧
        later.capacity ≠ 0 := by
  unfold Map.upsert at done
  rw [Option.bind_eq_some_iff] at done
  obtain ⟨base, based, done⟩ := done
  have start : Ok memory base ∧ base.entries.Perm map.entries ∧ base.size = map.size ∧
      base.capacity ≠ 0 ∧ (map.capacity ≠ 0 → base = map) := by
    split at based
    next zero =>
      obtain ⟨after, perm, size, wide⟩ := ok.rehashTo (by omega) (by decide) based
      exact ⟨after, perm, size, by omega, fun usable => absurd zero usable⟩
    next usable =>
      cases based
      exact ⟨ok, .refl _, rfl, usable, fun _ => rfl⟩
  obtain ⟨baseOk, basePerm, baseSize, usable, unmoved⟩ := start
  have look := baseOk.any_iff usable key
  simp only at done
  split at done
  next hit =>
    cases done
    obtain ⟨node, member, own⟩ := look.mp hit
    have inside := basePerm.mem_iff.mp member
    have mapped : map.capacity ≠ 0 := by
      intro zero
      rw [empty_of_zero zero] at inside
      cases inside
    rw [unmoved mapped]
    exact .inl ⟨⟨node, inside, own⟩, mapped, rfl⟩
  next miss =>
    rw [Option.bind_eq_some_iff] at done
    obtain ⟨roomy, made, linked⟩ := done
    obtain ⟨roomyOk, roomyPerm, roomySize, wide, room⟩ := baseOk.makeRoom usable made
    have absent : ∀ node ∈ map.entries, memory node.key ≠ memory key := fun node member own =>
      miss (look.mpr ⟨node, basePerm.mem_iff.mpr member, own⟩)
    obtain ⟨laterOk, laterPerm, laterSize, same⟩ := roomyOk.link wide room
      (fun node member => absent node ((roomyPerm.trans basePerm).mem_iff.mp member)) linked
    refine .inr ⟨absent, laterOk, laterPerm.trans ((roomyPerm.trans basePerm).cons _), ?_, ?_⟩
    · rw [laterSize, roomySize, baseSize]
    · rw [same]
      exact wide

/-- The first match in the bucket is the binding of the content. -/
theorem lookup (ok : Ok memory map) (usable : map.capacity ≠ 0) {content : Text → Option V}
    (describes : Describes memory map.entries content) :
    ((map.buckets (map.bucketIndex (hashFunc (memory key)))).find? (same memory key)).map (·.value) =
      content (memory key) := by
  have inside := ok.bucketIndex_lt usable (hashFunc (memory key))
  cases found : (map.buckets (map.bucketIndex (hashFunc (memory key)))).find? (same memory key) with
  | some node =>
      have member := mem_entries.mpr ⟨_, inside, List.mem_of_find?_eq_some found⟩
      have own := same_iff.mp (List.find?_some found)
      exact ((describes _ _).mpr ⟨node, member, own, rfl⟩).symm
  | none =>
      refine (describes.none_iff.mpr fun node member own => ?_).symm
      rw [List.find?_eq_none] at found
      have chain := (ok.placed.mem_iff (ok.place_lt usable node)).mp member
      rw [place, own] at chain
      exact found node chain (same_iff.mpr own)

theorem find (ok : Ok memory map) {content : Text → Option V}
    (describes : Describes memory map.entries content) :
    (map.find memory key).chain.head?.map (·.value) = content (memory key) := by
  unfold Map.find
  split
  next zero =>
    refine (describes.none_iff.mpr fun node member => ?_).symm
    rw [empty_of_zero zero] at member
    cases member
  next usable =>
    rw [← ok.lookup usable describes]
    rw [← dropWhile_head]
    simp only
    split
    next none => rw [none]; rfl
    · rfl

theorem contains (ok : Ok memory map) {content : Text → Option V}
    (describes : Describes memory map.entries content) :
    map.contains memory key = (content (memory key)).isSome := by
  rw [Map.contains, ← ok.find describes, Option.isSome_map]
  cases (map.find memory key).chain <;> rfl

/-- The map reads memory only at its keys. -/
theorem congr (ok : Ok memory map) {other : Memory}
    (same : ∀ node ∈ map.entries, other node.key = memory node.key) : Ok other map where
  power := ok.power
  addressable := ok.addressable
  placed bucket inside node member := by
    rw [place, same node (mem_entries.mpr ⟨bucket, inside, member⟩)]
    exact ok.placed bucket inside node member
  distinct := by
    rw [Distinct, List.map_congr_left same]
    exact ok.distinct
  size := ok.size
  load := ok.load

/-- What an iterator from `find` stands on. -/
theorem find_cases (ok : Ok memory map) (key : Address) :
    (map.find memory key).chain = [] ∧ (∀ node ∈ map.entries, memory node.key ≠ memory key) ∨
      ∃ node rest, (map.find memory key).chain = node :: rest ∧ node ∈ map.entries ∧
        memory node.key = memory key := by
  by_cases zero : map.capacity = 0
  · refine .inl ⟨by rw [Map.find, if_pos zero]; rfl, fun node member => ?_⟩
    rw [empty_of_zero zero] at member
    cases member
  · have look := ok.any_iff zero key
    have head := @dropWhile_head V (map.buckets (map.bucketIndex (hashFunc (memory key))))
      (same memory key)
    cases chain : (map.buckets (map.bucketIndex (hashFunc (memory key)))).dropWhile
        fun node => !same memory key node with
    | nil =>
        rw [chain] at head
        refine .inl ⟨by simp only [Map.find, zero, if_false, chain]; rfl, fun node member own => ?_⟩
        obtain ⟨other, inside, matched⟩ := List.any_eq_true.mp (look.mpr ⟨node, member, own⟩)
        exact List.find?_eq_none.mp head.symm other inside matched
    | cons node rest =>
        rw [chain, List.head?_cons] at head
        refine .inr ⟨node, rest, by simp only [Map.find, zero, if_false, chain], ?_,
          same_iff.mp (List.find?_some head.symm)⟩
        exact mem_entries.mpr ⟨_, ok.bucketIndex_lt zero _, List.mem_of_find?_eq_some head.symm⟩

/-- An `insert` or `operator[]` whose requests the heap grants returns. -/
theorem upsert_granted (ok : Ok memory map) (granted : map.Granted memory heap key)
    (present : Map V → Map V) (fresh : V) :
    ∃ later, map.upsert memory heap key present fresh = some later := by
  obtain ⟨buckets, absent⟩ := granted
  unfold Map.upsert
  split
  next zero =>
    have nodes : ∀ node ∈ map.entries, memory node.key ≠ memory key := by
      rw [empty_of_zero zero]
      exact nofun
    have array : heap.array (nextPowerOfTwo 64) = true := buckets zero
    have none : map.size = 0 := by rw [ok.size, empty_of_zero zero]; rfl
    simp only [Map.rehashTo, array, if_true, Option.bind_some]
    split
    · exact ⟨_, rfl⟩
    · have room : ¬ loadLimit (nextPowerOfTwo 64) < map.size + 1 := by
        rw [none]
        decide
      have wide : nextPowerOfTwo 64 ≠ 0 := by decide
      simp only [Map.rehashIfNeededForInsert, if_neg wide, if_neg room, Option.bind_some, Map.link,
        (absent nodes).1, if_true]
      exact ⟨_, rfl⟩
  next usable =>
    simp only [Option.bind_some]
    split
    · exact ⟨_, rfl⟩
    next miss =>
      have nodes : ∀ node ∈ map.entries, memory node.key ≠ memory key := fun node member own =>
        miss ((ok.any_iff usable key).mpr ⟨node, member, own⟩)
      obtain ⟨node, growth⟩ := absent nodes
      obtain ⟨roomy, grows⟩ : ∃ roomy, map.rehashIfNeededForInsert memory heap = some roomy := by
        have addressable := ok.addressable
        unfold Map.rehashIfNeededForInsert
        rw [if_neg usable]
        split
        next full =>
          obtain ⟨k, power⟩ := ok.power.resolve_left usable
          have small : k + 1 ≤ 63 := by
            have below : 2 ^ k < 2 ^ 61 := by omega
            have := (Nat.pow_lt_pow_iff_right (by decide)).mp below
            omega
          have array : heap.array (nextPowerOfTwo (map.capacity * 2 % 2 ^ 64)) = true := by
            rw [Nat.mod_eq_of_lt (by omega), power, ← Nat.pow_succ, nextPowerOfTwo_power small,
              Nat.pow_succ', ← power]
            refine growth usable ?_
            simp only [loadLimit] at full
            omega
          simp only [Map.rehashTo, array, if_true]
          exact ⟨_, rfl⟩
        · exact ⟨_, rfl⟩
      rw [grows, Option.bind_some, Map.link, if_pos node]
      exact ⟨_, rfl⟩

/-- A new content is inserted whenever memory lasts. -/
theorem insert_fresh (ok : Ok memory map) (usable : map.capacity ≠ 0) (value : V)
    (fresh : ∀ node ∈ map.entries, memory node.key ≠ memory key) (free : heap.node = true)
    (lasts : ∀ count, count ≤ 8 * map.size + 8 → heap.array count = true) :
    ∃ later, map.insert memory heap key value = some later ∧ Ok memory later ∧
      later.entries.Perm (⟨key, value⟩ :: map.entries) ∧ later.capacity ≠ 0 := by
  have granted : map.Granted memory heap key :=
    ⟨fun zero => absurd zero usable, fun _ => ⟨free, fun _ full => lasts _ (by omega)⟩⟩
  obtain ⟨later, done⟩ := ok.upsert_granted granted (fun map => map.assign memory key value) value
  obtain ⟨⟨node, member, own⟩, _⟩ | ⟨_, laterOk, perm, _, still⟩ := ok.upsert done
  · exact absurd own (fresh node member)
  · exact ⟨later, done, laterOk, perm, still⟩

end Ok

end Map

/-! ## The finite maps that calls are about -/

abbrev Content (V : Type) := Text → Option V

/-- Maps by name, and what the calls answered. -/
structure Spec (V : Type) where
  maps : Nat → Option (Content V)
  answers : List (Answer V)

namespace Spec

variable [Inhabited V]

def init : Spec V := ⟨fun _ => none, []⟩

def set (spec : Spec V) (id : Nat) (content : Content V) (answer : Answer V) : Spec V :=
  ⟨Function.update spec.maps id (some content), spec.answers ++ [answer]⟩

def move (spec : Spec V) (target source : Nat) (content : Content V) : Spec V :=
  set ⟨Function.update spec.maps target (some content), spec.answers⟩ source (fun _ => none) .done

def step (spec : Spec V) : Call V → Spec V
  | .construct id _ => spec.set id (fun _ => none) .done
  | .insert id text value | .assign id text value =>
      match spec.maps id with
      | some content => spec.set id (Function.update content text (some value)) .done
      | none => spec
  | .read id text =>
      match spec.maps id with
      | some content =>
          let value := (content text).getD default
          spec.set id (Function.update content text (some value)) (.entry (some value))
      | none => spec
  | .erase id text =>
      match spec.maps id with
      | some content => spec.set id (Function.update content text none) .done
      | none => spec
  | .find id text =>
      match spec.maps id with
      | some content => spec.set id content (.entry (content text))
      | none => spec
  | .contains id text =>
      match spec.maps id with
      | some content => spec.set id content (.flag (content text).isSome)
      | none => spec
  | .clear id =>
      match spec.maps id with
      | some _ => spec.set id (fun _ => none) .done
      | none => spec
  | .reserve id _ =>
      match spec.maps id with
      | some content => spec.set id content .done
      | none => spec
  | .moveConstruct target source =>
      match spec.maps source with
      | some content => spec.move target source content
      | none => spec
  | .moveAssign target source =>
      match spec.maps source with
      | some content =>
          if target = source then spec.set target content .done else spec.move target source content
      | none => spec

def run (calls : List (Call V)) : Spec V := Machine.run step init calls

end Spec

/-- Which maps stand as a move left one: moved from, or given what such a map was. -/
def Call.vacate (vacated : Nat → Bool) : Call V → Nat → Bool
  | .construct id _ => Function.update vacated id false
  | .moveConstruct target source | .moveAssign target source =>
      if target = source then vacated
      else Function.update (Function.update vacated target (vacated source)) source true
  | _ => vacated

def vacated (calls : List (Call V)) : Nat → Bool := calls.foldl Call.vacate fun _ => false

/-- A call that leaves every map where it is. -/
def Call.Stays (call : Call V) : Prop := ∀ vacated, call.vacate vacated = vacated

namespace World

variable [Inhabited V]

def calls (w : World V) : List (Call V) := w.trace.map Prod.fst

def spec (w : World V) : Spec V := Spec.run w.calls

/-- A map with the finite map it stands for. -/
structure Stands (w : World V) (id : Nat) (map : Map V) (content : Content V) : Prop where
  ok : map.Ok w.memory
  describes : Describes w.memory map.entries content
  vacated : map.capacity = 0 → vacated w.calls id = true

structure Inv (w : World V) : Prop where
  answers : w.spec.answers = w.trace.map Prod.snd
  missing : ∀ id, w.maps id = none → w.spec.maps id = none
  stands : ∀ id map, w.maps id = some map →
    ∃ content, w.spec.maps id = some content ∧ w.Stands id map content

namespace Inv

variable {w : World V} {id : Nat} {map later : Map V} {content : Content V} {call : Call V}
  {answer : Answer V}

theorem init (memory : Memory) : Inv (World.init memory : World V) where
  answers := rfl
  missing := fun _ _ => rfl
  stands := nofun

omit [Inhabited V] in
theorem calls_put : (w.put id later call answer).calls = w.calls ++ [call] := by
  simp [calls, put]

theorem spec_put : (w.put id later call answer).spec = w.spec.step call := by
  rw [spec, calls_put, Spec.run, Machine.run_snoc]
  rfl

omit [Inhabited V] in
theorem vacated_put : vacated (w.put id later call answer).calls = call.vacate (vacated w.calls) := by
  rw [calls_put, vacated, List.foldl_append]
  rfl

/-- A call that edits one map and answers as the finite map does. -/
theorem put (inv : Inv w) (stepped : w.spec.step call = w.spec.set id content answer)
    (ok : later.Ok w.memory) (describes : Describes w.memory later.entries content)
    (own : later.capacity = 0 → call.vacate (vacated w.calls) id = true)
    (others : ∀ other ≠ id, call.vacate (vacated w.calls) other = vacated w.calls other) :
    Inv (w.put id later call answer) where
  answers := by
    rw [spec_put, stepped]
    simp [Spec.set, World.put, inv.answers]
  missing := fun other absent => by
    rw [spec_put, stepped]
    change Function.update w.maps id (some later) other = none at absent
    change Function.update w.spec.maps id (some content) other = none
    rw [Function.update_apply] at absent ⊢
    split at absent
    · cases absent
    next apart => rw [if_neg apart]; exact inv.missing other absent
  stands := fun other map present => by
    change Function.update w.maps id (some later) other = some map at present
    rw [spec_put, stepped]
    change ∃ content', Function.update w.spec.maps id (some content) other = some content' ∧ _
    rw [Function.update_apply] at present ⊢
    split at present
    next same =>
      cases present
      rw [if_pos same]
      refine ⟨content, rfl, ok, describes, fun zero => ?_⟩
      rw [vacated_put, same]
      exact own zero
    next apart =>
      rw [if_neg apart]
      obtain ⟨before, found, stands⟩ := inv.stands other map present
      refine ⟨before, found, stands.ok, stands.describes, fun zero => ?_⟩
      rw [vacated_put, others other apart]
      exact stands.vacated zero

/-- The same for a call that moves nothing. -/
theorem edit (inv : Inv w) (stays : call.Stays) (stands : w.Stands id map content)
    (after : Content V) (stepped : w.spec.step call = w.spec.set id after answer)
    (ok : later.Ok w.memory) (describes : Describes w.memory later.entries after)
    (usable : later.capacity = 0 → map.capacity = 0) : Inv (w.put id later call answer) :=
  inv.put stepped ok describes (fun zero => by rw [stays]; exact stands.vacated (usable zero))
    fun other _ => by rw [stays]

omit [Inhabited V] in
/-- What an `insert` or an `operator[]` makes of a map and of its content. -/
theorem upsert {heap : Heap} {key : Address} {present : Map V → Map V} {fresh : V}
    (stands : w.Stands id map content) (done : map.upsert w.memory heap key present fresh = some later) :
    (content (w.memory key) ≠ none ∧ map.capacity ≠ 0 ∧ later = present map) ∨
      content (w.memory key) = none ∧ later.Ok w.memory ∧ later.capacity ≠ 0 ∧
        Describes w.memory later.entries
          (Function.update content (w.memory key) (some fresh)) := by
  cases stands.ok.upsert done with
  | inl hit =>
      obtain ⟨⟨node, member, own⟩, usable, same⟩ := hit
      refine .inl ⟨fun absent => ?_, usable, same⟩
      exact stands.describes.none_iff.mp absent node member own
  | inr miss =>
      obtain ⟨apart, ok, perm, _, usable⟩ := miss
      have absent := stands.describes.none_iff.mpr apart
      exact .inr ⟨absent, ok, usable, (stands.describes.cons absent).perm perm⟩

omit [Inhabited V] in
theorem assign (stands : w.Stands id map content) {key : Address} (usable : map.capacity ≠ 0)
    (value : V) (present : content (w.memory key) ≠ none) :
    (map.assign w.memory key value).Ok w.memory ∧
      Describes w.memory (map.assign w.memory key value).entries
        (Function.update content (w.memory key) (some value)) := by
  refine ⟨stands.ok.assign usable value, ?_⟩
  rw [stands.ok.assign_entries usable]
  exact stands.describes.assign present

omit [Inhabited V] in
theorem insert (stands : w.Stands id map content) {heap : Heap} {key : Address} {value : V}
    (done : map.insert w.memory heap key value = some later) :
    later.Ok w.memory ∧ later.capacity ≠ 0 ∧
      Describes w.memory later.entries (Function.update content (w.memory key) (some value)) := by
  cases upsert stands done with
  | inl hit =>
      obtain ⟨present, usable, same⟩ := hit
      obtain ⟨ok, describes⟩ := assign stands usable value present
      rw [same]
      exact ⟨ok, usable, describes⟩
  | inr miss => exact ⟨miss.2.1, miss.2.2.1, miss.2.2.2⟩

/-- After `operator[]` the content is there, a default one if it was not. -/
theorem index (stands : w.Stands id map content) {heap : Heap} {key : Address}
    (done : map.index w.memory heap key = some later) :
    later.Ok w.memory ∧ later.capacity ≠ 0 ∧ Describes w.memory later.entries
      (Function.update content (w.memory key) (some ((content (w.memory key)).getD default))) := by
  cases upsert stands done with
  | inl hit =>
      obtain ⟨present, usable, same⟩ := hit
      obtain ⟨value, bound⟩ := Option.ne_none_iff_exists'.mp present
      rw [same, bound, Option.getD_some, ← bound, Function.update_eq_self]
      exact ⟨stands.ok, usable, stands.describes⟩
  | inr miss =>
      obtain ⟨absent, ok, usable, describes⟩ := miss
      rw [absent, Option.getD_none]
      exact ⟨ok, usable, describes⟩

theorem ending (inv : Inv w) : Inv { w with ended := true } :=
  ⟨inv.answers, inv.missing, fun id map present => by
    obtain ⟨content, found, stands⟩ := inv.stands id map present
    exact ⟨content, found, stands.ok, stands.describes, stands.vacated⟩⟩

/-- The end of a call that may have needed memory. -/
theorem finish (inv : Inv w) (stays : call.Stays) (stands : w.Stands id map content)
    {result : Option (Map V)} {reply : Map V → Answer V} (after : Content V)
    (stepped : ∀ later, result = some later →
      w.spec.step call = w.spec.set id after (reply later) ∧ later.Ok w.memory ∧
        (later.capacity = 0 → map.capacity = 0) ∧ Describes w.memory later.entries after) :
    Inv (w.finish id result call reply) := by
  cases result with
  | none => exact inv.ending
  | some later =>
      obtain ⟨stepped, ok, usable, describes⟩ := stepped later rfl
      exact inv.edit stays stands after stepped ok describes usable

/-- The source is left empty, the target has what the source had. -/
theorem move (inv : Inv w) {target source : Nat} (present : w.maps source = some map)
    (stepped : ∀ content, w.spec.maps source = some content →
      w.spec.step call = w.spec.move target source content)
    (vacates : call.vacate (vacated w.calls) = Function.update
      (Function.update (vacated w.calls) target (vacated w.calls source)) source true) :
    Inv (w.move target source map call) := by
  obtain ⟨content, found, stands⟩ := inv.stands source map present
  have step := stepped content found
  have calls : (w.move target source map call).calls = w.calls ++ [call] := by
    simp [World.calls, World.move, World.put]
  have spec : (w.move target source map call).spec = w.spec.move target source content := by
    rw [← step, World.spec, calls, Spec.run, Machine.run_snoc]
    rfl
  have standing : vacated (w.move target source map call).calls = Function.update
      (Function.update (vacated w.calls) target (vacated w.calls source)) source true := by
    rw [← vacates, calls, vacated, List.foldl_append]
    rfl
  have maps (id : Nat) : (w.move target source map call).maps id =
      if id = source then some .vacant else if id = target then some map else w.maps id := by
    simp [World.move, World.put, Function.update_apply]
  have contents (id : Nat) : (w.spec.move target source content).maps id =
      if id = source then some fun _ => none
      else if id = target then some content else w.spec.maps id := by
    simp [Spec.move, Spec.set, Function.update_apply]
  refine ⟨?_, fun id absent => ?_, fun id other here => ?_⟩
  · rw [spec]
    simp [Spec.move, Spec.set, World.move, World.put, inv.answers]
  · rw [maps] at absent
    rw [spec, contents]
    split at absent
    · cases absent
    next elsewhere =>
      rw [if_neg elsewhere]
      split at absent
      · cases absent
      next untouched => rw [if_neg untouched]; exact inv.missing id absent
  · rw [maps] at here
    rw [spec, contents]
    split at here
    next own =>
      cases here
      rw [if_pos own]
      refine ⟨_, rfl, Map.vacant_ok, fun text value => iff_of_false nofun ?_, fun _ => ?_⟩
      · exact fun ⟨node, member, _⟩ => nomatch member
      · rw [standing, own, Function.update_self]
    next elsewhere =>
      rw [if_neg elsewhere]
      split at here
      next taken =>
        cases here
        rw [if_pos taken]
        refine ⟨content, rfl, stands.ok, stands.describes, fun zero => ?_⟩
        rw [standing, Function.update_of_ne elsewhere, taken, Function.update_self]
        exact stands.vacated zero
      next untouched =>
        rw [if_neg untouched]
        obtain ⟨before, bound, kept⟩ := inv.stands id other here
        refine ⟨before, bound, kept.ok, kept.describes, fun zero => ?_⟩
        rw [standing, Function.update_of_ne elsewhere, Function.update_of_ne untouched]
        exact kept.vacated zero

end Inv

/-- What the callers keep to: no construction for more than `2 ^ 63` buckets, no
`reserve` past `2 ^ 60`, and no change of a string while it is a key. -/
def Allowed (w : World V) : Op V → Prop
  | .construct _ capacity => capacity ≤ 2 ^ 63
  | .reserve _ newCapacity => newCapacity ≤ 2 ^ 60
  | .write key _ => ∀ id map, w.maps id = some map → ∀ node ∈ map.entries, node.key ≠ key
  | _ => True

namespace Inv

variable {w : World V}

theorem write (inv : Inv w) {key : Address} (text : Text)
    (unmapped : ∀ id map, w.maps id = some map → ∀ node ∈ map.entries, node.key ≠ key) :
    Inv { w with memory := Function.update w.memory key text } := by
  refine ⟨inv.answers, inv.missing, fun id map present => ?_⟩
  obtain ⟨content, found, stands⟩ := inv.stands id map present
  have same (node : Node V) (member : node ∈ map.entries) :
      Function.update w.memory key text node.key = w.memory node.key :=
    Function.update_of_ne (unmapped id map present node member) _ _
  refine ⟨content, found, stands.ok.congr same, ?_, stands.vacated⟩
  · intro text' value
    rw [stands.describes text' value]
    constructor
    · intro bound
      obtain ⟨node, member, own, holds⟩ := bound
      exact ⟨node, member, (same node member).trans own, holds⟩
    · intro bound
      obtain ⟨node, member, own, holds⟩ := bound
      exact ⟨node, member, (same node member).symm.trans own, holds⟩

theorem step (inv : Inv w) (event : Op V × Heap) (allowed : Allowed w event.1) :
    Inv (w.step event) := by
  obtain ⟨op, heap⟩ := event
  unfold World.step
  split
  · exact inv
  simp only
  cases op with
  | construct id capacity =>
      simp only
      split
      next map missing made =>
        obtain ⟨ok, empty, usable⟩ := Map.construct_ok allowed made
        have describes : Describes w.memory map.entries (fun _ => none) := by
          rw [empty]
          exact fun text value => iff_of_false nofun fun ⟨_, member, _⟩ => nomatch member
        exact inv.put rfl ok describes (fun zero => absurd zero usable)
          fun other apart => Function.update_of_ne apart _ _
      · exact inv
  | insert id key value =>
      simp only
      split
      next map present =>
        obtain ⟨content, found, stands⟩ := inv.stands id map present
        refine inv.finish (fun _ => rfl) stands (Function.update content (w.memory key) (some value))
          fun later done => ?_
        obtain ⟨ok, usable, describes⟩ := insert stands done
        exact ⟨by simp only [Spec.step, found], ok, fun zero => absurd zero usable, describes⟩
      · exact inv
  | read id key =>
      simp only
      split
      next map present =>
        obtain ⟨content, found, stands⟩ := inv.stands id map present
        refine inv.finish (fun _ => rfl) stands (Function.update content (w.memory key)
          (some ((content (w.memory key)).getD default))) fun later done => ?_
        obtain ⟨ok, usable, describes⟩ := index stands done
        have value : later.deref? w.memory key = some ((content (w.memory key)).getD default) :=
          (ok.lookup usable describes).trans (Function.update_self ..)
        refine ⟨?_, ok, fun zero => absurd zero usable, describes⟩
        simp only [Spec.step, found, value]
      · exact inv
  | assign id key value =>
      simp only
      split
      next map present =>
        obtain ⟨content, found, stands⟩ := inv.stands id map present
        refine inv.finish (fun _ => rfl) stands (Function.update content (w.memory key) (some value))
          fun later done => ?_
        obtain ⟨indexed, made, rfl⟩ := Option.map_eq_some_iff.mp done
        obtain ⟨ok, usable, describes⟩ := index stands made
        have bound : w.Stands id indexed (Function.update content (w.memory key)
            (some ((content (w.memory key)).getD default))) :=
          ⟨ok, describes, fun zero => absurd zero usable⟩
        obtain ⟨after, holds⟩ := assign bound usable value (by rw [Function.update_self]; exact nofun)
        rw [Function.update_idem] at holds
        exact ⟨by simp only [Spec.step, found], after, fun zero => absurd zero usable, holds⟩
      · exact inv
  | erase id key =>
      simp only
      split
      next map present =>
        obtain ⟨content, found, stands⟩ := inv.stands id map present
        obtain ⟨ok, entries⟩ := stands.ok.erase key
        refine inv.edit (fun _ => rfl) stands (Function.update content (w.memory key) none)
          (by simp only [Spec.step, found]) ok ?_ ?_
        · rw [entries]
          exact stands.describes.erase
        · exact fun zero => (Map.erase_capacity w.memory map key).symm.trans zero
      · exact inv
  | find id key =>
      simp only
      split
      next map present =>
        obtain ⟨content, found, stands⟩ := inv.stands id map present
        rw [stands.ok.find stands.describes]
        exact inv.edit (fun _ => rfl) stands content (by simp only [Spec.step, found]) stands.ok
          stands.describes fun zero => zero
      · exact inv
  | contains id key =>
      simp only
      split
      next map present =>
        obtain ⟨content, found, stands⟩ := inv.stands id map present
        rw [stands.ok.contains stands.describes]
        exact inv.edit (fun _ => rfl) stands content (by simp only [Spec.step, found]) stands.ok
          stands.describes fun zero => zero
      · exact inv
  | clear id =>
      simp only
      split
      next map present =>
        obtain ⟨content, found, stands⟩ := inv.stands id map present
        obtain ⟨ok, entries⟩ := stands.ok.clear
        refine inv.edit (fun _ => rfl) stands (fun _ => none) (by simp only [Spec.step, found]) ok ?_
          fun zero => zero
        rw [entries]
        exact fun text value => iff_of_false nofun fun ⟨_, member, _⟩ => nomatch member
      · exact inv
  | reserve id newCapacity =>
      simp only
      split
      next map present =>
        obtain ⟨content, found, stands⟩ := inv.stands id map present
        refine inv.finish (fun _ => rfl) stands content fun later done => ?_
        obtain ⟨ok, perm, _, usable⟩ := stands.ok.reserve (Nat.le_trans allowed (by decide)) done
        refine ⟨by simp only [Spec.step, found], ok, fun zero => ?_, stands.describes.perm perm⟩
        exact Classical.byContradiction fun nonzero => usable nonzero zero
      · exact inv
  | moveConstruct target source =>
      simp only
      split
      next map missing present =>
        have apart : target ≠ source := fun same => by
          rw [same, present] at missing
          cases missing
        refine inv.move present (fun content found => by simp only [Spec.step, found]) ?_
        simp only [Call.vacate, if_neg apart]
      · exact inv
  | moveAssign target source =>
      simp only
      split
      next own map here present =>
        split
        next same =>
          obtain ⟨content, found, stands⟩ := inv.stands target own here
          have stays : (Call.moveAssign target source : Call V).Stays := fun vacated => by
            simp only [Call.vacate, if_pos same]
          refine inv.edit stays stands content ?_ stands.ok stands.describes fun zero => zero
          rw [Spec.step, ← same, found]
          exact if_pos rfl
        next apart =>
          refine inv.move present (fun content found => ?_) ?_
          · simp only [Spec.step, found, if_neg apart]
          · simp only [Call.vacate, if_neg apart]
      · exact inv
  | write key text => exact inv.write text allowed

end Inv

/-- Every call of a run is allowed when it is made. -/
def Fair : World V → List (Op V × Heap) → Prop
  | _, [] => True
  | w, event :: events => Allowed w event.1 ∧ Fair (w.step event) events

theorem Inv.run {w : World V} (inv : Inv w) (events : List (Op V × Heap)) (fair : Fair w events) :
    Inv (w.run events) := by
  induction events generalizing w with
  | nil => exact inv
  | cons event events ih => exact ih (inv.step event fair.1) fair.2

end World

/-! ## What holds of every map -/

/-- One map in itself. -/
structure Map.Sound (memory : Memory) (map : Map V) : Prop where
  /-- Each content is in one node, -/
  distinct : Distinct memory map.entries
  /-- in the bucket of its hash. -/
  placed : ∀ bucket < map.capacity, ∀ node ∈ map.buckets bucket,
    bucket = (hashFunc (memory node.key)).toNat &&& (map.capacity - 1)
  counted : map.size = map.entries.length
  load : 4 * map.size ≤ 3 * map.capacity
  /-- An update keeps the count, an insert of an absent key raises it by one; the
  other entries stay as they are. -/
  inserted : ∀ heap key value later, map.insert memory heap key value = some later →
    later.size = (if map.contains memory key then map.size else map.size + 1) ∧
      (later.entries.filter fun node => !same memory key node).Perm
        (map.entries.filter fun node => !same memory key node)
  /-- A rehash only reorders. -/
  rehashed : ∀ heap newCapacity later, map.capacity ≤ newCapacity → newCapacity ≤ 2 ^ 60 →
    map.rehashTo memory heap newCapacity = some later → later.entries.Perm map.entries
  /-- `begin()` to `end()` visits each entry once. -/
  walk : ∀ n, (map.next^[n] map.first).chain.head? = map.entries[n]?

theorem Map.Ok.sound {map : Map V} (ok : map.Ok memory) {content : Content V}
    (describes : Describes memory map.entries content) : map.Sound memory where
  distinct := ok.distinct
  placed := fun bucket inside node member => by
    have own := ok.placed bucket inside node member
    cases ok.power with
    | inl zero => exact absurd inside (by rw [zero]; exact Nat.not_lt_zero bucket)
    | inr power =>
        obtain ⟨k, power⟩ := power
        rw [power, ← indexIn_power, ← power]
        exact own.symm
  counted := ok.size
  load := by
    have load := ok.load
    rw [loadLimit] at load
    omega
  inserted := fun heap key value later done => by
    rw [ok.contains describes]
    cases ok.upsert done with
    | inl hit =>
        obtain ⟨⟨node, member, own⟩, usable, updated⟩ := hit
        have present : (content (memory key)).isSome = true := by
          rw [(describes _ node.value).mpr ⟨node, member, own, rfl⟩]
          rfl
        rw [if_pos present, updated]
        refine ⟨rfl, ?_⟩
        have unseen : ((fun node : Node V => !same memory key node) ∘ fun node : Node V =>
            if same memory key node then { node with value } else node) =
              fun node => !same memory key node := by
          funext node
          simp only [Function.comp_apply]
          split <;> rfl
        have kept : ∀ node ∈ map.entries.filter fun node => !same memory key node,
            (if same memory key node then { node with value } else node) = node := by
          intro node member
          have other := (List.mem_filter.mp member).2
          rw [Bool.not_eq_true'] at other
          rw [other]
          rfl
        rw [ok.assign_entries usable, List.filter_map, unseen, List.map_congr_left kept, List.map_id']
    | inr miss =>
        obtain ⟨apart, _, perm, size, _⟩ := miss
        have absent : ¬ (content (memory key)).isSome = true := by
          rw [describes.none_iff.mpr apart]
          exact nofun
        rw [if_neg absent]
        have own : same memory key (⟨key, value⟩ : Node V) = true := same_iff.mpr rfl
        have filtered := perm.filter fun node => !same memory key node
        simp only [List.filter_cons, own, Bool.not_true, Bool.false_eq_true, if_false] at filtered
        exact ⟨size, filtered⟩
  rehashed := fun heap newCapacity later wide small done =>
    (ok.rehashTo wide (Nat.le_trans small (by decide)) done).2.1
  walk := walk_visits map.buckets map.capacity

namespace World

variable [Inhabited V]

omit [Inhabited V] in
/-- The call that an operation makes, if the maps are there that it needs. -/
def call? (w : World V) : Op V → Option (Call V)
  | .construct id capacity =>
      if w.maps id = none then some (.construct id capacity) else none
  | .insert id key value => (w.maps id).map fun _ => .insert id (w.memory key) value
  | .read id key => (w.maps id).map fun _ => .read id (w.memory key)
  | .assign id key value => (w.maps id).map fun _ => .assign id (w.memory key) value
  | .erase id key => (w.maps id).map fun _ => .erase id (w.memory key)
  | .find id key => (w.maps id).map fun _ => .find id (w.memory key)
  | .contains id key => (w.maps id).map fun _ => .contains id (w.memory key)
  | .clear id => (w.maps id).map fun _ => .clear id
  | .reserve id newCapacity => (w.maps id).map fun _ => .reserve id newCapacity
  | .moveConstruct target source =>
      if w.maps target = none then (w.maps source).map fun _ => .moveConstruct target source else none
  | .moveAssign target source =>
      if w.maps target = none then none else (w.maps source).map fun _ => .moveAssign target source
  | .write _ _ => none

/-- The heap grants what the operation asks it for. -/
def Granted (w : World V) (heap : Heap) : Op V → Prop
  | .construct _ capacity => heap.array (nextPowerOfTwo capacity) = true
  | .insert id key _ | .read id key | .assign id key _ =>
      ∀ map, w.maps id = some map → map.Granted w.memory heap key
  | .reserve id newCapacity => ∀ map, w.maps id = some map → map.capacity < newCapacity →
      heap.array (nextPowerOfTwo newCapacity) = true
  | _ => True

omit [Inhabited V] in
theorem put_returns {w : World V} (going : w.ended = false) (id : Nat) (map : Map V) (call : Call V)
    (answer : Answer V) :
    (w.put id map call answer).ended = false ∧ (w.put id map call answer).calls = w.calls ++ [call] :=
  ⟨going, Inv.calls_put⟩

omit [Inhabited V] in
theorem finish_returns {w : World V} (going : w.ended = false) {result : Option (Map V)}
    (served : ∃ map, result = some map) (id : Nat) (call : Call V) (reply : Map V → Answer V) :
    (w.finish id result call reply).ended = false ∧
      (w.finish id result call reply).calls = w.calls ++ [call] := by
  obtain ⟨map, rfl⟩ := served
  exact put_returns going ..

omit [Inhabited V] in
theorem move_returns {w : World V} (going : w.ended = false) (target source : Nat) (map : Map V)
    (call : Call V) :
    (w.move target source map call).ended = false ∧
      (w.move target source map call).calls = w.calls ++ [call] :=
  ⟨going, by simp [calls, move, put]⟩

theorem Inv.returns {w : World V} (inv : Inv w) (going : w.ended = false) (op : Op V) (heap : Heap)
    (granted : w.Granted heap op) :
    (w.step (op, heap)).ended = false ∧
      (w.step (op, heap)).calls = w.calls ++ (w.call? op).toList := by
  have upserted {id : Nat} {map : Map V} {key : Address} (here : w.maps id = some map)
      (grants : map.Granted w.memory heap key) (present : Map V → Map V) (fresh : V) :
      ∃ later, map.upsert w.memory heap key present fresh = some later := by
    obtain ⟨_, _, stands⟩ := inv.stands id map here
    exact stands.ok.upsert_granted grants present fresh
  unfold World.step
  rw [if_neg (by simp [going])]
  have quiet : w.ended = false ∧ w.calls = w.calls ++ [] := ⟨going, (List.append_nil _).symm⟩
  cases op with
  | construct id capacity =>
      have made : Map.construct heap capacity =
          some (⟨fun _ => [], nextPowerOfTwo capacity, 0⟩ : Map V) := if_pos granted
      cases here : w.maps id with
      | some map => simpa only [call?, here, reduceCtorEq, if_false, Option.toList_none] using quiet
      | none =>
          simp only [call?, here, made, if_true, Option.toList_some]
          exact put_returns going ..
  | insert id key value =>
      cases here : w.maps id with
      | none => simpa only [call?, here, Option.map_none, Option.toList_none] using quiet
      | some map =>
          simp only [call?, here, Option.map_some, Option.toList_some]
          exact finish_returns going (upserted here (granted map here) _ _) ..
  | read id key =>
      cases here : w.maps id with
      | none => simpa only [call?, here, Option.map_none, Option.toList_none] using quiet
      | some map =>
          simp only [call?, here, Option.map_some, Option.toList_some]
          exact finish_returns going (upserted here (granted map here) _ _) ..
  | assign id key value =>
      cases here : w.maps id with
      | none => simpa only [call?, here, Option.map_none, Option.toList_none] using quiet
      | some map =>
          obtain ⟨later, indexed⟩ := upserted here (granted map here) (fun map => map) default
          have served : map.index w.memory heap key = some later := indexed
          simp only [call?, here, Option.map_some, Option.toList_some]
          exact finish_returns going ⟨_, congrArg (Option.map _) served⟩ ..
  | reserve id newCapacity =>
      cases here : w.maps id with
      | none => simpa only [call?, here, Option.map_none, Option.toList_none] using quiet
      | some map =>
          simp only [call?, here, Option.map_some, Option.toList_some]
          refine finish_returns going ?_ ..
          unfold Map.reserve
          split
          next grows =>
            simp only [Map.rehashTo, granted map here grows, if_true]
            exact ⟨_, rfl⟩
          · exact ⟨_, rfl⟩
  | erase id key | find id key | contains id key | clear id =>
      cases here : w.maps id with
      | none => simpa only [call?, here, Option.map_none, Option.toList_none] using quiet
      | some map =>
          simp only [call?, here, Option.map_some, Option.toList_some]
          exact put_returns going ..
  | moveConstruct target source =>
      cases there : w.maps target with
      | some own => simpa only [call?, there, reduceCtorEq, if_false, Option.toList_none] using quiet
      | none =>
          cases here : w.maps source with
          | none =>
              simpa only [call?, there, here, if_true, Option.map_none, Option.toList_none] using quiet
          | some map =>
              simp only [call?, there, here, if_true, Option.map_some, Option.toList_some]
              exact move_returns going ..
  | moveAssign target source =>
      cases there : w.maps target with
      | none => simpa only [call?, there, if_true, Option.toList_none] using quiet
      | some own =>
          cases here : w.maps source with
          | none =>
              simpa only [call?, there, here, reduceCtorEq, if_false, Option.map_none,
                Option.toList_none] using quiet
          | some map =>
              simp only [call?, there, here, reduceCtorEq, if_false, Option.map_some,
                Option.toList_some]
              split
              · exact put_returns going ..
              · exact move_returns going ..
  | write key text => exact quiet

/-- A run of calls, against the same calls of finite maps. -/
structure Faithful (w : World V) : Prop where
  /-- A call returns, unless the heap refuses it something. -/
  returns : ∀ op heap, w.ended = false → w.Granted heap op →
    (w.step (op, heap)).ended = false ∧
      (w.step (op, heap)).calls = w.calls ++ (w.call? op).toList
  answers : w.spec.answers = w.trace.map Prod.snd
  contents : ∀ id map, w.maps id = some map →
    ∃ content, w.spec.maps id = some content ∧ Describes w.memory map.entries content
  sound : ∀ id map, w.maps id = some map → map.Sound w.memory
  capacity : ∀ id map, w.maps id = some map →
    (∃ k, map.capacity = 2 ^ k) ∨ map.capacity = 0 ∧ vacated w.calls id = true

/-- Every sequence of allowed calls, on any number of maps. -/
theorem cstr_hash_map_refines (memory : Memory) (events : List (Op V × Heap))
    (fair : Fair (init memory) events) : Faithful ((init memory).run events) := by
  have inv := (Inv.init memory).run events fair
  refine ⟨fun op heap going granted => inv.returns going op heap granted, inv.answers,
    fun id map present => ?_, fun id map present => ?_, fun id map present => ?_⟩
  · obtain ⟨content, found, stands⟩ := inv.stands id map present
    exact ⟨content, found, stands.describes⟩
  · obtain ⟨content, _, stands⟩ := inv.stands id map present
    exact stands.ok.sound stands.describes
  · obtain ⟨_, _, stands⟩ := inv.stands id map present
    cases stands.ok.power with
    | inl zero => exact .inr ⟨zero, stands.vacated zero⟩
    | inr power => exact .inl power

def blank : Text := ⟨[], nofun⟩

/-- A heap that has what the address space has. -/
def ample : Heap := ⟨fun count => 8 * count < 2 ^ 64, true, fun _ granted => of_decide_eq_true granted⟩

theorem cstr_hash_map_refines_one_insert :
    Faithful ((init fun _ => blank : World Nat).run
      [(.construct 0 1, ample), (.insert 0 7 5, ample), (.find 0 8, ample)]) :=
  cstr_hash_map_refines _ _ ⟨Nat.one_le_two_pow, trivial, trivial, trivial⟩

/-- Moved from on its own account. -/
def MovedFrom (w : World V) (id : Nat) : Prop :=
  ∃ target, .moveConstruct target id ∈ w.calls ∨ .moveAssign target id ∈ w.calls

/-- Two maps without buckets that were never moved from: one was given what a
moved-from map held, one was constructed for more than `2 ^ 63` buckets. -/
theorem capacity_zero_unmoved :
    let w : World Nat := (init fun _ => blank).run
      [(.construct 0 64, ample), (.moveConstruct 1 0, ample), (.moveConstruct 2 0, ample),
        (.construct 3 (2 ^ 63 + 1), ample)]
    ∀ id, id = 2 ∨ id = 3 →
      (∃ map, w.maps id = some map ∧ map.capacity = 0) ∧ ¬ w.MovedFrom id := by
  intro w
  have calls : w.calls = [.construct 0 64, .moveConstruct 1 0, .moveConstruct 2 0,
      .construct 3 (2 ^ 63 + 1)] := rfl
  intro id either
  refine ⟨?_, fun moved => ?_⟩
  · cases either with
    | inl given => exact ⟨.vacant, given ▸ rfl, rfl⟩
    | inr wrapped => exact ⟨⟨fun _ => [], 0, 0⟩, wrapped ▸ rfl, rfl⟩
  · obtain ⟨target, moved⟩ := moved
    rw [calls] at moved
    simp only [List.mem_cons, List.not_mem_nil, reduceCtorEq, Call.moveConstruct.injEq,
      false_or, or_false] at moved
    omega

end World

end NetEngine.CstrHashMap
