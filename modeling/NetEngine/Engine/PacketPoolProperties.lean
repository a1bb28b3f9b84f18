import Mathlib.Data.List.Nodup
import NetEngine.Engine.PacketPool

/-! The packet pool over any history of its callers: the free list of a bucket
and the blocks its callers hold are the blocks of the bucket, and no two blocks
of the region overlap. -/

set_option autoImplicit false

namespace NetEngine.PacketPool

open Memory

/-! ## The region -/

/-- The part of a bucket that never changes. -/
structure Shape where
  blockSize : Nat
  capacity : Nat
  regionBegin : Nat
  regionEnd : Nat

def Bucket.shape (b : Bucket) : Shape := ⟨b.blockSize, b.capacity, b.regionBegin, b.regionEnd⟩

def Shape.blocks (shape : Shape) : List Nat :=
  (List.range shape.capacity).map fun idx => shape.regionBegin + idx * shape.blockSize

def Mapping.shape (mapping : Mapping) (id : BucketId) : Shape :=
  (initBuckets mapping.region id).shape

def Mapping.blocks (mapping : Mapping) (id : BucketId) : List Nat := (mapping.shape id).blocks

section Region

variable {mapping : Mapping} {first second : BucketId} {p q : Nat}

theorem Shape.mem_blocks {shape : Shape} :
    p ∈ shape.blocks ↔
      ∃ idx, idx < shape.capacity ∧ shape.regionBegin + idx * shape.blockSize = p := by
  simp [Shape.blocks]

theorem bucketBytes_eq : bucketBytes bucketSize64 prewarm64 = prewarm64 * bucketSize64 ∧
    bucketBytes bucketSize256 prewarm256 = prewarm256 * bucketSize256 ∧
    bucketBytes bucketSize1024 prewarm1024 = prewarm1024 * bucketSize1024 := by
  decide

/-- The whole buckets fill their parts of the region, one after the other. -/
theorem Mapping.layout (mapping : Mapping) (id : BucketId) :
    (mapping.shape id).regionEnd =
        (mapping.shape id).regionBegin + (mapping.shape id).capacity * (mapping.shape id).blockSize ∧
      pointerSize ≤ (mapping.shape id).blockSize ∧
      mapping.region ≤ (mapping.shape id).regionBegin ∧
      (mapping.shape id).regionEnd ≤ mapping.region + regionSize := by
  obtain ⟨small, middle, large⟩ := bucketBytes_eq
  simp only [Mapping.shape, initBuckets, Bucket.shape, regionSize]
  match id with
  | 0 =>
      have room : pointerSize ≤ bucketSize64 := by decide
      exact ⟨by rw [small], room, Nat.le_refl _, by simp only; omega⟩
  | 1 =>
      have room : pointerSize ≤ bucketSize256 := by decide
      exact ⟨by rw [middle], room, by simp only; omega, by simp only; omega⟩
  | 2 =>
      have room : pointerSize ≤ bucketSize1024 := by decide
      exact ⟨by rw [large], room, by simp only; omega, by simp only; omega⟩

theorem Mapping.ordered (mapping : Mapping) (before : first < second) :
    (mapping.shape first).regionEnd ≤ (mapping.shape second).regionBegin := by
  simp only [Mapping.shape, initBuckets, Bucket.shape]
  match first, second, before with
  | 0, 1, _ => exact Nat.le_refl _
  | 0, 2, _ => exact Nat.le_add_right _ _
  | 1, 2, _ => exact Nat.le_refl _
  | 0, 0, wrong | 1, 0, wrong | 1, 1, wrong | 2, 0, wrong | 2, 1, wrong | 2, 2, wrong =>
      exact absurd wrong (by decide)

theorem Mapping.inside (member : p ∈ mapping.blocks first) :
    (mapping.shape first).regionBegin ≤ p ∧
      p + (mapping.shape first).blockSize ≤ (mapping.shape first).regionEnd := by
  obtain ⟨idx, within, rfl⟩ := Shape.mem_blocks.mp member
  obtain ⟨ends, _⟩ := mapping.layout first
  have room := Nat.mul_le_mul_right (mapping.shape first).blockSize (Nat.succ_le_of_lt within)
  rw [Nat.succ_mul] at room
  exact ⟨Nat.le_add_right _ _, by omega⟩

theorem Mapping.bounds (member : p ∈ mapping.blocks first) : p ≠ 0 ∧ p < 256 ^ pointerSize := by
  obtain ⟨lower, upper⟩ := Mapping.inside member
  obtain ⟨_, room, above, below⟩ := mapping.layout first
  have positive := mapping.nonnull
  have fits := mapping.fits
  simp only [pointerSize] at room ⊢
  omega

/-- Two blocks of the region, of the same bucket or not, do not overlap. -/
theorem Mapping.apart (firstMember : p ∈ mapping.blocks first)
    (secondMember : q ∈ mapping.blocks second) (different : p ≠ q) :
    p + (mapping.shape first).blockSize ≤ q ∨ q + (mapping.shape second).blockSize ≤ p := by
  obtain ⟨firstLower, firstUpper⟩ := Mapping.inside firstMember
  obtain ⟨secondLower, secondUpper⟩ := Mapping.inside secondMember
  rcases lt_trichotomy first second with before | same | after
  · exact .inl (Nat.le_trans firstUpper (Nat.le_trans (mapping.ordered before) secondLower))
  · subst same
    obtain ⟨idx, _, rfl⟩ := Shape.mem_blocks.mp firstMember
    obtain ⟨other, _, rfl⟩ := Shape.mem_blocks.mp secondMember
    cases Nat.lt_or_ge idx other with
    | inl below =>
        have room := Nat.mul_le_mul_right (mapping.shape first).blockSize (Nat.succ_le_of_lt below)
        rw [Nat.succ_mul] at room
        exact .inl (by omega)
    | inr above =>
        have distinct : other ≠ idx := fun same => different (by rw [same])
        have room := Nat.mul_le_mul_right (mapping.shape first).blockSize
          (Nat.succ_le_of_lt (Nat.lt_of_le_of_ne above distinct))
        rw [Nat.succ_mul] at room
        exact .inr (by omega)
  · exact .inr (Nat.le_trans secondUpper (Nat.le_trans (mapping.ordered after) firstLower))

/-- The words at the start of two blocks do not overlap. -/
theorem Mapping.words_apart (firstMember : p ∈ mapping.blocks first)
    (secondMember : q ∈ mapping.blocks second) (different : p ≠ q) :
    p + pointerSize ≤ q ∨ q + pointerSize ≤ p := by
  have firstRoom := (mapping.layout first).2.1
  have secondRoom := (mapping.layout second).2.1
  cases Mapping.apart firstMember secondMember different with
  | inl before => exact .inl (by omega)
  | inr after => exact .inr (by omega)

theorem Mapping.class_unique (firstMember : p ∈ mapping.blocks first)
    (secondMember : p ∈ mapping.blocks second) : first = second := by
  obtain ⟨firstLower, firstUpper⟩ := Mapping.inside firstMember
  obtain ⟨secondLower, secondUpper⟩ := Mapping.inside secondMember
  have firstRoom := (mapping.layout first).2.1
  have secondRoom := (mapping.layout second).2.1
  simp only [pointerSize] at firstRoom secondRoom
  rcases lt_trichotomy first second with before | same | after
  · have order := mapping.ordered before
    omega
  · exact same
  · have order := mapping.ordered after
    omega

theorem Mapping.blocks_nodup (mapping : Mapping) (id : BucketId) : (mapping.blocks id).Nodup := by
  have room := (mapping.layout id).2.1
  refine List.nodup_range.map fun idx other same => ?_
  have scaled : idx * (mapping.shape id).blockSize = other * (mapping.shape id).blockSize :=
    Nat.add_left_cancel same
  exact Nat.eq_of_mul_eq_mul_right (Nat.lt_of_lt_of_le (by decide) room) scaled

theorem bucketFor_fits {size : Nat} {id : BucketId} (found : bucketFor size = some id) :
    size ≤ (mapping.shape id).blockSize := by
  simp only [bucketFor] at found
  split at found
  next small =>
    cases found
    exact small
  · split at found
    next middle =>
      cases found
      exact middle
    · split at found
      next large =>
        cases found
        exact large
      · cases found

theorem bucketFor_some {size : Nat} (small : size ≤ bucketSize1024) :
    ∃ id, bucketFor size = some id := by
  simp only [bucketFor, if_pos small]
  split
  · exact ⟨0, rfl⟩
  · split
    · exact ⟨1, rfl⟩
    · exact ⟨2, rfl⟩

end Region

/-! ## Free lists -/

/-- The free lists of all buckets, in one memory. -/
def Pool.Lists (pool : Pool) (lists : BucketId → List Nat) : Prop :=
  ∀ id, Chain pointerSize pool.memory (pool.buckets id).freeList (lists id)

/-- The buckets have the shapes that `init_buckets` gave them. -/
def Pool.Shaped (mapping : Mapping) (pool : Pool) : Prop :=
  ∀ id, (pool.buckets id).shape = mapping.shape id

section Lists

variable {mapping : Mapping} {pool : Pool} {lists : BucketId → List Nat} {id : BucketId}
  {block : Nat}

theorem Pool.push_shaped (shaped : pool.Shaped mapping) : (pool.push id block).Shaped mapping := by
  intro other
  cases decEq other id with
  | isTrue same =>
      rw [← shaped other, same]
      simp [Pool.push, Bucket.shape]
  | isFalse apart =>
      rw [← shaped other]
      simp [Pool.push, apart]

@[simp] theorem Pool.push_inUse (other : BucketId) :
    ((pool.push id block).buckets other).inUse = (pool.buckets other).inUse := by
  cases decEq other id with
  | isTrue same =>
      rw [same]
      simp [Pool.push]
  | isFalse apart => simp [Pool.push, apart]

/-- A block that is on no list becomes the head of one, and the others stay. -/
theorem Pool.Lists.push (chains : pool.Lists lists)
    (blocks : ∀ id, ∀ p ∈ lists id, p ∈ mapping.blocks id) (member : block ∈ mapping.blocks id)
    (fresh : block ∉ lists id) :
    (pool.push id block).Lists (Function.update lists id (block :: lists id)) := by
  have apart : ∀ other, ∀ p ∈ lists other, p + pointerSize ≤ block ∨ block + pointerSize ≤ p := by
    intro other p listed
    refine Mapping.words_apart (blocks other p listed) member fun same => ?_
    rw [same] at listed
    have own := Mapping.class_unique (blocks other block listed) member
    exact fresh (own ▸ listed)
  intro other
  cases decEq other id with
  | isTrue same =>
      rw [same]
      have bounded : (pool.buckets id).freeList < 256 ^ pointerSize := by
        cases (chains id).head_cases with
        | inl null =>
            rw [null.1]
            decide
        | inr cell =>
            obtain ⟨_, rest, listed, _⟩ := cell
            exact (Mapping.bounds (blocks id _ (listed ▸ List.mem_cons_self))).2
      have pushed := (chains id).push (Mapping.bounds member).1 bounded (apart id)
      simpa [Pool.push] using pushed
  | isFalse different =>
      have kept := (chains other).congr fun p listed =>
        @read_write_apart pointerSize pool.memory block p (pool.buckets id).freeList
          (apart other p listed)
      simpa [Pool.push, different] using kept

theorem Pool.fill_lists (count : Nat) (few : count ≤ (mapping.shape id).capacity)
    (shaped : pool.Shaped mapping) (chains : pool.Lists lists)
    (blocks : ∀ id, ∀ p ∈ lists id, p ∈ mapping.blocks id)
    (later : ∀ idx, idx < count →
      (mapping.shape id).regionBegin + idx * (mapping.shape id).blockSize ∉ lists id) :
    (pool.fill id count).Shaped mapping ∧ (∀ other, ((pool.fill id count).buckets other).inUse =
        (pool.buckets other).inUse) ∧
      (pool.fill id count).Lists (Function.update lists id
        (((List.range count).map fun idx =>
          (mapping.shape id).regionBegin + idx * (mapping.shape id).blockSize) ++ lists id)) := by
  induction count generalizing pool lists with
  | zero => exact ⟨shaped, fun _ => rfl, by simpa [Pool.fill] using chains⟩
  | succ idx ih =>
      generalize block_eq :
        (mapping.shape id).regionBegin + idx * (mapping.shape id).blockSize = block
      have here : (pool.buckets id).regionBegin + idx * (pool.buckets id).blockSize = block := by
        rw [← block_eq, ← shaped id]
        rfl
      have member : block ∈ mapping.blocks id := Shape.mem_blocks.mpr ⟨idx, few, block_eq⟩
      have fresh : block ∉ lists id := block_eq ▸ later idx (Nat.lt_succ_self idx)
      have pushed := chains.push blocks member fresh
      have inside : ∀ other, ∀ p ∈ Function.update lists id (block :: lists id) other,
          p ∈ mapping.blocks other := by
        intro other p listed
        cases decEq other id with
        | isTrue same =>
            subst same
            rw [Function.update_self] at listed
            cases List.mem_cons.mp listed with
            | inl own => exact own ▸ member
            | inr rest => exact blocks other p rest
        | isFalse apart =>
            rw [Function.update_of_ne apart] at listed
            exact blocks other p listed
      have ahead : ∀ other, other < idx →
          (mapping.shape id).regionBegin + other * (mapping.shape id).blockSize ∉
            Function.update lists id (block :: lists id) id := by
        intro other below listed
        rw [Function.update_self] at listed
        cases List.mem_cons.mp listed with
        | inl own =>
            have room := (mapping.layout id).2.1
            rw [← block_eq] at own
            have scaled := Nat.add_left_cancel own
            have same := Nat.eq_of_mul_eq_mul_right (Nat.lt_of_lt_of_le (by decide) room) scaled
            exact absurd same (Nat.ne_of_lt below)
        | inr rest => exact later other (Nat.lt_succ_of_lt below) rest
      obtain ⟨laterShaped, used, filled⟩ := ih (Nat.le_of_succ_le few) (Pool.push_shaped shaped)
        pushed inside ahead
      rw [Pool.fill, here]
      refine ⟨laterShaped, fun other => (used other).trans (Pool.push_inUse other), ?_⟩
      rw [Function.update_self, Function.update_idem] at filled
      simpa [List.range_succ, block_eq] using filled

end Lists

/-- The outer loop of `prewarm`. -/
theorem Pool.fill_all {mapping : Mapping} (ids : List BucketId) (nodup : ids.Nodup) {pool : Pool}
    {lists : BucketId → List Nat} (shaped : pool.Shaped mapping) (chains : pool.Lists lists)
    (blocks : ∀ id, ∀ p ∈ lists id, p ∈ mapping.blocks id) (empty : ∀ id ∈ ids, lists id = []) :
    ∃ filled : BucketId → List Nat,
      (ids.foldl (fun pool id => pool.fill id (pool.buckets id).capacity) pool).Lists filled ∧
      (ids.foldl (fun pool id => pool.fill id (pool.buckets id).capacity) pool).Shaped mapping ∧
      (∀ id, ((ids.foldl (fun pool id => pool.fill id (pool.buckets id).capacity) pool).buckets
        id).inUse = (pool.buckets id).inUse) ∧
      (∀ id ∈ ids, filled id = mapping.blocks id) ∧ ∀ id, id ∉ ids → filled id = lists id := by
  induction ids generalizing pool lists with
  | nil => exact ⟨lists, chains, shaped, fun _ => rfl, by simp, fun _ _ => rfl⟩
  | cons id ids ih =>
      obtain ⟨fresh, nodup⟩ := List.nodup_cons.mp nodup
      have capacity : (pool.buckets id).capacity = (mapping.shape id).capacity :=
        congrArg Shape.capacity (shaped id)
      have none : lists id = [] := empty id List.mem_cons_self
      obtain ⟨nextShaped, nextUsed, nextChains⟩ := Pool.fill_lists (mapping.shape id).capacity
        (Nat.le_refl _) shaped chains blocks (by simp [none])
      rw [none, List.append_nil] at nextChains
      change Pool.Lists _ (Function.update lists id (mapping.blocks id)) at nextChains
      have inside : ∀ other, ∀ p ∈ Function.update lists id (mapping.blocks id) other,
          p ∈ mapping.blocks other := by
        intro other p listed
        cases decEq other id with
        | isTrue same =>
            subst same
            rwa [Function.update_self] at listed
        | isFalse apart =>
            rw [Function.update_of_ne apart] at listed
            exact blocks other p listed
      have rest : ∀ other ∈ ids, Function.update lists id (mapping.blocks id) other = [] := by
        intro other member
        have apart : other ≠ id := fun same => fresh (same ▸ member)
        rw [Function.update_of_ne apart]
        exact empty other (List.mem_cons_of_mem id member)
      obtain ⟨filled, lastChains, lastShaped, lastUsed, full, kept⟩ :=
        ih nodup nextShaped nextChains inside rest
      rw [← capacity] at lastChains lastShaped lastUsed
      refine ⟨filled, lastChains, lastShaped, fun other => ?_, fun other member => ?_,
        fun other outside => ?_⟩
      · exact (lastUsed other).trans (capacity ▸ nextUsed other)
      · cases List.mem_cons.mp member with
        | inl same => rw [same, kept id fresh, Function.update_self]
        | inr later => exact full other later
      · have apart : other ≠ id := fun same => outside (same ▸ List.mem_cons_self)
        rw [kept other fun member => outside (List.mem_cons_of_mem id member),
          Function.update_of_ne apart]

/-! ## Histories -/

/-- Each free list is a list in memory; with what is held of its bucket it makes
up the blocks of the bucket. -/
structure Sound (mapping : Mapping) (w : World) : Prop where
  prewarmed : w.pool.prewarmed = true
  shaped : w.pool.Shaped mapping
  lists : ∃ lists : BucketId → List Nat, w.pool.Lists lists ∧
    ∀ id, (lists id ++ w.outstanding id).Perm (mapping.blocks id)
  inUse : ∀ id, (w.pool.buckets id).inUse = (w.outstanding id).length

section Histories

variable {mapping : Mapping} {w : World} {id : BucketId} {p : Nat}

theorem prewarm_sound (mapping : Mapping) :
    Sound mapping ⟨(Pool.init mapping).prewarm, fun _ => [], false⟩ := by
  have shaped : (Pool.init mapping).Shaped mapping := fun _ => rfl
  have unused : ∀ id, ((Pool.init mapping).buckets id).inUse = 0 ∧
      ((Pool.init mapping).buckets id).freeList = 0 := by
    intro id
    match id with
    | 0 | 1 | 2 => exact ⟨rfl, rfl⟩
  have chains : (Pool.init mapping).Lists fun _ => [] := by
    intro id
    rw [(unused id).2]
    exact .nil
  obtain ⟨lists, lastChains, lastShaped, used, full, _⟩ := Pool.fill_all (List.finRange 3)
    (List.nodup_finRange 3) shaped chains (fun _ _ => nofun) fun _ _ => rfl
  have same : (Pool.init mapping).prewarm = { (List.finRange 3).foldl
      (fun pool id => pool.fill id (pool.buckets id).capacity) (Pool.init mapping) with
      prewarmed := true } := if_neg Bool.false_ne_true
  rw [same]
  generalize List.foldl _ (Pool.init mapping) (List.finRange 3) = pool at lastChains lastShaped used
  refine ⟨rfl, lastShaped, ⟨lists, lastChains, fun id => ?_⟩, fun id => ?_⟩
  · rw [full id (List.mem_finRange id), List.append_nil]
  · exact (used id).trans (unused id).1

theorem Sound.held (sound : Sound mapping w) (member : p ∈ w.outstanding id) :
    p ∈ mapping.blocks id := by
  obtain ⟨lists, _, whole⟩ := sound.lists
  exact (whole id).subset (List.mem_append_right _ member)

theorem Mapping.nodup {free held : List Nat} (whole : (free ++ held).Perm (mapping.blocks id)) :
    (free ++ held).Nodup :=
  whole.nodup_iff.mpr (mapping.blocks_nodup id)

/-- What a caller writes into a block that it holds, no free list reads. -/
theorem Sound.write (sound : Sound mapping w) {offset : Nat} (byte : UInt8)
    (member : p ∈ w.outstanding id) (inside : offset < (w.pool.buckets id).blockSize) :
    Sound mapping { w with
      pool := { w.pool with memory := Function.update w.pool.memory (p + offset) byte } } := by
  obtain ⟨lists, chains, whole⟩ := sound.lists
  refine ⟨sound.prewarmed, sound.shaped, ⟨lists, fun other => ?_, whole⟩, sound.inUse⟩
  refine (chains other).congr fun cell listed => read_congr fun step within => ?_
  have cellMember := (whole other).subset (List.mem_append_left _ listed)
  have different : cell ≠ p := by
    intro same
    rw [same] at listed cellMember
    have own := Mapping.class_unique cellMember (sound.held member)
    rw [own] at listed
    exact List.disjoint_of_nodup_append (Mapping.nodup (whole id)) listed member
  have room := (mapping.layout other).2.1
  have size : (w.pool.buckets id).blockSize = (mapping.shape id).blockSize :=
    congrArg Shape.blockSize (sound.shaped id)
  have away : cell + step ≠ p + offset := by
    cases Mapping.apart cellMember (sound.held member) different with
    | inl before => omega
    | inr after => omega
  exact Function.update_of_ne away _ _

theorem Sound.acquire_cases (sound : Sound mapping w) {size : Nat} (found : bucketFor size = some id) :
    ((w.outstanding id).length = (mapping.shape id).capacity ∧
        w.pool.acquire size = .error w.pool) ∨
      ∃ node pool, w.pool.acquire size = .ok (node, pool) ∧ node ∈ mapping.blocks id ∧
        (∀ other, node ∉ w.outstanding other) ∧
        (w.outstanding id).length < (mapping.shape id).capacity ∧
        Sound mapping { w with
          pool, outstanding := Function.update w.outstanding id (node :: w.outstanding id) } := by
  obtain ⟨lists, chains, whole⟩ := sound.lists
  have warm : ¬ w.pool.prewarmed = false := by simp [sound.prewarmed]
  have total : (lists id).length + (w.outstanding id).length = (mapping.shape id).capacity := by
    rw [← List.length_append, (whole id).length_eq, Mapping.blocks, Shape.blocks, List.length_map,
      List.length_range]
  cases (chains id).head_cases with
  | inl null =>
      obtain ⟨null, empty⟩ := null
      rw [empty, List.length_nil, Nat.zero_add] at total
      exact .inl ⟨total, by simp only [Pool.acquire, found, if_neg warm, if_pos null]⟩
  | inr cell =>
      obtain ⟨nonnull, rest, listed, chain⟩ := cell
      have split := whole id
      rw [listed, List.cons_append] at split
      have member : (w.pool.buckets id).freeList ∈ mapping.blocks id :=
        split.subset List.mem_cons_self
      refine .inr ⟨(w.pool.buckets id).freeList, { w.pool with
        buckets := Function.update w.pool.buckets id { w.pool.buckets id with
          freeList := read pointerSize w.pool.memory (w.pool.buckets id).freeList
          inUse := (w.pool.buckets id).inUse + 1 } },
        by simp only [Pool.acquire, found, if_neg warm, if_neg nonnull], member,
        fun other held => ?_, ?_, ?_⟩
      · have own := Mapping.class_unique (sound.held held) member
        rw [own] at held
        have nodup := Mapping.nodup (whole id)
        rw [listed] at nodup
        exact List.disjoint_of_nodup_append nodup List.mem_cons_self held
      · rw [listed, List.length_cons] at total
        omega
      · refine ⟨sound.prewarmed, fun other => ?_, ⟨Function.update lists id rest, fun other => ?_,
          fun other => ?_⟩, fun other => ?_⟩
        · rw [← sound.shaped other]
          cases decEq other id with
          | isTrue same => rw [same]; simp [Bucket.shape]
          | isFalse apart => simp [apart]
        · cases decEq other id with
          | isTrue same => rw [same]; simpa using chain
          | isFalse apart => simpa [apart] using chains other
        · cases decEq other id with
          | isTrue same =>
              rw [same]
              simpa using List.perm_middle.trans split
          | isFalse apart => simpa [apart] using whole other
        · cases decEq other id with
          | isTrue same => rw [same]; simp [sound.inUse id]
          | isFalse apart => simpa [apart] using sound.inUse other

theorem Sound.release_other (sound : Sound mapping w) {size : Nat} (member : p ∈ w.outstanding id)
    (other : bucketFor size ≠ some id) : w.pool.release p size = .error w.pool := by
  have block := sound.held member
  unfold Pool.release
  rw [if_neg (Mapping.bounds block).1]
  cases found : bucketFor size with
  | none => rfl
  | some wrong =>
      have outside : ¬ ((w.pool.buckets wrong).regionBegin ≤ p ∧
          p < (w.pool.buckets wrong).regionEnd) := by
        have begins : (w.pool.buckets wrong).regionBegin = (mapping.shape wrong).regionBegin :=
          congrArg Shape.regionBegin (sound.shaped wrong)
        have ends : (w.pool.buckets wrong).regionEnd = (mapping.shape wrong).regionEnd :=
          congrArg Shape.regionEnd (sound.shaped wrong)
        obtain ⟨lower, upper⟩ := Mapping.inside block
        have room := (mapping.layout id).2.1
        simp only [pointerSize] at room
        rw [begins, ends]
        rcases lt_trichotomy wrong id with before | same | after
        · have order := mapping.ordered before
          omega
        · exact absurd (same ▸ found) other
        · have order := mapping.ordered after
          omega
      exact if_pos outside

theorem Sound.release_own (sound : Sound mapping w) {size : Nat} (member : p ∈ w.outstanding id)
    (found : bucketFor size = some id) :
    ∃ pool, w.pool.release p size = .ok pool ∧
      Sound mapping { w with pool, outstanding := fun id => (w.outstanding id).erase p } := by
  obtain ⟨lists, chains, whole⟩ := sound.lists
  have block := sound.held member
  have begins : (w.pool.buckets id).regionBegin = (mapping.shape id).regionBegin :=
    congrArg Shape.regionBegin (sound.shaped id)
  have ends : (w.pool.buckets id).regionEnd = (mapping.shape id).regionEnd :=
    congrArg Shape.regionEnd (sound.shaped id)
  have inside : ¬ ¬ ((w.pool.buckets id).regionBegin ≤ p ∧ p < (w.pool.buckets id).regionEnd) := by
    obtain ⟨lower, upper⟩ := Mapping.inside block
    have room := (mapping.layout id).2.1
    simp only [pointerSize] at room
    rw [begins, ends]
    omega
  have used : ¬ (w.pool.buckets id).inUse = 0 := by
    rw [sound.inUse id]
    exact Nat.ne_of_gt (List.length_pos_of_mem member)
  have fresh : p ∉ lists id := fun listed =>
    List.disjoint_of_nodup_append (Mapping.nodup (whole id)) listed member
  have pushed := chains.push (fun other q listed => (whole other).subset
    (List.mem_append_left _ listed)) block fresh
  have shaped : (w.pool.push id p).Shaped mapping := Pool.push_shaped sound.shaped
  have unused : ∀ other, other ≠ id → (w.outstanding other).erase p = w.outstanding other :=
    fun other apart => List.erase_of_not_mem fun held =>
      apart (Mapping.class_unique (sound.held held) block)
  refine ⟨{ w.pool.push id p with
      buckets := Function.update (w.pool.push id p).buckets id
        { (w.pool.push id p).buckets id with inUse := (w.pool.buckets id).inUse - 1 } },
    by simp only [Pool.release, if_neg (Mapping.bounds block).1, found, if_neg inside, if_neg used],
    sound.prewarmed, fun other => ?_,
    ⟨Function.update lists id (p :: lists id), fun other => ?_, fun other => ?_⟩, fun other => ?_⟩
  · rw [← shaped other]
    cases decEq other id with
    | isTrue same => rw [same]; simp [Bucket.shape]
    | isFalse apart => simp [apart]
  · have chain := pushed other
    cases decEq other id with
    | isTrue same =>
        rw [same] at chain ⊢
        simpa using chain
    | isFalse apart => simpa [apart] using chain
  · cases decEq other id with
    | isTrue same =>
        rw [same, Function.update_self]
        exact (List.perm_middle.symm.trans ((List.perm_cons_erase member).symm.append_left _)).trans
          (whole id)
    | isFalse apart =>
        rw [Function.update_of_ne apart]
        simpa [unused other apart] using whole other
  · cases decEq other id with
    | isTrue same =>
        rw [same]
        simp [List.length_erase_of_mem member, sound.inUse id]
    | isFalse apart => simpa [apart, unused other apart] using sound.inUse other

theorem Sound.act (sound : Sound mapping w) (action : Action) : Sound mapping (w.act action) := by
  cases action with
  | prewarm =>
      have same : w.pool.prewarm = w.pool := if_pos sound.prewarmed
      simp only [World.act, same]
      exact sound
  | acquire size =>
      simp only [World.act]
      cases found : bucketFor size with
      | none =>
          have trap : w.pool.acquire size = .error w.pool := by simp only [Pool.acquire, found]
          rw [trap]
          exact ⟨sound.prewarmed, sound.shaped, sound.lists, sound.inUse⟩
      | some id =>
          cases sound.acquire_cases found with
          | inl exhausted =>
              rw [exhausted.2]
              exact ⟨sound.prewarmed, sound.shaped, sound.lists, sound.inUse⟩
          | inr acquired =>
              obtain ⟨node, pool, result, _, _, _, after⟩ := acquired
              rw [result]
              exact after
  | release p size =>
      simp only [World.act]
      split
      next held =>
        obtain ⟨id, member⟩ := held
        by_cases own : bucketFor size = some id
        · obtain ⟨pool, result, after⟩ := sound.release_own member own
          rw [result]
          exact after
        · rw [sound.release_other member own]
          exact ⟨sound.prewarmed, sound.shaped, sound.lists, sound.inUse⟩
      · exact sound
  | write p offset byte =>
      simp only [World.act]
      split
      next held =>
        obtain ⟨id, member, inside⟩ := held
        exact sound.write byte member inside
      · exact sound

/-- The invariant holds from the first `prewarm` on. -/
theorem run_sound (mapping : Mapping) (schedule : List Action) :
    Sound mapping (run mapping (.prewarm :: schedule)) := by
  have keeps : ∀ w action, Sound mapping w → Sound mapping (World.step w action) := by
    intro w action sound
    unfold World.step
    split
    · exact sound
    · exact sound.act action
  have first : World.step ⟨.init mapping, fun _ => [], false⟩ .prewarm =
      ⟨(Pool.init mapping).prewarm, fun _ => [], false⟩ := if_neg Bool.false_ne_true
  rw [run, Machine.run_cons, first]
  exact Machine.run_keeps keeps (prewarm_sound mapping) schedule

end Histories

/-- What the pool does next, and what it has kept. -/
structure Faithful (mapping : Mapping) (w : World) : Prop where
  /-- A free list ends, repeats no block, and holds exactly the blocks that are not held. -/
  free : ∀ id, ∃ cells,
    Chain pointerSize w.pool.memory (w.pool.buckets id).freeList cells ∧ cells.Nodup ∧
    (∀ p, p ∈ cells ↔ p ∈ mapping.blocks id ∧ p ∉ w.outstanding id) ∧
    (w.pool.buckets id).inUse + cells.length = (w.pool.buckets id).capacity
  inUse : ∀ id, (w.pool.buckets id).inUse = (w.outstanding id).length ∧ (w.outstanding id).Nodup
  again : w.pool.prewarm = w.pool
  acquired : ∀ size p pool, w.pool.acquire size = .ok (p, pool) →
    ∃ id, bucketFor size = some id ∧ size ≤ (w.pool.buckets id).blockSize ∧
      (w.pool.buckets id).regionBegin ≤ p ∧
      p + (w.pool.buckets id).blockSize ≤ (w.pool.buckets id).regionEnd ∧
      ∀ other, ∀ q ∈ w.outstanding other, p ≠ q ∧
        (p + (w.pool.buckets id).blockSize ≤ q ∨ q + (w.pool.buckets other).blockSize ≤ p)
  exhausted : ∀ size, size ≤ bucketSize1024 → ((∃ pool, w.pool.acquire size = .error pool) ↔
    ∃ id, bucketFor size = some id ∧ (w.outstanding id).length = (w.pool.buckets id).capacity)
  /-- A release under another size class traps, with the pool as it was. -/
  misfit : ∀ id p size, p ∈ w.outstanding id → bucketFor size ≠ some id →
    w.pool.release p size = .error w.pool
  released : ∀ id p size, p ∈ w.outstanding id → bucketFor size = some id →
    ∃ pool, w.pool.release p size = .ok pool

/-- Every history of callers that release and write only what they hold. -/
theorem packet_pool_faithful (mapping : Mapping) (schedule : List Action) :
    Faithful mapping (run mapping (.prewarm :: schedule)) := by
  have sound := run_sound mapping schedule
  generalize run mapping (.prewarm :: schedule) = w at sound
  have size : ∀ id, (w.pool.buckets id).blockSize = (mapping.shape id).blockSize := fun id =>
    congrArg Shape.blockSize (sound.shaped id)
  have capacity : ∀ id, (w.pool.buckets id).capacity = (mapping.shape id).capacity := fun id =>
    congrArg Shape.capacity (sound.shaped id)
  obtain ⟨lists, chains, whole⟩ := id sound.lists
  refine ⟨fun id => ⟨lists id, chains id, ?_, fun p => ?_, ?_⟩, fun id => ⟨sound.inUse id, ?_⟩,
    if_pos sound.prewarmed, fun request p pool result => ?_, fun request small => ?_,
    fun id p request member other => sound.release_other member other,
    fun id p request member own => ?_⟩
  · exact (List.nodup_append.mp (Mapping.nodup (whole id))).1
  · rw [← (whole id).mem_iff, List.mem_append]
    have apart := List.disjoint_of_nodup_append (Mapping.nodup (whole id))
    constructor
    · exact fun free => ⟨.inl free, fun held => apart free held⟩
    · exact fun either => either.1.resolve_right either.2
  · rw [sound.inUse id, capacity, Nat.add_comm, ← List.length_append, (whole id).length_eq,
      Mapping.blocks, Shape.blocks, List.length_map, List.length_range]
  · exact (List.nodup_append.mp (Mapping.nodup (whole id))).2.1
  · cases found : bucketFor request with
    | none =>
        simp only [Pool.acquire, found] at result
        cases result
    | some id =>
        cases sound.acquire_cases found with
        | inl exhausted =>
            rw [exhausted.2] at result
            cases result
        | inr acquired =>
            obtain ⟨node, later, success, member, fresh, _, _⟩ := acquired
            rw [success] at result
            cases result
            obtain ⟨lower, upper⟩ := Mapping.inside member
            have begins : (w.pool.buckets id).regionBegin = (mapping.shape id).regionBegin :=
              congrArg Shape.regionBegin (sound.shaped id)
            have ends : (w.pool.buckets id).regionEnd = (mapping.shape id).regionEnd :=
              congrArg Shape.regionEnd (sound.shaped id)
            refine ⟨id, rfl, size id ▸ bucketFor_fits found, begins ▸ lower,
              size id ▸ ends ▸ upper, fun other q held => ?_⟩
            have different : p ≠ q := fun same => fresh other (same ▸ held)
            exact ⟨different, size id ▸ size other ▸ Mapping.apart member (sound.held held) different⟩
  · obtain ⟨id, found⟩ := bucketFor_some small
    cases sound.acquire_cases found with
    | inl exhausted =>
        exact ⟨fun _ => ⟨id, found, exhausted.1.trans (capacity id).symm⟩,
          fun _ => ⟨w.pool, exhausted.2⟩⟩
    | inr acquired =>
        obtain ⟨node, later, success, _, _, fewer, _⟩ := acquired
        constructor
        · intro trap
          obtain ⟨pool, trap⟩ := trap
          rw [success] at trap
          cases trap
        · intro full
          obtain ⟨other, otherFound, full⟩ := full
          rw [found] at otherFound
          cases otherFound
          rw [full, capacity] at fewer
          exact absurd fewer (Nat.lt_irrefl _)
  · obtain ⟨pool, success, _⟩ := sound.release_own member own
    exact ⟨pool, success⟩

/-- A region from the second page of the address space on. -/
def lowMapping : Mapping := ⟨4096, by decide, by decide⟩

/-- The first block of the region is handed out, written to and taken back. -/
def oneBlock : List Action := [.acquire 40, .write 4096 3 7, .release 4096 40]

theorem packet_pool_faithful_one_block :
    Faithful lowMapping (run lowMapping (.prewarm :: oneBlock)) ∧
      (run lowMapping (.prewarm :: oneBlock.take 1)).outstanding 0 = [4096] ∧
      (run lowMapping (.prewarm :: oneBlock)).outstanding 0 = [] ∧
      (run lowMapping (.prewarm :: oneBlock)).trapped = false :=
  ⟨packet_pool_faithful lowMapping oneBlock, by decide +kernel, by decide +kernel,
    by decide +kernel⟩

end NetEngine.PacketPool
