import Mathlib.Algebra.Group.Nat.Defs
import Mathlib.Data.Fintype.Basic
import NetEngine.Library.Machine
import NetEngine.Library.Memory

/-! `mem::packet_pool`: three buckets of equal blocks in one mapped region, each
with a free list through the blocks themselves. A failed `LNX_CHECK` is an error
that carries the pool as it was then. -/

set_option autoImplicit false

namespace NetEngine.PacketPool

open Memory

def bucketSize64 : Nat := 64
def bucketSize256 : Nat := 256
def bucketSize1024 : Nat := 1024

def prewarm64 : Nat := 256
def prewarm256 : Nat := 256
def prewarm1024 : Nat := 512

def regionAlign : UInt64 := 16
def regionSlack : Nat := 4096

def alignUp (n align : UInt64) : UInt64 := (n + align - 1) &&& ~~~(align - 1)

/-- The bytes that a bucket takes of the region. -/
def bucketBytes (blockSize capacity : Nat) : Nat :=
  (alignUp (UInt64.ofNat (blockSize * capacity)) regionAlign).toNat

def regionSize : Nat :=
  bucketBytes bucketSize64 prewarm64 + bucketBytes bucketSize256 prewarm256 +
    bucketBytes bucketSize1024 prewarm1024 + regionSlack

/-- The bytes of a `free_node*`. -/
def pointerSize : Nat := 8

structure Bucket where
  blockSize : Nat
  capacity : Nat
  inUse : Nat
  freeList : Nat
  regionBegin : Nat
  regionEnd : Nat

abbrev BucketId := Fin 3

structure Pool where
  memory : Ram
  buckets : BucketId → Bucket
  prewarmed : Bool

/-- What `mmap` returned: a region of the address space, and not at null. -/
structure Mapping where
  region : Nat
  nonnull : 0 < region
  fits : region + regionSize ≤ 2 ^ 64

def initBuckets (region : Nat) : BucketId → Bucket :=
  let first := region + bucketBytes bucketSize64 prewarm64
  let second := first + bucketBytes bucketSize256 prewarm256
  let third := second + bucketBytes bucketSize1024 prewarm1024
  fun
  | 0 => ⟨bucketSize64, prewarm64, 0, 0, region, first⟩
  | 1 => ⟨bucketSize256, prewarm256, 0, 0, first, second⟩
  | 2 => ⟨bucketSize1024, prewarm1024, 0, 0, second, third⟩

def bucketFor (size : Nat) : Option BucketId :=
  if size ≤ bucketSize64 then some 0
  else if size ≤ bucketSize256 then some 1
  else if size ≤ bucketSize1024 then some 2
  else none

namespace Pool

def init (mapping : Mapping) : Pool := ⟨fun _ => 0, initBuckets mapping.region, false⟩

/-- `node->next = b.free_list; b.free_list = node`, for the node at `block`. -/
def push (pool : Pool) (id : BucketId) (block : Nat) : Pool :=
  { pool with
    memory := write pointerSize pool.memory block (pool.buckets id).freeList
    buckets := Function.update pool.buckets id { pool.buckets id with freeList := block } }

/-- The inner loop of `prewarm`, from block `idx - 1` down. -/
def fill (id : BucketId) : Nat → Pool → Pool
  | 0, pool => pool
  | idx + 1, pool =>
      fill id idx (pool.push id
        ((pool.buckets id).regionBegin + idx * (pool.buckets id).blockSize))

def prewarm (pool : Pool) : Pool :=
  if pool.prewarmed then pool
  else
    { (List.finRange 3).foldl (fun pool id => pool.fill id (pool.buckets id).capacity) pool with
      prewarmed := true }

def acquire (pool : Pool) (size : Nat) : Except Pool (Nat × Pool) :=
  match bucketFor size with
  | none => .error pool
  | some id =>
      let b := pool.buckets id
      if pool.prewarmed = false then .error pool
      else if b.freeList = 0 then .error pool
      else
        let node := b.freeList
        .ok (node, { pool with
          buckets := Function.update pool.buckets id
            { b with freeList := read pointerSize pool.memory node, inUse := b.inUse + 1 } })

def release (pool : Pool) (p size : Nat) : Except Pool Pool :=
  if p = 0 then .error pool
  else
    match bucketFor size with
    | none => .error pool
    | some id =>
        let b := pool.buckets id
        if ¬ (b.regionBegin ≤ p ∧ p < b.regionEnd) then .error pool
        else if b.inUse = 0 then .error pool
        else
          let pushed := pool.push id p
          .ok { pushed with
            buckets := Function.update pushed.buckets id
              { pushed.buckets id with inUse := b.inUse - 1 } }

end Pool

/-! ## Callers -/

/-- The pool with what its callers hold: the blocks of each bucket that were
acquired and not released. A trap ends the program. -/
structure World where
  pool : Pool
  outstanding : BucketId → List Nat
  trapped : Bool

inductive Action where
  | prewarm
  | acquire (size : Nat)
  | release (p size : Nat)
  | write (p offset : Nat) (byte : UInt8)

/-- Callers release and write only what they hold. -/
def World.act (w : World) : Action → World
  | .prewarm => { w with pool := w.pool.prewarm }
  | .acquire size =>
      match w.pool.acquire size with
      | .error pool => { w with pool, trapped := true }
      | .ok (p, pool) =>
          match bucketFor size with
          | none => { w with pool }
          | some id =>
              { w with
                pool
                outstanding := Function.update w.outstanding id (p :: w.outstanding id) }
  | .release p size =>
      if ∃ id, p ∈ w.outstanding id then
        match w.pool.release p size with
        | .error pool => { w with pool, trapped := true }
        | .ok pool => { w with pool, outstanding := fun id => (w.outstanding id).erase p }
      else w
  | .write p offset byte =>
      if ∃ id, p ∈ w.outstanding id ∧ offset < (w.pool.buckets id).blockSize then
        { w with pool := { w.pool with memory := Function.update w.pool.memory (p + offset) byte } }
      else w

def World.step (w : World) (action : Action) : World := if w.trapped then w else w.act action

def run (mapping : Mapping) (schedule : List Action) : World :=
  Machine.run World.step ⟨.init mapping, fun _ => [], false⟩ schedule

end NetEngine.PacketPool
