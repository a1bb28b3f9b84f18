import Mathlib.Algebra.Group.Nat.Defs
import NetEngine.Library.Buckets
import NetEngine.Library.Machine

/-! `sds::cstr_hash_map`. A key is an address and stands for the C string that
memory holds there at the time; a chain is a list. A call that needs memory and
gets none ends the program, since nothing catches inside of `noexcept`. -/

set_option autoImplicit false

namespace NetEngine.CstrHashMap

open Buckets

/-- A C string: what stands before its terminator. -/
structure Text where
  bytes : List UInt8
  terminated : 0 ∉ bytes
  deriving DecidableEq

abbrev Address := Nat

abbrev Memory := Address → Text

/-- What `new` answers during one call: for an array of pointers by its length, and
for a node. No array is larger than the address space. -/
structure Heap where
  array : Nat → Bool
  node : Bool
  addressable : ∀ count, array count = true → 8 * count < 2 ^ 64

def nextPowerOfTwo (value : Nat) : Nat :=
  if value ≤ 1 then 1
  else ([1, 2, 4, 8, 16, 32].foldl (fun value shift => value ||| value >>> shift) (value - 1) + 1)
    % 2 ^ 64

/-- The loop of `cstr_cmp`, with zero for the byte behind the end. -/
def cmpBytes : List UInt8 → List UInt8 → Int
  | [], [] => 0
  | [], right :: _ => -right.toNat
  | left :: _, [] => left.toNat
  | left :: lefts, right :: rights =>
      if left = right then cmpBytes lefts rights else left.toNat - right.toNat

def cstrCmp (memory : Memory) (lhs rhs : Address) : Int :=
  if lhs = rhs then 0 else cmpBytes (memory lhs).bytes (memory rhs).bytes

def hashFunc (text : Text) : UInt64 :=
  text.bytes.foldl (fun hash byte => ((hash <<< 5) + hash) + byte.toUInt64) 5381

structure Node (V : Type) where
  key : Address
  value : V

structure Map (V : Type) where
  buckets : Table (Node V)
  capacity : Nat
  size : Nat

/-- `hash & (capacity - 1)`, where no capacity leaves the whole hash. -/
def indexIn (capacity : Nat) (hash : UInt64) : Nat :=
  hash.toNat &&& ((capacity + (2 ^ 64 - 1)) % 2 ^ 64)

namespace Map

variable {V : Type}

/-- Also what a move leaves behind: `buckets_` is null then, and nothing reads it. -/
def vacant : Map V := ⟨fun _ => [], 0, 0⟩

/-- The constructor; `new` throws out of it. -/
def construct (heap : Heap) (capacity : Nat) : Option (Map V) :=
  if heap.array (nextPowerOfTwo capacity) then some ⟨fun _ => [], nextPowerOfTwo capacity, 0⟩
  else none

def entries (map : Map V) : List (Node V) := Buckets.entries map.buckets map.capacity

def bucketIndex (map : Map V) (hash : UInt64) : Nat := indexIn map.capacity hash

def rehashTo (memory : Memory) (heap : Heap) (map : Map V) (newCapacity : Nat) : Option (Map V) :=
  let newCapacity := nextPowerOfTwo newCapacity
  if heap.array newCapacity then
    let place := fun node : Node V => indexIn newCapacity (hashFunc (memory node.key))
    some { map with
      buckets := (List.range map.capacity).foldl
        (fun table bucket => scatter place table (map.buckets bucket)) fun _ => []
      capacity := newCapacity }
  else none

/-- The product with `0.75F`, which is exact for the powers of two that occur. -/
def loadLimit (capacity : Nat) : Nat := capacity * 3 / 4

def rehashIfNeededForInsert (memory : Memory) (heap : Heap) (map : Map V) : Option (Map V) :=
  if map.capacity = 0 then map.rehashTo memory heap 64
  else if loadLimit map.capacity < map.size + 1 then
    map.rehashTo memory heap (map.capacity * 2 % 2 ^ 64)
  else some map

def same (memory : Memory) (key : Address) (node : Node V) : Bool :=
  cstrCmp memory node.key key == 0

/-- Assigns through the first node of a chain that matches. -/
def assignFirst (found : Node V → Bool) (value : V) : List (Node V) → List (Node V)
  | [] => []
  | node :: chain =>
      if found node then { node with value } :: chain else node :: assignFirst found value chain

def setChain (map : Map V) (bucket : Nat) (chain : List (Node V)) : Map V :=
  { map with buckets := Function.update map.buckets bucket chain }

/-- The value behind the reference that `operator[]` returned for `key`. -/
def deref? (memory : Memory) (map : Map V) (key : Address) : Option V :=
  ((map.buckets (map.bucketIndex (hashFunc (memory key)))).find? (same memory key)).map (·.value)

/-- An assignment to what `operator[]` returned, and the update inside `insert`. -/
def assign (memory : Memory) (map : Map V) (key : Address) (value : V) : Map V :=
  let index := map.bucketIndex (hashFunc (memory key))
  map.setChain index (assignFirst (same memory key) value (map.buckets index))

/-- A new node at the head of its chain. -/
def link (memory : Memory) (heap : Heap) (map : Map V) (key : Address) (value : V) :
    Option (Map V) :=
  if heap.node then
    some { map with
      buckets := push map.buckets (map.bucketIndex (hashFunc (memory key))) ⟨key, value⟩
      size := map.size + 1 }
  else none

/-- What `insert` and `operator[]` have in common. -/
def upsert (memory : Memory) (heap : Heap) (map : Map V) (key : Address)
    (present : Map V → Map V) (fresh : V) : Option (Map V) :=
  (if map.capacity = 0 then map.rehashTo memory heap 64 else some map).bind fun map =>
    let index := map.bucketIndex (hashFunc (memory key))
    if (map.buckets index).any (same memory key) then some (present map)
    else
      (map.rehashIfNeededForInsert memory heap).bind fun map => map.link memory heap key fresh

def insert (memory : Memory) (heap : Heap) (map : Map V) (key : Address) (value : V) :
    Option (Map V) :=
  map.upsert memory heap key (fun map => map.assign memory key value) value

/-- `operator[]`. -/
def index [Inhabited V] (memory : Memory) (heap : Heap) (map : Map V) (key : Address) :
    Option (Map V) :=
  map.upsert memory heap key id default

def erase (memory : Memory) (map : Map V) (key : Address) : Map V :=
  if map.capacity = 0 then map
  else
    let index := map.bucketIndex (hashFunc (memory key))
    let chain := map.buckets index
    if chain.any (same memory key) then
      { map.setChain index (chain.eraseP (same memory key)) with size := map.size - 1 }
    else map

def clear (map : Map V) : Map V :=
  { map with buckets := fun i => if i < map.capacity then [] else map.buckets i, size := 0 }

def reserve (memory : Memory) (heap : Heap) (map : Map V) (newCapacity : Nat) : Option (Map V) :=
  if map.capacity < newCapacity then map.rehashTo memory heap newCapacity else some map

/-! ## Iterators -/

/-- `end()`, where the node is null. -/
def last (map : Map V) : Cursor (Node V) := ⟨map.capacity, []⟩

def first (map : Map V) : Cursor (Node V) := firstFrom map.buckets map.capacity 0

/-- `operator++`. -/
def next (map : Map V) (it : Cursor (Node V)) : Cursor (Node V) :=
  it.advance map.buckets map.capacity

def find (memory : Memory) (map : Map V) (key : Address) : Cursor (Node V) :=
  if map.capacity = 0 then map.last
  else
    let index := map.bucketIndex (hashFunc (memory key))
    match (map.buckets index).dropWhile fun node => !same memory key node with
    | [] => map.last
    | chain => ⟨index, chain⟩

/-- Iterators are compared by their node. -/
def contains (memory : Memory) (map : Map V) (key : Address) : Bool :=
  !(map.find memory key).chain.isEmpty

end Map

/-! ## Calls -/

inductive Op (V : Type) where
  | construct (id capacity : Nat)
  | insert (id : Nat) (key : Address) (value : V)
  | read (id : Nat) (key : Address)
  | assign (id : Nat) (key : Address) (value : V)
  | erase (id : Nat) (key : Address)
  | find (id : Nat) (key : Address)
  | contains (id : Nat) (key : Address)
  | clear (id : Nat)
  | reserve (id newCapacity : Nat)
  | moveConstruct (target source : Nat)
  | moveAssign (target source : Nat)
  /-- Some code writes a C string. -/
  | write (key : Address) (text : Text)

inductive Answer (V : Type) where
  | done
  | entry (found : Option V)
  | flag (found : Bool)
  deriving DecidableEq

/-- A call with the content of its key at the time. -/
inductive Call (V : Type) where
  | construct (id capacity : Nat)
  | insert (id : Nat) (text : Text) (value : V)
  | read (id : Nat) (text : Text)
  | assign (id : Nat) (text : Text) (value : V)
  | erase (id : Nat) (text : Text)
  | find (id : Nat) (text : Text)
  | contains (id : Nat) (text : Text)
  | clear (id : Nat)
  | reserve (id newCapacity : Nat)
  | moveConstruct (target source : Nat)
  | moveAssign (target source : Nat)

/-- Maps by name, and the calls that returned. -/
structure World (V : Type) where
  memory : Memory
  maps : Nat → Option (Map V)
  ended : Bool
  trace : List (Call V × Answer V)

namespace World

variable {V : Type}

def init (memory : Memory) : World V := ⟨memory, fun _ => none, false, []⟩

def put (w : World V) (id : Nat) (map : Map V) (call : Call V) (answer : Answer V) : World V :=
  { w with
    maps := Function.update w.maps id (some map)
    trace := w.trace ++ [(call, answer)] }

/-- The end of a call that may have needed memory. -/
def finish (w : World V) (id : Nat) (result : Option (Map V)) (call : Call V)
    (answer : Map V → Answer V) : World V :=
  match result with
  | some map => w.put id map call (answer map)
  | none => { w with ended := true }

def move (w : World V) (target source : Nat) (map : Map V) (call : Call V) : World V :=
  { w with maps := Function.update w.maps target (some map) }.put source .vacant call .done

/-- A call of a map that does not exist, or of any after the end, does nothing here. -/
def step [Inhabited V] (w : World V) (event : Op V × Heap) : World V :=
  if w.ended then w
  else
    let (op, heap) := event
    match op with
    | .construct id capacity =>
        match w.maps id, Map.construct heap capacity with
        | none, some map => w.put id map (.construct id capacity) .done
        | _, _ => w
    | .insert id key value =>
        match w.maps id with
        | some map =>
            w.finish id (map.insert w.memory heap key value) (.insert id (w.memory key) value)
              fun _ => .done
        | none => w
    | .read id key =>
        match w.maps id with
        | some map =>
            w.finish id (map.index w.memory heap key) (.read id (w.memory key))
              fun map => .entry (map.deref? w.memory key)
        | none => w
    | .assign id key value =>
        match w.maps id with
        | some map =>
            w.finish id ((map.index w.memory heap key).map fun map => map.assign w.memory key value)
              (.assign id (w.memory key) value) fun _ => .done
        | none => w
    | .erase id key =>
        match w.maps id with
        | some map => w.put id (map.erase w.memory key) (.erase id (w.memory key)) .done
        | none => w
    | .find id key =>
        match w.maps id with
        | some map =>
            w.put id map (.find id (w.memory key))
              (.entry ((map.find w.memory key).chain.head?.map (·.value)))
        | none => w
    | .contains id key =>
        match w.maps id with
        | some map => w.put id map (.contains id (w.memory key)) (.flag (map.contains w.memory key))
        | none => w
    | .clear id =>
        match w.maps id with
        | some map => w.put id map.clear (.clear id) .done
        | none => w
    | .reserve id newCapacity =>
        match w.maps id with
        | some map =>
            w.finish id (map.reserve w.memory heap newCapacity) (.reserve id newCapacity)
              fun _ => .done
        | none => w
    | .moveConstruct target source =>
        match w.maps target, w.maps source with
        | none, some map => w.move target source map (.moveConstruct target source)
        | _, _ => w
    | .moveAssign target source =>
        match w.maps target, w.maps source with
        | some own, some map =>
            if target = source then w.put target own (.moveAssign target source) .done
            else w.move target source map (.moveAssign target source)
        | _, _ => w
    | .write key text => { w with memory := Function.update w.memory key text }

def run [Inhabited V] (w : World V) (events : List (Op V × Heap)) : World V :=
  Machine.run step w events

end World

end NetEngine.CstrHashMap
