import Mathlib.Algebra.Group.Nat.Defs
import NetEngine.Library.Cells
import NetEngine.Library.Machine

/-! `sds::malloc_vector` over the blocks that `malloc` gave it. A vector comes with
those blocks, so that a reference into one that was freed is still there to follow.
An iterator argument stands as its distance from `_data`. -/

set_option autoImplicit false

namespace NetEngine.MallocVector

/-- What `malloc` answers during one call, by the bytes it is asked for. It never
gives more than `PTRDIFF_MAX`. -/
structure Malloc where
  grants : Nat → Bool
  addressable : ∀ bytes, grants bytes = true → bytes < 2 ^ 63

/-- A `malloc` that gives all it may. -/
def Malloc.ample : Malloc :=
  ⟨fun bytes => decide (bytes < 2 ^ 63), fun _ small => of_decide_eq_true small⟩

/-- A block of so many bytes, in elements; nothing is known of one never written. -/
structure Block (T : Type) where
  bytes : Nat
  cells : Nat → Option T

/-- The null pointer has no block. -/
structure Ptr where
  block : Option Nat
  index : Nat
  deriving DecidableEq

/-- A `const T&`. -/
inductive Ref (T : Type) where
  | outside (value : T)
  | inside (target : Ptr)

/-- The last three fields are the memory: `fault` says that an access or a copy has
left the blocks that are in use. -/
structure Vec (T : Type) where
  data : Option Nat
  size : Nat
  capacity : Nat
  heap : Nat → Option (Block T)
  fresh : Nat
  fault : Bool

namespace Vec

variable {T : Type}

/-- The block around the element that a pointer names, in elements of `width` bytes. -/
def around (width : Nat) (v : Vec T) (target : Ptr) : Option (Block T) :=
  (target.block.bind v.heap).filter fun block => decide (width * (target.index + 1) ≤ block.bytes)

def load (width : Nat) (v : Vec T) : Ref T → Option T
  | .outside value => some value
  | .inside target => (v.around width target).bind (·.cells target.index)

def reads (width : Nat) (v : Vec T) : Ref T → Bool
  | .outside _ => true
  | .inside target => (v.around width target).isSome

/-- `&_data[index]`. -/
def addr (v : Vec T) (index : Nat) : Ptr := ⟨v.data, index⟩

/-- `_data[index] = source`. -/
def assign (width : Nat) (v : Vec T) (index : Nat) (source : Ref T) : Vec T :=
  match v.data, v.around width (v.addr index) with
  | some name, some block =>
      if v.reads width source then
        let cells := Function.update block.cells index (v.load width source)
        { v with heap := Function.update v.heap name (some { block with cells }) }
      else { v with fault := true }
  | _, _ => { v with fault := true }

/-- `malloc`, for a request that is granted. -/
def allocate (v : Vec T) (bytes : Nat) : Vec T :=
  { v with heap := Function.update v.heap v.fresh (some ⟨bytes, fun _ => none⟩), fresh := v.fresh + 1 }

/-- `memcpy`; an element that is copied in part is not known any more. -/
def memcpy (width : Nat) (v : Vec T) (target source : Nat) (bytes : Nat) : Vec T :=
  match v.heap target, v.heap source with
  | some new, some old =>
      if bytes ≤ new.bytes ∧ bytes ≤ old.bytes then
        let cells := fun i =>
          if width * (i + 1) ≤ bytes then old.cells i
          else if width * i < bytes then none else new.cells i
        { v with heap := Function.update v.heap target (some { new with cells }) }
      else { v with fault := true }
  | _, _ => { v with fault := true }

def free (v : Vec T) (name : Nat) : Vec T := { v with heap := Function.update v.heap name none }

/-- The constructor. -/
def construct (width : Nat) (malloc : Malloc) (capacity : Nat) : Vec T :=
  let empty : Vec T := ⟨none, 0, 0, fun _ => none, 0, false⟩
  if 0 < capacity then
    let bytes := width * capacity % 2 ^ 64
    if malloc.grants bytes then { empty.allocate bytes with data := some empty.fresh, capacity }
    else empty
  else empty

def reserve (width : Nat) (malloc : Malloc) (v : Vec T) (capacity : Nat) : Vec T :=
  if capacity ≤ v.capacity then v
  else
    let bytes := width * capacity % 2 ^ 64
    if malloc.grants bytes then
      let moved := match v.data with
        | none => v.allocate bytes
        | some old => ((v.allocate bytes).memcpy width v.fresh old (width * v.size % 2 ^ 64)).free old
      { moved with data := some v.fresh, capacity }
    else v

def resize (width : Nat) (malloc : Malloc) (v : Vec T) (size : Nat) : Vec T :=
  let v := if v.capacity < size then v.reserve width malloc size else v
  if size ≤ v.capacity then { v with size } else v

/-- What a full vector asks for. -/
def newCapacity (v : Vec T) : Nat := if 0 < v.capacity then v.capacity * 2 % 2 ^ 64 else 4

def grow (width : Nat) (malloc : Malloc) (v : Vec T) : Vec T :=
  if v.capacity ≤ v.size then v.reserve width malloc v.newCapacity else v

def pushBack (width : Nat) (malloc : Malloc) (v : Vec T) (value : Ref T) : Vec T :=
  let v := v.grow width malloc
  if v.size < v.capacity then { v.assign width v.size value with size := v.size + 1 } else v

def popBack (v : Vec T) : Vec T := if 0 < v.size then { v with size := v.size - 1 } else v

def clear (v : Vec T) : Vec T := { v with size := 0 }

/-- `end()`. -/
def finish (v : Vec T) : Ptr := if v.data = none then ⟨none, 0⟩ else v.addr v.size

/-- The loop of `erase`, for the rounds that are left. -/
def moveDown (width : Nat) : Nat → Nat → Vec T → Vec T
  | 0, _, v => v
  | rounds + 1, i, v => moveDown width rounds (i + 1) (v.assign width i (.inside (v.addr (i + 1))))

def erase (width : Nat) (v : Vec T) (index : Nat) : Vec T × Ptr :=
  if v.size ≤ index then (v, v.finish)
  else
    let moved := moveDown width (v.size - 1 - index) index v
    let v := { moved with size := moved.size - 1 }
    (v, v.addr index)

/-- The loop of `insert`, from `i` down. -/
def moveUp (width index : Nat) : Nat → Vec T → Vec T
  | 0, v => v
  | i + 1, v =>
      if index < i + 1 then moveUp width index i (v.assign width (i + 1) (.inside (v.addr i))) else v

def insert (width : Nat) (malloc : Malloc) (v : Vec T) (index : Nat) (value : Ref T) : Vec T × Ptr :=
  if v.size < index then (v, v.finish)
  else
    let v := v.grow width malloc
    if v.capacity ≤ v.size then (v, v.finish)
    else
      let placed := (moveUp width index v.size v).assign width index value
      let v := { placed with size := placed.size + 1 }
      (v, v.addr index)

/-- What the elements read as, from the first to the last. -/
def contents (width : Nat) (v : Vec T) : List (Option T) :=
  (List.range v.size).map fun index => v.load width (.inside (v.addr index))

end Vec

/-! ## Runs -/

section

variable {T : Type}

/-- The argument of a call: a value from elsewhere, or an element of the vector. -/
inductive Arg (T : Type) where
  | outside (value : T)
  | element (index : Nat)

/-- The value that an argument has at the call. -/
def Arg.value (l : List T) : Arg T → Option T
  | .outside value => some value
  | .element index => l[index]?

def Arg.ref (v : Vec T) : Arg T → Ref T
  | .outside value => .outside value
  | .element index => .inside (v.addr index)

inductive Call (T : Type) where
  | pushBack (value : Arg T)
  | insert (index : Nat) (value : Arg T)
  | erase (index : Nat)
  | popBack
  | clear
  | reserve (capacity : Nat)
  | resize (size : Nat)

def perform (width : Nat) (v : Vec T) : Call T × Malloc → Vec T × Option Ptr
  | (.pushBack value, malloc) => (v.pushBack width malloc (value.ref v), none)
  | (.insert index value, malloc) =>
      let (v, found) := v.insert width malloc index (value.ref v)
      (v, some found)
  | (.erase index, _) =>
      let (v, found) := v.erase width index
      (v, some found)
  | (.popBack, _) => (v.popBack, none)
  | (.clear, _) => (v.clear, none)
  | (.reserve capacity, malloc) => (v.reserve width malloc capacity, none)
  | (.resize size, malloc) => (v.resize width malloc size, none)

def step (width : Nat) (v : Vec T) (call : Call T × Malloc) : Vec T := (perform width v call).1

/-- The capacity that a call asks `malloc` for, if it does. -/
def Call.request (v : Vec T) : Call T → Option Nat
  | .pushBack _ => if v.capacity ≤ v.size ∧ v.capacity < v.newCapacity then some v.newCapacity else none
  | .insert index _ =>
      if index ≤ v.size ∧ v.capacity ≤ v.size ∧ v.capacity < v.newCapacity then some v.newCapacity
      else none
  | .reserve capacity => if v.capacity < capacity then some capacity else none
  | .resize size => if v.capacity < size then some size else none
  | _ => none

end

end NetEngine.MallocVector
