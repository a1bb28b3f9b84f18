import Mathlib.Algebra.Group.Nat.Defs
import Mathlib.Data.List.FinRange
import Mathlib.Logic.Function.Basic
import NetEngine.Library.Machine

/-! `session_table`: the acceptor's fixed table of sessions, with the calls made
to it and what they answered. A pointer to a record is the slot it is in. -/

set_option autoImplicit false

namespace NetEngine.SessionTable

abbrev SessionId := UInt64
abbrev AccountId := UInt64

def invalidSession : SessionId := 0

/-- `config::k_session_capacity`. -/
def sessionCapacity : Nat := 256

abbrev Slot := Fin sessionCapacity

inductive SessionState where
  | accepted
  | assigning
  | inWorld
  | disconnecting
  | closed
  deriving DecidableEq

structure SessionRecord where
  id : SessionId
  generation : UInt32
  account : AccountId
  ownerWorker : Int32
  state : SessionState
  deriving DecidableEq

structure Table where
  slots : Slot → SessionRecord
  nextId : SessionId
  count : UInt32

namespace Table

def init : Table := ⟨fun _ => ⟨invalidSession, 0, 0, -1, .closed⟩, 1, 0⟩

def slotOf (table : Table) (id : SessionId) : Option Slot :=
  if id = invalidSession then none
  else (List.finRange sessionCapacity).find? fun slot => (table.slots slot).id = id

def update (table : Table) (slot : Slot) (change : SessionRecord → SessionRecord) : Table :=
  { table with slots := Function.update table.slots slot (change (table.slots slot)) }

/-- The loop body of `allocate` for a free slot. -/
def mint (table : Table) (slot : Slot) (account : AccountId) : Table :=
  { table.update slot fun record =>
      { id := table.nextId, generation := record.generation + 1, account, ownerWorker := -1,
        state := .accepted } with
    nextId := table.nextId + 1
    count := table.count + 1 }

def allocate (table : Table) (account : AccountId) : Table × Option Slot :=
  match (List.finRange sessionCapacity).find? fun slot =>
      (table.slots slot).id = invalidSession with
  | none => (table, none)
  | some slot => (table.mint slot account, some slot)

def find (table : Table) (id : SessionId) : Option Slot := table.slotOf id

def validate (table : Table) (id : SessionId) (generation : UInt32) : Bool :=
  match table.slotOf id with
  | none => false
  | some slot => (table.slots slot).generation = generation

def markAssigning (table : Table) (id : SessionId) (worker : Int32) : Table × Bool :=
  match table.slotOf id with
  | none => (table, false)
  | some slot =>
      (table.update slot fun record =>
        { record with ownerWorker := worker, state := .assigning }, true)

def markInWorld (table : Table) (id : SessionId) : Table × Bool :=
  match table.slotOf id with
  | none => (table, false)
  | some slot => (table.update slot fun record => { record with state := .inWorld }, true)

def free (table : Table) (slot : Slot) : Table :=
  { table.update slot fun record =>
      { record with id := invalidSession, ownerWorker := -1, state := .closed } with
    count := table.count - 1 }

def remove (table : Table) (id : SessionId) : Table × Bool :=
  match table.slotOf id with
  | none => (table, false)
  | some slot => (table.free slot, true)

end Table

/-! ## Calls -/

inductive Op where
  | allocate (account : AccountId)
  | find (id : SessionId)
  | validate (id : SessionId) (generation : UInt32)
  | markAssigning (id : SessionId) (worker : Int32)
  | markInWorld (id : SessionId)
  | remove (id : SessionId)

/-- A pointer that was returned, with the record as it stood behind it. -/
abbrev Found := Option (Slot × SessionRecord)

/-- A call and its answer. -/
inductive Call where
  | allocate (account : AccountId) (minted : Found)
  | find (id : SessionId) (found : Found)
  | validate (id : SessionId) (generation : UInt32) (valid : Bool)
  | markAssigning (id : SessionId) (worker : Int32) (done : Bool)
  | markInWorld (id : SessionId) (done : Bool)
  | remove (id : SessionId) (done : Bool)

def Table.at (table : Table) (slot : Option Slot) : Found :=
  slot.map fun slot => (slot, table.slots slot)

def Table.call (table : Table) : Op → Table × Call
  | .allocate account =>
      let (table, slot) := table.allocate account
      (table, .allocate account (table.at slot))
  | .find id => (table, .find id (table.at (table.find id)))
  | .validate id generation => (table, .validate id generation (table.validate id generation))
  | .markAssigning id worker =>
      let (table, done) := table.markAssigning id worker
      (table, .markAssigning id worker done)
  | .markInWorld id =>
      let (table, done) := table.markInWorld id
      (table, .markInWorld id done)
  | .remove id =>
      let (table, done) := table.remove id
      (table, .remove id done)

/-- The table after some calls, and the calls. -/
structure World where
  table : Table
  calls : List Call

def World.step (w : World) (op : Op) : World :=
  let (table, call) := w.table.call op
  ⟨table, w.calls ++ [call]⟩

def run (ops : List Op) : World := Machine.run World.step ⟨.init, []⟩ ops

end NetEngine.SessionTable
