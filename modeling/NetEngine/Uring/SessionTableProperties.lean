import Mathlib.Data.Finset.Card
import Mathlib.Data.Fintype.Card
import NetEngine.Uring.SessionTable

/-! What a history of calls says about the session table: a record stands for an
id from the `allocate` that minted it to the `remove` that succeeds, and a
reference to it is valid exactly as long. -/

set_option autoImplicit false

namespace NetEngine.SessionTable

open Machine

/-! ## Histories -/

/-- The ids that were handed out, in order. -/
def issued (calls : List Call) : List SessionId :=
  calls.filterMap fun
    | .allocate _ (some (_, record)) => some record.id
    | _ => none

/-- Counted so far, an id never comes back: the counter has not wrapped. -/
def Few (calls : List Call) : Prop := (issued calls).length < 2 ^ 64 - 1

def Call.note (id : SessionId) (standing : Found) : Call → Found
  | .allocate _ (some (slot, record)) => if record.id = id then some (slot, record) else standing
  | .markAssigning other worker true =>
      if other = id then
        standing.map fun (slot, record) =>
          (slot, { record with ownerWorker := worker, state := .assigning })
      else standing
  | .markInWorld other true =>
      if other = id then
        standing.map fun (slot, record) => (slot, { record with state := .inWorld })
      else standing
  | .remove other true => if other = id then none else standing
  | _ => standing

/-- The session behind an id as the history tells it: as minted, with its latest mark. -/
def standing (id : SessionId) (calls : List Call) : Found := calls.foldl (Call.note id) none

/-- Some `allocate` minted exactly this, and no `remove` of it has succeeded since. -/
def Stands (calls : List Call) (id : SessionId) (slot : Slot) (account : AccountId)
    (generation : UInt32) : Prop :=
  ∃ early late,
    calls = early ++
      .allocate account (some (slot, ⟨id, generation, account, -1, .accepted⟩)) :: late ∧
    .remove id true ∉ late

theorem standing_snoc (id : SessionId) (calls : List Call) (call : Call) :
    standing id (calls ++ [call]) = call.note id (standing id calls) := by
  simp [standing]

theorem issued_snoc (calls : List Call) (call : Call) :
    issued (calls ++ [call]) = issued calls ++ issued [call] :=
  List.filterMap_append ..

theorem Stands.issued {calls : List Call} {id : SessionId} {slot : Slot} {account : AccountId}
    {generation : UInt32} (stands : Stands calls id slot account generation) :
    id ∈ issued calls := by
  obtain ⟨early, late, rfl, _⟩ := stands
  exact List.mem_filterMap.mpr
    ⟨_, List.mem_append_right early List.mem_cons_self, rfl⟩

theorem stands_snoc {calls : List Call} {call : Call} {id : SessionId} {slot : Slot}
    {account : AccountId} {generation : UInt32} :
    Stands (calls ++ [call]) id slot account generation ↔
      call = .allocate account (some (slot, ⟨id, generation, account, -1, .accepted⟩)) ∨
        Stands calls id slot account generation ∧ call ≠ .remove id true := by
  constructor
  · intro stands
    obtain ⟨early, late, same, kept⟩ := stands
    cases split_snoc same with
    | inl last => exact .inl last.2.1
    | inr inside =>
        obtain ⟨shorter, rfl, calls_eq⟩ := inside
        refine .inr ⟨⟨early, shorter, calls_eq, fun removed => ?_⟩, fun removed => ?_⟩
        · exact kept (List.mem_append_left _ removed)
        · exact kept (List.mem_append_right _ (removed ▸ List.mem_singleton_self _))
  · intro either
    cases either with
    | inl minted => exact ⟨calls, [], by rw [minted], by simp⟩
    | inr before =>
        obtain ⟨⟨early, late, rfl, kept⟩, other⟩ := before
        refine ⟨early, late ++ [call], by simp, fun removed => ?_⟩
        cases List.mem_append.mp removed with
        | inl inLate => exact kept inLate
        | inr last => exact other (List.mem_singleton.mp last).symm

/-! ## One call -/

/-- A call that leaves the table alone, and every history as it was. -/
def Call.Quiet (call : Call) : Prop :=
  issued [call] = [] ∧ (∀ id found, call.note id found = found) ∧ (∀ id, call ≠ .remove id true)

/-- A mark of a session, and what it does to its record. -/
inductive Call.Marks (id : SessionId) : (SessionRecord → SessionRecord) → Call → Prop where
  | assigning (worker : Int32) :
      Marks id (fun record => { record with ownerWorker := worker, state := .assigning })
        (.markAssigning id worker true)
  | inWorld : Marks id (fun record => { record with state := .inWorld }) (.markInWorld id true)

/-- Everything that a call can do. -/
inductive Table.Steps (table : Table) : Table → Call → Prop where
  | quiet {call : Call} : call.Quiet → Steps table table call
  | mint {slot : Slot} (account : AccountId) :
      (table.slots slot).id = invalidSession →
      Steps table (table.mint slot account) (.allocate account
        (some (slot, ⟨table.nextId, (table.slots slot).generation + 1, account, -1, .accepted⟩)))
  | mark {slot : Slot} {id : SessionId} {change : SessionRecord → SessionRecord} {call : Call} :
      table.slotOf id = some slot → call.Marks id change → Steps table (table.update slot change) call
  | free {slot : Slot} {id : SessionId} :
      table.slotOf id = some slot → Steps table (table.free slot) (.remove id true)

section Steps

variable {table : Table} {id : SessionId} {slot : Slot}

theorem slotOf_some (found : table.slotOf id = some slot) :
    id ≠ invalidSession ∧ (table.slots slot).id = id := by
  unfold Table.slotOf at found
  split at found
  · cases found
  next valid => exact ⟨valid, by simpa using List.find?_some found⟩

theorem slotOf_none (absent : table.slotOf id = none) (valid : id ≠ invalidSession) (slot : Slot) :
    (table.slots slot).id ≠ id := by
  unfold Table.slotOf at absent
  rw [if_neg valid, List.find?_eq_none] at absent
  simpa using absent slot (List.mem_finRange slot)

theorem allocate_none_iff (account : AccountId) :
    (table.allocate account).2 = none ↔ ∀ slot, (table.slots slot).id ≠ invalidSession := by
  unfold Table.allocate
  split
  next full =>
    rw [List.find?_eq_none] at full
    exact ⟨fun _ slot => by simpa using full slot (List.mem_finRange slot), fun _ => rfl⟩
  next slot found =>
    have vacant : (table.slots slot).id = invalidSession := by simpa using List.find?_some found
    exact ⟨nofun, fun live => absurd vacant (live slot)⟩

theorem call_steps (table : Table) (op : Op) :
    table.Steps (table.call op).1 (table.call op).2 := by
  cases op with
  | find id => exact .quiet ⟨rfl, fun _ _ => rfl, nofun⟩
  | validate id generation => exact .quiet ⟨rfl, fun _ _ => rfl, nofun⟩
  | allocate account =>
      simp only [Table.call, Table.allocate]
      split
      · exact .quiet ⟨rfl, fun _ _ => rfl, nofun⟩
      next slot found =>
        have vacant : (table.slots slot).id = invalidSession := by simpa using List.find?_some found
        have minted := Table.Steps.mint account vacant
        simpa [Table.at, Table.mint, Table.update] using minted
  | markAssigning id worker =>
      simp only [Table.call, Table.markAssigning]
      split
      · exact .quiet ⟨rfl, fun _ _ => rfl, nofun⟩
      next found => exact .mark found (.assigning worker)
  | markInWorld id =>
      simp only [Table.call, Table.markInWorld]
      split
      · exact .quiet ⟨rfl, fun _ _ => rfl, nofun⟩
      next found => exact .mark found .inWorld
  | remove id =>
      simp only [Table.call, Table.remove]
      split
      · exact .quiet ⟨rfl, fun _ _ => rfl, by simp⟩
      next found => exact .free found

end Steps

/-! ## The invariant -/

def Table.liveSlots (table : Table) : Finset Slot :=
  Finset.univ.filter fun slot => (table.slots slot).id ≠ invalidSession

/-- Live ids are in one slot each. -/
def Table.Distinct (table : Table) : Prop :=
  ∀ slot other, (table.slots slot).id ≠ invalidSession →
    (table.slots slot).id = (table.slots other).id → slot = other

/-- What links the slots to the history. -/
structure Facts (w : World) : Prop where
  next : w.table.nextId.toNat = (issued w.calls).length + 1
  past : ∀ id ∈ issued w.calls, id ≠ invalidSession ∧ id.toNat < w.table.nextId.toNat
  once : (issued w.calls).Nodup
  live : ∀ slot, (w.table.slots slot).id ≠ invalidSession →
    (w.table.slots slot).id ∈ issued w.calls
  distinct : w.table.Distinct
  count : w.table.count.toNat = w.table.liveSlots.card
  recorded : ∀ id, standing id w.calls = w.table.at (w.table.slotOf id)
  incarnations : ∀ id slot account generation, Stands w.calls id slot account generation ↔
    ∃ record, standing id w.calls = some (slot, record) ∧
      record.account = account ∧ record.generation = generation

section Slots

variable {table later : Table} {id : SessionId} {slot : Slot}

theorem Table.Distinct.slotOf (distinct : table.Distinct) (valid : id ≠ invalidSession)
    (own : (table.slots slot).id = id) : table.slotOf id = some slot := by
  cases found : table.slotOf id with
  | none => exact absurd own (slotOf_none found valid slot)
  | some other =>
      have same := (slotOf_some found).2
      exact congrArg some (distinct other slot (same ▸ valid) (same.trans own.symm))

theorem slotOf_congr (same : ∀ slot, (later.slots slot).id = id ↔ (table.slots slot).id = id) :
    later.slotOf id = table.slotOf id := by
  unfold Table.slotOf
  split
  · rfl
  · exact congrArg (fun test => List.find? test _) (funext fun slot => decide_eq_decide.mpr (same slot))

@[simp] theorem update_slot (change : SessionRecord → SessionRecord) :
    (table.update slot change).slots slot = change (table.slots slot) := by
  simp [Table.update]

theorem update_slot_ne {other : Slot} (change : SessionRecord → SessionRecord)
    (apart : other ≠ slot) : (table.update slot change).slots other = table.slots other := by
  simp [Table.update, apart]

/-- Marks leave the identity of a record alone. -/
theorem Call.Marks.keeps {change : SessionRecord → SessionRecord} {call : Call}
    (marks : call.Marks id change) (record : SessionRecord) :
    (change record).id = record.id ∧ (change record).account = record.account ∧
      (change record).generation = record.generation := by
  cases marks <;> exact ⟨rfl, rfl, rfl⟩

theorem Call.Marks.note {change : SessionRecord → SessionRecord} {call : Call}
    (marks : call.Marks id change) (other : SessionId) (standing : Found) :
    call.note other standing =
      if id = other then standing.map fun (slot, record) => (slot, change record) else standing := by
  cases marks <;> rfl

theorem Call.Marks.quiet {change : SessionRecord → SessionRecord} {call : Call}
    (marks : call.Marks id change) :
    issued [call] = [] ∧ (∀ other, call ≠ .remove other true) ∧
      ∀ account minted, call ≠ .allocate account minted := by
  cases marks <;> exact ⟨rfl, nofun, nofun⟩

theorem mark_slots {change : SessionRecord → SessionRecord}
    (keeps : ∀ record, (change record).id = record.id) (other : Slot) :
    ((table.update slot change).slots other).id = (table.slots other).id := by
  cases decEq other slot with
  | isTrue same => rw [same, update_slot, keeps]
  | isFalse apart => rw [update_slot_ne change apart]

end Slots

section Step

variable {w : World}

theorem Facts.init : Facts ⟨.init, []⟩ := by
  have nowhere : ∀ id, Table.init.slotOf id = none := by
    intro id
    cases found : Table.init.slotOf id with
    | none => rfl
    | some slot => exact absurd (slotOf_some found).2.symm (slotOf_some found).1
  refine ⟨rfl, by simp [issued], by simp [issued], fun slot live => absurd rfl live,
    fun slot other live => absurd rfl live, ?_, fun id => ?_, fun id slot account generation => ?_⟩
  · have none : Table.init.liveSlots = ∅ := Finset.filter_eq_empty_iff.mpr fun slot _ live => live rfl
    rw [none]
    rfl
  · rw [nowhere]
    rfl
  · constructor
    · intro stands
      cases stands.issued
    · intro found
      obtain ⟨record, found, _⟩ := found
      cases found

theorem Facts.quiet (facts : Facts w) {call : Call} (quiet : call.Quiet) :
    Facts ⟨w.table, w.calls ++ [call]⟩ := by
  obtain ⟨nothing, notes, keeps⟩ := quiet
  have same : issued (w.calls ++ [call]) = issued w.calls := by
    rw [issued_snoc, nothing, List.append_nil]
  have stand : ∀ id, standing id (w.calls ++ [call]) = standing id w.calls := fun id =>
    (standing_snoc id w.calls call).trans (notes id _)
  refine ⟨same ▸ facts.next, same ▸ facts.past, same ▸ facts.once, same ▸ facts.live,
    facts.distinct, facts.count, fun id => (stand id).trans (facts.recorded id),
    fun id slot account generation => ?_⟩
  rw [stand, ← facts.incarnations, stands_snoc]
  constructor
  · intro either
    cases either with
    | inl minted =>
        rw [minted] at nothing
        cases nothing
    | inr before => exact before.1
  · exact fun before => .inr ⟨before, keeps id⟩

theorem Facts.fresh (facts : Facts w) : w.table.nextId ∉ issued w.calls := fun member =>
  Nat.lt_irrefl _ (facts.past _ member).2

theorem Facts.nextId_valid (facts : Facts w) : w.table.nextId ≠ invalidSession := by
  intro wrapped
  have next := facts.next
  rw [wrapped] at next
  cases next

theorem Facts.mint (facts : Facts w) {slot : Slot} (account : AccountId)
    (vacant : (w.table.slots slot).id = invalidSession)
    (few : Few (w.calls ++ [.allocate account (some (slot,
      ⟨w.table.nextId, (w.table.slots slot).generation + 1, account, -1, .accepted⟩))])) :
    Facts ⟨w.table.mint slot account, w.calls ++ [.allocate account (some (slot,
      ⟨w.table.nextId, (w.table.slots slot).generation + 1, account, -1, .accepted⟩))]⟩ := by
  generalize record_eq : (⟨w.table.nextId, (w.table.slots slot).generation + 1, account, -1,
    .accepted⟩ : SessionRecord) = record at few ⊢
  have own : record.id = w.table.nextId := record_eq ▸ rfl
  have grown : issued (w.calls ++ [.allocate account (some (slot, record))]) =
      issued w.calls ++ [w.table.nextId] := by
    rw [issued_snoc, ← own]
    rfl
  have here : (w.table.mint slot account).slots slot = record := by
    rw [← record_eq]
    simp [Table.mint]
  have elsewhere : ∀ other, other ≠ slot →
      (w.table.mint slot account).slots other = w.table.slots other := fun other apart => by
    simp [Table.mint, update_slot_ne _ apart]
  have below : (issued w.calls).length + 1 < 2 ^ 64 - 1 := by
    have short := few
    rw [Few, grown, List.length_append] at short
    exact short
  have next : (w.table.mint slot account).nextId.toNat = w.table.nextId.toNat + 1 := by
    have wide : w.table.nextId.toNat + 1 < 2 ^ 64 := by
      rw [facts.next]
      omega
    simp only [Table.mint, UInt64.toNat_add, UInt64.reduceToNat]
    exact Nat.mod_eq_of_lt wide
  have distinct : (w.table.mint slot account).Distinct := by
    intro first second live same
    have apart : ∀ other, other ≠ slot → (w.table.slots other).id ≠ w.table.nextId := by
      intro other _ clash
      have valid : (w.table.slots other).id ≠ invalidSession := clash ▸ facts.nextId_valid
      exact facts.fresh (clash ▸ facts.live other valid)
    by_cases firstHere : first = slot
    · by_cases secondHere : second = slot
      · rw [firstHere, secondHere]
      · rw [firstHere, here, own, elsewhere second secondHere] at same
        exact absurd same.symm (apart second secondHere)
    · rw [elsewhere first firstHere] at live same
      by_cases secondHere : second = slot
      · rw [secondHere, here, own] at same
        exact absurd same (apart first firstHere)
      · rw [elsewhere second secondHere] at same
        exact facts.distinct first second live same
  have count : (w.table.mint slot account).count.toNat =
      (w.table.mint slot account).liveSlots.card := by
    have slots : (w.table.mint slot account).liveSlots = insert slot w.table.liveSlots := by
      ext other
      rw [Finset.mem_insert, Table.liveSlots, Table.liveSlots, Finset.mem_filter, Finset.mem_filter]
      by_cases same : other = slot
      · simp [same, here, own, facts.nextId_valid]
      · simp [same, elsewhere other same]
    have outside : slot ∉ w.table.liveSlots := by simp [Table.liveSlots, vacant]
    have few : w.table.liveSlots.card ≤ sessionCapacity := by
      simpa using Finset.card_le_univ w.table.liveSlots
    have small : w.table.count.toNat + 1 < 2 ^ 32 := by
      rw [facts.count]
      exact Nat.lt_of_le_of_lt (Nat.succ_le_succ few) (by decide)
    rw [slots, Finset.card_insert_of_notMem outside, ← facts.count]
    simp only [Table.mint, UInt32.toNat_add, UInt32.reduceToNat]
    exact Nat.mod_eq_of_lt small
  have stand : ∀ id, standing id (w.calls ++ [.allocate account (some (slot, record))]) =
      if w.table.nextId = id then some (slot, record) else standing id w.calls := by
    intro id
    rw [standing_snoc, ← own]
    rfl
  refine ⟨?_, ?_, ?_, ?_, distinct, count, fun id => ?_, fun id place owner generation => ?_⟩
  · change (w.table.mint slot account).nextId.toNat = _
    rw [next, grown, List.length_append, facts.next]
    rfl
  · intro id member
    change id ≠ invalidSession ∧ id.toNat < (w.table.mint slot account).nextId.toNat
    rw [next]
    rw [grown] at member
    cases List.mem_append.mp member with
    | inl early => exact ⟨(facts.past id early).1, Nat.lt_succ_of_lt (facts.past id early).2⟩
    | inr last =>
        rw [List.mem_singleton.mp last]
        exact ⟨facts.nextId_valid, Nat.lt_succ_self _⟩
  · rw [grown, List.nodup_append]
    refine ⟨facts.once, List.nodup_singleton _, fun id early other last same => ?_⟩
    rw [same, List.mem_singleton.mp last] at early
    exact facts.fresh early
  · intro other live
    rw [grown]
    by_cases same : other = slot
    · rw [same]
      exact List.mem_append_right _ (List.mem_singleton.mpr ((congrArg _ here).trans own))
    · change ((w.table.mint slot account).slots other).id ≠ invalidSession at live
      change ((w.table.mint slot account).slots other).id ∈ _
      rw [elsewhere other same] at live ⊢
      exact List.mem_append_left _ (facts.live other live)
  · change standing id _ = (w.table.mint slot account).at ((w.table.mint slot account).slotOf id)
    rw [stand]
    split
    next same =>
      rw [← same, distinct.slotOf facts.nextId_valid ((congrArg _ here).trans own)]
      simp [Table.at, here]
    next other =>
      cases decEq id invalidSession with
      | isTrue invalid => rw [facts.recorded, invalid]; rfl
      | isFalse valid =>
          have kept : (w.table.mint slot account).slotOf id = w.table.slotOf id := by
            refine slotOf_congr fun place => ?_
            by_cases same : place = slot
            · rw [same, here, own, vacant]
              exact ⟨fun clash => absurd clash other, fun clash => absurd clash.symm valid⟩
            · rw [elsewhere place same]
          rw [kept, facts.recorded]
          cases found : w.table.slotOf id with
          | none => rfl
          | some place =>
              have apart : place ≠ slot := by
                intro same
                rw [same] at found
                exact valid ((slotOf_some found).2.symm.trans vacant)
              simp [Table.at, elsewhere place apart]
  · change Stands (w.calls ++ [_]) id place owner generation ↔
      ∃ record, standing id (w.calls ++ [_]) = some (place, record) ∧ _
    rw [stands_snoc, stand]
    constructor
    · intro either
      cases either with
      | inl minted =>
          cases minted
          exact ⟨_, if_pos own.symm, rfl, rfl⟩
      | inr before =>
          have other : w.table.nextId ≠ id := fun same => facts.fresh (same ▸ before.1.issued)
          rw [if_neg other]
          exact (facts.incarnations id place owner generation).mp before.1
    · intro found
      obtain ⟨minted, found, owner_eq, generation_eq⟩ := found
      split at found
      next same =>
        cases found
        refine .inl ?_
        rw [← owner_eq, ← generation_eq, ← same, ← record_eq]
      next other =>
        exact .inr ⟨(facts.incarnations id place owner generation).mpr
          ⟨minted, found, owner_eq, generation_eq⟩, nofun⟩

theorem Facts.mark (facts : Facts w) {slot : Slot} {id : SessionId} {call : Call}
    {change : SessionRecord → SessionRecord} (found : w.table.slotOf id = some slot)
    (marks : call.Marks id change) :
    Facts ⟨w.table.update slot change, w.calls ++ [call]⟩ := by
  obtain ⟨nothing, keeps, notMint⟩ := marks.quiet
  have ids (other : Slot) : ((w.table.update slot change).slots other).id = (w.table.slots other).id :=
    mark_slots (fun record => (marks.keeps record).1) other
  have same : issued (w.calls ++ [call]) = issued w.calls := by
    rw [issued_snoc, nothing, List.append_nil]
  have stand : ∀ other, standing other (w.calls ++ [call]) =
      if id = other then (standing other w.calls).map fun (slot, record) => (slot, change record)
      else standing other w.calls := by
    intro other
    rw [standing_snoc, marks.note]
  have kept : ∀ other, (w.table.update slot change).slotOf other = w.table.slotOf other :=
    fun other => slotOf_congr fun place => by rw [ids]
  refine ⟨same ▸ facts.next, same ▸ facts.past, same ▸ facts.once, fun place live => ?_,
    fun first second live clash => ?_, ?_, fun other => ?_, fun other place account generation => ?_⟩
  · change ((w.table.update slot change).slots place).id ≠ invalidSession at live
    change ((w.table.update slot change).slots place).id ∈ issued (w.calls ++ [call])
    rw [ids] at live ⊢
    exact same ▸ facts.live place live
  · rw [ids] at live clash
    rw [ids] at clash
    exact facts.distinct first second live clash
  · have slots : (w.table.update slot change).liveSlots = w.table.liveSlots :=
      Finset.filter_congr fun place _ => by rw [ids]
    change w.table.count.toNat = (w.table.update slot change).liveSlots.card
    rw [slots, facts.count]
  · change standing other _ = (w.table.update slot change).at ((w.table.update slot change).slotOf other)
    rw [stand, kept, facts.recorded]
    split
    next own =>
      rw [← own, found]
      simp [Table.at]
    next apart =>
      cases place : w.table.slotOf other with
      | none => rfl
      | some spot =>
          have distant : spot ≠ slot := by
            intro clash
            rw [clash] at place
            exact apart ((slotOf_some found).2.symm.trans (slotOf_some place).2)
          simp [Table.at, update_slot_ne change distant]
  · change Stands (w.calls ++ [call]) other place account generation ↔
      ∃ record, standing other (w.calls ++ [call]) = some (place, record) ∧ _
    have before : Stands (w.calls ++ [call]) other place account generation ↔
        Stands w.calls other place account generation := by
      rw [stands_snoc]
      constructor
      · intro either
        cases either with
        | inl minted => exact absurd minted (notMint _ _)
        | inr before => exact before.1
      · exact fun before => .inr ⟨before, keeps other⟩
    rw [before, facts.incarnations, stand]
    split
    · constructor
      · intro minted
        obtain ⟨record, recorded, owner, age⟩ := minted
        refine ⟨change record, by rw [recorded]; rfl, ?_, ?_⟩
        · exact (marks.keeps record).2.1.trans owner
        · exact (marks.keeps record).2.2.trans age
      · intro minted
        obtain ⟨record, recorded, owner, age⟩ := minted
        rw [Option.map_eq_some_iff] at recorded
        obtain ⟨⟨spot, original⟩, recorded, changed⟩ := recorded
        cases changed
        refine ⟨original, recorded, ?_, ?_⟩
        · exact (marks.keeps original).2.1.symm.trans owner
        · exact (marks.keeps original).2.2.symm.trans age
    · rfl

@[simp] theorem free_slot {table : Table} (slot : Slot) : (table.free slot).slots slot =
    { table.slots slot with id := invalidSession, ownerWorker := -1, state := .closed } := by
  simp [Table.free]

theorem free_slot_ne {table : Table} {slot other : Slot} (apart : other ≠ slot) :
    (table.free slot).slots other = table.slots other := by
  simp [Table.free, update_slot_ne _ apart]

/-- A freed slot takes its id out of the table, and no other. -/
theorem Facts.slotOf_free (facts : Facts w) {slot : Slot} {id : SessionId}
    (found : w.table.slotOf id = some slot) (other : SessionId) :
    (w.table.free slot).slotOf other = if id = other then none else w.table.slotOf other := by
  obtain ⟨valid, own⟩ := slotOf_some found
  have here : ((w.table.free slot).slots slot).id = invalidSession := by simp
  split
  next same =>
    subst same
    cases left : (w.table.free slot).slotOf id with
    | none => rfl
    | some place =>
        have still := (slotOf_some left).2
        by_cases clash : place = slot
        · rw [clash, here] at still
          exact absurd still.symm valid
        · rw [free_slot_ne clash] at still
          exact absurd (facts.distinct place slot (still ▸ valid) (still.trans own.symm)) clash
  next apart =>
    cases decEq other invalidSession with
    | isTrue invalid => rw [invalid]; rfl
    | isFalse real =>
        refine slotOf_congr fun place => ?_
        by_cases clash : place = slot
        · rw [clash, here, own]
          exact ⟨fun wrong => absurd wrong.symm real, fun wrong => absurd wrong apart⟩
        · rw [free_slot_ne clash]

theorem Facts.count_pos (facts : Facts w) {slot : Slot} {id : SessionId}
    (found : w.table.slotOf id = some slot) : 1 ≤ w.table.count := by
  obtain ⟨valid, own⟩ := slotOf_some found
  have member : slot ∈ w.table.liveSlots := by simp [Table.liveSlots, own, valid]
  rw [UInt32.le_iff_toNat_le, facts.count]
  exact Finset.card_pos.mpr ⟨slot, member⟩

theorem Facts.count_free (facts : Facts w) {slot : Slot} {id : SessionId}
    (found : w.table.slotOf id = some slot) :
    (w.table.free slot).count.toNat = w.table.count.toNat - 1 :=
  UInt32.toNat_sub_of_le _ _ (facts.count_pos found)

theorem Facts.free (facts : Facts w) {slot : Slot} {id : SessionId}
    (found : w.table.slotOf id = some slot) :
    Facts ⟨w.table.free slot, w.calls ++ [.remove id true]⟩ := by
  obtain ⟨valid, own⟩ := slotOf_some found
  have same : issued (w.calls ++ [.remove id true]) = issued w.calls := by
    rw [issued_snoc]
    exact List.append_nil _
  have here : ((w.table.free slot).slots slot).id = invalidSession := by simp
  have elsewhere : ∀ other, other ≠ slot →
      (w.table.free slot).slots other = w.table.slots other := fun _ => free_slot_ne
  have stand : ∀ other, standing other (w.calls ++ [.remove id true]) =
      if id = other then none else standing other w.calls := fun other => standing_snoc ..
  have gone : (w.table.free slot).slotOf id = none :=
    (facts.slotOf_free found id).trans (if_pos rfl)
  have kept : ∀ other, id ≠ other → (w.table.free slot).slotOf other = w.table.slotOf other :=
    fun other apart => (facts.slotOf_free found other).trans (if_neg apart)
  refine ⟨same ▸ facts.next, same ▸ facts.past, same ▸ facts.once, fun place live => ?_,
    fun first second live clash => ?_, ?_, fun other => ?_, fun other place account generation => ?_⟩
  · by_cases clash : place = slot
    · rw [clash] at live
      exact absurd here live
    · change ((w.table.free slot).slots place).id ≠ invalidSession at live
      change ((w.table.free slot).slots place).id ∈ issued (w.calls ++ [.remove id true])
      rw [elsewhere place clash] at live ⊢
      exact same ▸ facts.live place live
  · have firstApart : first ≠ slot := fun wrong => live (wrong ▸ here)
    have secondApart : second ≠ slot := fun wrong => live (clash.trans (wrong ▸ here))
    rw [elsewhere first firstApart] at live clash
    rw [elsewhere second secondApart] at clash
    exact facts.distinct first second live clash
  · have member : slot ∈ w.table.liveSlots := by simp [Table.liveSlots, own, valid]
    have slots : (w.table.free slot).liveSlots = w.table.liveSlots.erase slot := by
      ext other
      rw [Finset.mem_erase, Table.liveSlots, Table.liveSlots, Finset.mem_filter, Finset.mem_filter]
      by_cases clash : other = slot
      · simp [clash]
      · simp [clash, elsewhere other clash]
    rw [facts.count_free found, facts.count, slots, Finset.card_erase_of_mem member]
  · change standing other _ = (w.table.free slot).at ((w.table.free slot).slotOf other)
    rw [stand]
    split
    next clash =>
      rw [← clash, gone]
      rfl
    next apart =>
      rw [kept other apart, facts.recorded]
      cases place : w.table.slotOf other with
      | none => rfl
      | some spot =>
          have distant : spot ≠ slot := by
            intro clash
            rw [clash] at place
            exact apart (own.symm.trans (slotOf_some place).2)
          simp [Table.at, elsewhere spot distant]
  · change Stands (w.calls ++ [.remove id true]) other place account generation ↔
      ∃ record, standing other (w.calls ++ [.remove id true]) = some (place, record) ∧ _
    rw [stands_snoc, stand]
    split
    next clash =>
      constructor
      · intro either
        cases either with
        | inl minted => cases minted
        | inr before => exact absurd (clash ▸ rfl) before.2
      · intro minted
        obtain ⟨record, recorded, _⟩ := minted
        cases recorded
    next apart =>
      rw [← facts.incarnations]
      constructor
      · intro either
        cases either with
        | inl minted => cases minted
        | inr before => exact before.1
      · exact fun before => .inr ⟨before, fun wrong => apart (Call.remove.inj wrong).1⟩

theorem Facts.step (facts : Facts w) (op : Op) (few : Few (w.step op).calls) :
    Facts (w.step op) := by
  unfold World.step at few ⊢
  have steps := call_steps w.table op
  generalize w.table.call op = result at steps few ⊢
  obtain ⟨table, call⟩ := result
  simp only at steps few ⊢
  cases steps with
  | quiet quiet => exact facts.quiet quiet
  | mint account vacant => exact facts.mint account vacant few
  | mark found marks => exact facts.mark found marks
  | free found => exact facts.free found

end Step

/-! ## Runs -/

theorem issued_step (w : World) (op : Op) :
    (issued w.calls).length ≤ (issued (w.step op).calls).length := by
  change _ ≤ (issued (w.calls ++ [_])).length
  rw [issued_snoc, List.length_append]
  exact Nat.le_add_right _ _

theorem run_facts (ops : List Op) (few : Few (run ops).calls) : Facts (run ops) := by
  have keeps : ∀ w op, (Few w.calls → Facts w) → Few (World.step w op).calls → Facts (w.step op) :=
    fun w op facts few => (facts (Nat.lt_of_le_of_lt (issued_step w op) few)).step op few
  exact Machine.run_keeps keeps (fun _ => Facts.init) ops few

/-- What the table answers, in terms of the calls that were made. -/
structure Faithful (w : World) : Prop where
  issuedOnce : (issued w.calls).Nodup ∧ ∀ id ∈ issued w.calls, id ≠ invalidSession
  liveDistinct : w.table.Distinct
  count : w.table.count.toNat = w.table.liveSlots.card
  /-- A full table refuses, and only a full one; nothing is changed. -/
  full : ∀ account, ((w.table.allocate account).2 = none ↔
      ∀ slot, (w.table.slots slot).id ≠ invalidSession) ∧
    ((w.table.allocate account).2 = none → (w.table.allocate account).1 = w.table)
  /-- `find` knows an id from its `allocate` to its `remove`, in the slot it was minted in. -/
  find : ∀ id slot, w.table.find id = some slot ↔
    ∃ account generation, Stands w.calls id slot account generation
  /-- The record found is as minted, with its latest mark. -/
  record : ∀ id slot, w.table.find id = some slot →
    standing id w.calls = some (slot, w.table.slots slot) ∧
    Stands w.calls id slot (w.table.slots slot).account (w.table.slots slot).generation
  /-- Only the incarnation that was minted with this very pair makes it valid. -/
  validate : ∀ id generation, w.table.validate id generation = true ↔
    ∃ slot account, Stands w.calls id slot account generation
  absent : ∀ id, w.table.find id = none →
    (∀ generation, w.table.validate id generation = false) ∧
    (∀ worker, w.table.markAssigning id worker = (w.table, false)) ∧
    w.table.markInWorld id = (w.table, false) ∧ w.table.remove id = (w.table, false)
  /-- An `allocate` that is not refused puts a new session of its account into a free slot. -/
  minted : ∀ account slot, (w.table.allocate account).2 = some slot →
    (w.table.slots slot).id = invalidSession ∧
    w.table.nextId ≠ invalidSession ∧ w.table.nextId ∉ issued w.calls ∧
    (w.table.allocate account).1 =
      { slots := Function.update w.table.slots slot
          ⟨w.table.nextId, (w.table.slots slot).generation + 1, account, -1, .accepted⟩
        nextId := w.table.nextId + 1
        count := w.table.count + 1 }
  /-- The marks succeed on an id that is found, and change the record found alone. -/
  marked : ∀ id slot, w.table.find id = some slot →
    (∀ worker, w.table.markAssigning id worker =
      ({ w.table with
          slots := Function.update w.table.slots slot
            { w.table.slots slot with ownerWorker := worker, state := .assigning } }, true)) ∧
    w.table.markInWorld id =
      ({ w.table with
          slots := Function.update w.table.slots slot
            { w.table.slots slot with state := .inWorld } }, true)
  /-- `remove` succeeds on an id that is found: its slot is free, and the other ids stay. -/
  removed : ∀ id slot, w.table.find id = some slot →
    (w.table.remove id).2 = true ∧
    (w.table.remove id).1.slots = Function.update w.table.slots slot
      { w.table.slots slot with id := invalidSession, ownerWorker := -1, state := .closed } ∧
    (w.table.remove id).1.nextId = w.table.nextId ∧
    (w.table.remove id).1.count.toNat + 1 = w.table.count.toNat ∧
    ∀ other, (w.table.remove id).1.find other = if id = other then none else w.table.find other

theorem Facts.found {w : World} (facts : Facts w) {id : SessionId} {slot : Slot}
    (found : w.table.slotOf id = some slot) :
    standing id w.calls = some (slot, w.table.slots slot) := by
  rw [facts.recorded, found]
  rfl

theorem Facts.stood {w : World} (facts : Facts w) {id : SessionId} {slot : Slot}
    {account : AccountId} {generation : UInt32}
    (stands : Stands w.calls id slot account generation) :
    w.table.slotOf id = some slot ∧ (w.table.slots slot).generation = generation := by
  obtain ⟨record, recorded, _, age⟩ := (facts.incarnations id slot account generation).mp stands
  rw [facts.recorded] at recorded
  cases found : w.table.slotOf id with
  | none =>
      rw [found] at recorded
      cases recorded
  | some place =>
      rw [found] at recorded
      cases recorded
      exact ⟨rfl, age⟩

theorem Facts.find_iff {w : World} (facts : Facts w) {id : SessionId} {slot : Slot} :
    w.table.slotOf id = some slot ↔
      ∃ account generation, Stands w.calls id slot account generation := by
  constructor
  · intro found
    exact ⟨_, _, (facts.incarnations id slot _ _).mpr ⟨_, facts.found found, rfl, rfl⟩⟩
  · intro stands
    obtain ⟨account, generation, stands⟩ := stands
    exact (facts.stood stands).1

theorem validate_iff {table : Table} {id : SessionId} {generation : UInt32} :
    table.validate id generation = true ↔
      ∃ slot, table.slotOf id = some slot ∧ (table.slots slot).generation = generation := by
  unfold Table.validate
  cases found : table.slotOf id with
  | none => exact ⟨nofun, fun ⟨_, same, _⟩ => nomatch same⟩
  | some slot =>
      constructor
      · intro valid
        exact ⟨slot, rfl, of_decide_eq_true valid⟩
      · intro holds
        obtain ⟨place, same, age⟩ := holds
        cases same
        exact decide_eq_true age

theorem Facts.validate_iff {w : World} (facts : Facts w) {id : SessionId} {generation : UInt32} :
    w.table.validate id generation = true ↔
      ∃ slot account, Stands w.calls id slot account generation := by
  rw [SessionTable.validate_iff]
  constructor
  · intro valid
    obtain ⟨slot, found, age⟩ := valid
    exact ⟨slot, _, (facts.incarnations id slot _ generation).mpr ⟨_, facts.found found, rfl, age⟩⟩
  · intro stands
    obtain ⟨slot, account, stands⟩ := stands
    exact ⟨slot, facts.stood stands⟩

theorem Facts.minted {w : World} (facts : Facts w) {account : AccountId} {slot : Slot}
    (given : (w.table.allocate account).2 = some slot) :
    (w.table.slots slot).id = invalidSession ∧
      w.table.nextId ≠ invalidSession ∧ w.table.nextId ∉ issued w.calls ∧
      (w.table.allocate account).1 = w.table.mint slot account := by
  unfold Table.allocate at given ⊢
  split at given
  · cases given
  next place found =>
    cases given
    have vacant : (w.table.slots slot).id = invalidSession := by simpa using List.find?_some found
    exact ⟨vacant, facts.nextId_valid, facts.fresh, rfl⟩

/-- Every history of calls with fewer than `2 ^ 64 - 1` sessions. -/
theorem session_table_faithful (ops : List Op) (few : Few (run ops).calls) :
    Faithful (run ops) := by
  have facts := run_facts ops few
  refine ⟨⟨facts.once, fun id member => (facts.past id member).1⟩, facts.distinct, facts.count,
    fun account => ⟨allocate_none_iff account, fun refused => ?_⟩, fun id slot => facts.find_iff,
    fun id slot found => ?_, fun id generation => facts.validate_iff, fun id absent => ?_,
    fun account slot => facts.minted, fun id slot found => ?_, fun id slot found => ?_⟩
  · unfold Table.allocate at refused ⊢
    split at refused
    · rfl
    · cases refused
  · exact ⟨facts.found found,
      (facts.incarnations id slot _ _).mpr ⟨_, facts.found found, rfl, rfl⟩⟩
  · have missing : (run ops).table.slotOf id = none := absent
    refine ⟨fun generation => ?_, fun worker => ?_, ?_, ?_⟩
    · rw [Table.validate, missing]
    · rw [Table.markAssigning, missing]
    · rw [Table.markInWorld, missing]
    · rw [Table.remove, missing]
  · have present : (run ops).table.slotOf id = some slot := found
    refine ⟨fun worker => ?_, ?_⟩
    · rw [Table.markAssigning, present]
      rfl
    · rw [Table.markInWorld, present]
      rfl
  · have present : (run ops).table.slotOf id = some slot := found
    have frees : (run ops).table.remove id = ((run ops).table.free slot, true) := by
      rw [Table.remove, present]
    have positive := UInt32.le_iff_toNat_le.mp (facts.count_pos present)
    rw [frees]
    refine ⟨rfl, rfl, rfl, ?_, facts.slotOf_free present⟩
    rw [facts.count_free present]
    exact Nat.sub_add_cancel positive

theorem session_table_faithful_reuse :
    Faithful (run [.allocate 1, .remove 1, .allocate 2, .validate 1 1]) :=
  session_table_faithful _ (by unfold Few; decide)

end NetEngine.SessionTable
