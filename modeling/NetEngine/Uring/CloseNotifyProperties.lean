import NetEngine.Uring.CloseNotify
import NetEngine.Uring.MeshProperties
import NetEngine.Uring.SessionTableProperties

/-! Close-notify never drops and never leaks. A session stands in its slot until
its close is received, so the closes that wait in one pipe, and the one being
posted, are of different live sessions, and all of these fit. -/

set_option autoImplicit false

namespace NetEngine.CloseNotify

open Machine
open SessionTable (Few Facts Slot Table Stands issued sessionCapacity)

/-! ## The message -/

namespace SessionClosedMsg

@[simp] theorem session_encode (msg : SessionClosedMsg) :
    session msg.encode = ⟨msg.id, msg.generation⟩ := by
  have id : LittleEndian.value (msg.encode.take 8) = msg.id.toNat := by
    simp only [encode, List.append_assoc]
    rw [List.take_left' (LittleEndian.bytes_length 8 _)]
    exact LittleEndian.value_bytes msg.id.toNat_lt
  have generation : LittleEndian.value ((msg.encode.drop 8).take 4) = msg.generation.toNat := by
    simp only [encode, List.append_assoc]
    rw [List.drop_left' (LittleEndian.bytes_length 8 _), List.take_left' (LittleEndian.bytes_length 4 _)]
    exact LittleEndian.value_bytes msg.generation.toNat_lt
  rw [session, id, generation, UInt64.ofNat_toNat, UInt32.ofNat_toNat]

def named (msg : SessionClosedMsg) : Session := ⟨msg.id, msg.generation⟩

@[simp] theorem message_session (msg : SessionClosedMsg) : session msg.message.body = msg.named :=
  session_encode msg

theorem frame_length (msg : SessionClosedMsg) : msg.message.frame.length = 28 := by
  rw [Mesh.Message.frame_length]
  change Mesh.frameSize msg.encode.length = 28
  rw [encode_length]
  rfl

theorem frames_length (msgs : List SessionClosedMsg) :
    (Mesh.frames (msgs.map message)).length = 28 * msgs.length := by
  induction msgs with
  | nil => rfl
  | cons msg msgs ih =>
      rw [List.map_cons, Mesh.frames_cons, List.length_append, frame_length, ih, List.length_cons]
      omega

end SessionClosedMsg

/-! ## The table -/

section Table

variable {acceptor : SessionTable.World} {session other : Session}

def Valid (table : Table) (session : Session) : Prop :=
  table.validate session.id session.generation = true

theorem Valid.slot {table : Table} (valid : Valid table session) :
    ∃ slot, table.slotOf session.id = some slot ∧
      (table.slots slot).generation = session.generation :=
  SessionTable.validate_iff.mp valid

theorem Valid.id_inj {table : Table} (valid : Valid table session) (also : Valid table other)
    (same : session.id = other.id) : session = other := by
  obtain ⟨slot, found, age⟩ := valid.slot
  obtain ⟨place, here, stamp⟩ := also.slot
  rw [← same, found] at here
  cases here
  cases session
  cases other
  cases same
  exact congrArg (Session.mk _) (age.symm.trans stamp)

/-- Sessions that are live at one time are no more than there are slots. -/
theorem valid_length_le {table : Table} {sessions : List Session} (distinct : sessions.Nodup)
    (valid : ∀ session ∈ sessions, Valid table session) : sessions.length ≤ sessionCapacity := by
  have slots : (sessions.map fun session => (table.slotOf session.id).getD ⟨0, by decide⟩).Nodup := by
    refine distinct.map_on fun session member other also same => ?_
    obtain ⟨slot, found, _⟩ := (valid session member).slot
    obtain ⟨place, here, _⟩ := (valid other also).slot
    simp only [found, here, Option.getD_some] at same
    cases same
    refine (valid session member).id_inj (valid other also) ?_
    exact (SessionTable.slotOf_some found).2.symm.trans (SessionTable.slotOf_some here).2
  have bound := slots.length_le_card
  rwa [List.length_map, Fintype.card_fin] at bound

/-- What a call does to the sessions that are valid, from what it did to the history. -/
theorem valid_step {op : SessionTable.Op} {call : SessionTable.Call} (session : Session)
    (facts : Facts acceptor) (later : Facts (acceptor.step op))
    (made : (acceptor.table.call op).2 = call) :
    Valid (acceptor.step op).table session ↔
      (∃ slot account,
        call = .allocate account (some (slot, ⟨session.id, session.generation, account, -1, .accepted⟩))) ∨
      Valid acceptor.table session ∧ call ≠ .remove session.id true := by
  have calls : (acceptor.step op).calls = acceptor.calls ++ [call] := by
    rw [← made]
    rfl
  unfold Valid
  rw [later.validate_iff, facts.validate_iff, calls]
  simp only [SessionTable.stands_snoc]
  constructor
  · intro stands
    obtain ⟨slot, account, minted | ⟨before, kept⟩⟩ := stands
    · exact .inl ⟨slot, account, minted⟩
    · exact .inr ⟨⟨slot, account, before⟩, kept⟩
  · intro either
    cases either with
    | inl minted =>
        obtain ⟨slot, account, minted⟩ := minted
        exact ⟨slot, account, .inl minted⟩
    | inr before =>
        obtain ⟨⟨slot, account, stands⟩, kept⟩ := before
        exact ⟨slot, account, .inr ⟨stands, kept⟩⟩

theorem issued_grows {id : SessionTable.SessionId} (op : SessionTable.Op)
    (member : id ∈ issued acceptor.calls) : id ∈ issued (acceptor.step op).calls := by
  change id ∈ issued (acceptor.calls ++ [_])
  rw [SessionTable.issued_snoc]
  exact List.mem_append_left _ member

theorem mark_valid {id : SessionTable.SessionId} {worker : Int32} (facts : Facts acceptor)
    (later : Facts (acceptor.step (.markAssigning id worker))) :
    Valid (acceptor.step (.markAssigning id worker)).table session ↔
      Valid acceptor.table session := by
  have step := valid_step session facts later rfl
  simpa [SessionTable.Table.call] using step

theorem validate_step (acceptor : SessionTable.World) (id : SessionTable.SessionId)
    (generation : UInt32) : (acceptor.step (.validate id generation)).table = acceptor.table := rfl

theorem remove_valid (facts : Facts acceptor) (later : Facts (acceptor.step (.remove session.id)))
    (valid : Valid acceptor.table session) (other : Session) :
    Valid (acceptor.step (.remove session.id)).table other ↔
      Valid acceptor.table other ∧ other ≠ session := by
  obtain ⟨slot, found, _⟩ := valid.slot
  have made : (acceptor.table.call (.remove session.id)).2 = .remove session.id true := by
    simp only [SessionTable.Table.call, SessionTable.Table.remove, found]
  rw [valid_step _ facts later made]
  constructor
  · intro either
    cases either with
    | inl minted =>
        obtain ⟨_, _, minted⟩ := minted
        cases minted
    | inr kept => exact ⟨kept.1, fun same => kept.2 (same ▸ rfl)⟩
  · intro kept
    refine .inr ⟨kept.1, fun same => kept.2 ?_⟩
    exact kept.1.id_inj valid (SessionTable.Call.remove.inj same).1.symm

/-- A minted session is new. -/
theorem allocate_valid {account : SessionTable.AccountId} {slot : Slot} (session : Session)
    (facts : Facts acceptor) (later : Facts (acceptor.step (.allocate account)))
    (minted : (acceptor.table.allocate account).2 = some slot) :
    let record := (acceptor.step (.allocate account)).table.slots slot
    record.id ∉ issued acceptor.calls ∧ record.id ∈ issued (acceptor.step (.allocate account)).calls ∧
      (Valid (acceptor.step (.allocate account)).table session ↔
        session = ⟨record.id, record.generation⟩ ∨ Valid acceptor.table session) := by
  intro record
  have fresh := facts.fresh
  have made : (acceptor.table.call (.allocate account)).2 = .allocate account (some (slot, record)) := by
    simp only [SessionTable.Table.call, minted, SessionTable.Table.at, Option.map_some]
    rfl
  have written : record = ⟨acceptor.table.nextId, (acceptor.table.slots slot).generation + 1,
      account, -1, .accepted⟩ := by
    change (acceptor.table.allocate account).1.slots slot = _
    unfold SessionTable.Table.allocate at minted ⊢
    split at minted
    · cases minted
    next place found =>
      cases minted
      simp [SessionTable.Table.mint, SessionTable.Table.update]
  have history : issued (acceptor.step (.allocate account)).calls =
      issued acceptor.calls ++ [record.id] := by
    change issued (acceptor.calls ++ [(acceptor.table.call (.allocate account)).2]) = _
    rw [made, SessionTable.issued_snoc]
    rfl
  refine ⟨by rw [written]; exact fresh, ?_, ?_⟩
  · rw [history]
    exact List.mem_append_right _ (List.mem_singleton_self _)
  · rw [valid_step _ facts later made]
    constructor
    · intro either
      cases either with
      | inl new =>
          obtain ⟨_, _, same⟩ := new
          have parts := (SessionTable.Call.allocate.inj same).2
          rw [Option.some.injEq, Prod.mk.injEq] at parts
          exact .inl (by rw [parts.2])
      | inr before => exact .inr before.1
    · intro either
      cases either with
      | inl new =>
          refine .inl ⟨slot, account, ?_⟩
          rw [new, written]
      | inr before => exact .inr ⟨before, (by simp)⟩

end Table

/-! ## One pipe -/

/-- What a worker's pipe holds, and what the session whose close is being posted is. -/
structure Carries (phase : Session → Phase) (worker : WorkerId) (edge : Mesh.Edge) : Prop where
  mesh : Mesh.Inv workerToAcceptorPipe SessionClosedMsg.size edge
  whole : ∀ message, edge.posting = some message → ∃ msg : SessionClosedMsg, message = msg.message
  closing : ∀ session, phase session = .closing worker ↔
    ∃ msg : SessionClosedMsg, edge.posting = some msg.message ∧ msg.named = session
  posted : ∃ msgs : List SessionClosedMsg, edge.remaining = msgs.map SessionClosedMsg.message ∧
    (msgs.map SessionClosedMsg.named).Nodup ∧
    ∀ session, session ∈ msgs.map SessionClosedMsg.named ↔ phase session = .posted worker
  accepted : edge.posted ≠ some false

namespace Carries

variable {phase later : Session → Phase} {worker : WorkerId} {edge : Mesh.Edge}

theorem congr (carries : Carries phase worker edge)
    (closing : ∀ session, later session = .closing worker ↔ phase session = .closing worker)
    (posted : ∀ session, later session = .posted worker ↔ phase session = .posted worker) :
    Carries later worker edge := by
  obtain ⟨msgs, remaining, distinct, members⟩ := carries.posted
  exact {
    mesh := carries.mesh
    whole := carries.whole
    closing := fun session => (closing session).trans (carries.closing session)
    posted := ⟨msgs, remaining, distinct, fun session =>
      (members session).trans (posted session).symm⟩
    accepted := carries.accepted }

/-- A session that moves on without touching this pipe. -/
theorem move (carries : Carries phase worker edge) {session : Session} {target : Phase}
    (from_closing : phase session ≠ .closing worker) (from_posted : phase session ≠ .posted worker)
    (to_closing : target ≠ .closing worker) (to_posted : target ≠ .posted worker) :
    Carries (Function.update phase session target) worker edge := by
  refine carries.congr (fun other => ?_) (fun other => ?_)
  · rw [Function.update_apply]
    split
    next same => rw [same]; exact iff_of_false to_closing from_closing
    · rfl
  · rw [Function.update_apply]
    split
    next same => rw [same]; exact iff_of_false to_posted from_posted
    · rfl

theorem start (carries : Carries phase worker edge) (free : edge.posting = none)
    (msg : SessionClosedMsg) (idle : phase msg.named ≠ .posted worker) :
    Carries (Function.update phase msg.named (.closing worker)) worker
      (edge.startPost msg.message) := by
  obtain ⟨msgs, remaining, distinct, members⟩ := carries.posted
  have started : (edge.startPost msg.message).posting = some msg.message ∧
      (edge.startPost msg.message).posted = none ∧
      (edge.startPost msg.message).remaining = edge.remaining := by
    simp only [Mesh.Edge.startPost, free]
    exact ⟨trivial, trivial, rfl⟩
  refine {
    mesh := carries.mesh.startPost (Nat.le_of_eq msg.encode_length)
    whole := fun message posting => ⟨msg, by rw [started.1] at posting; exact (Option.some.inj posting).symm⟩
    closing := fun session => ?_
    posted := ⟨msgs, started.2.2.trans remaining, distinct, fun session => ?_⟩
    accepted := by rw [started.2.1]; simp }
  · rw [started.1, Function.update_apply]
    constructor
    · intro closing
      split at closing
      next same => exact ⟨msg, rfl, same.symm⟩
      · obtain ⟨_, posting, _⟩ := (carries.closing session).mp closing
        rw [free] at posting
        cases posting
    · intro posting
      obtain ⟨other, same, named⟩ := posting
      have body := congrArg (fun message => SessionClosedMsg.session message.body) (Option.some.inj same)
      simp only [SessionClosedMsg.message_session] at body
      rw [if_pos (named.symm.trans body.symm)]
  · rw [members session, Function.update_apply]
    split
    next same => rw [same]; exact iff_of_false idle (by simp)
    · rfl

/-- A session whose close is under way is live, so all closes on one pipe fit. -/
theorem room (carries : Carries phase worker edge) {table : Table}
    (valid : ∀ session, phase session = .closing worker ∨ phase session = .posted worker →
      Valid table session) {msg : SessionClosedMsg} (busy : edge.posting = some msg.message) :
    (Mesh.frames edge.remaining).length + msg.message.frame.length ≤ workerToAcceptorPipe.size := by
  obtain ⟨msgs, remaining, distinct, members⟩ := carries.posted
  have closing : phase msg.named = .closing worker := (carries.closing _).mpr ⟨msg, busy, rfl⟩
  have apart : msg.named ∉ msgs.map SessionClosedMsg.named := by
    rw [members, closing]
    exact nofun
  have each : ∀ session ∈ msg.named :: msgs.map SessionClosedMsg.named, Valid table session := by
    intro session member
    cases List.mem_cons.mp member with
    | inl same => exact same ▸ valid _ (.inl closing)
    | inr waiting => exact valid session (.inr ((members session).mp waiting))
  have few := valid_length_le (List.nodup_cons.mpr ⟨apart, distinct⟩) each
  rw [List.length_cons, List.length_map, sessionCapacity] at few
  rw [remaining, SessionClosedMsg.frames_length, SessionClosedMsg.frame_length]
  change _ ≤ 2 ^ 14
  omega

/-- A post goes on, or its close is in the pipe. -/
theorem produce (carries : Carries phase worker edge) {table : Table}
    (valid : ∀ session, phase session = .closing worker ∨ phase session = .posted worker →
      Valid table session) {msg : SessionClosedMsg} (busy : edge.posting = some msg.message) :
    let next := edge.postStep workerToAcceptorPipe
    next.posting = some msg.message ∧ Carries phase worker next ∨
      next.posting = none ∧ next.posted = some true ∧
        Carries (Function.update phase msg.named (.posted worker)) worker next := by
  intro next
  obtain ⟨msgs, remaining, distinct, members⟩ := carries.posted
  obtain ⟨received, outcome⟩ := carries.mesh.postStep_roomy busy (carries.room valid busy)
  have closing : phase msg.named = .closing worker := (carries.closing _).mpr ⟨msg, busy, rfl⟩
  cases outcome with
  | inl goes =>
      obtain ⟨posting, accepted, posted⟩ := goes
      refine .inl ⟨posting, {
        mesh := carries.mesh.postStep
        whole := by rw [posting, ← busy]; exact carries.whole
        closing := by rw [posting, ← busy]; exact carries.closing
        posted := ⟨msgs, ?_, distinct, members⟩
        accepted := by rw [posted]; exact carries.accepted }⟩
      rw [← remaining, Mesh.Edge.remaining, accepted, received]
      rfl
  | inr done =>
      obtain ⟨posting, posted, accepted⟩ := done
      have apart : msg.named ∉ msgs.map SessionClosedMsg.named := by
        rw [members, closing]
        simp
      refine .inr ⟨posting, posted, {
        mesh := carries.mesh.postStep
        whole := by rw [posting]; simp
        closing := fun session => ?_
        posted := ⟨msgs ++ [msg], ?_, ?_, fun session => ?_⟩
        accepted := by rw [posted]; simp }⟩
      · rw [posting, Function.update_apply]
        refine iff_of_false ?_ (by simp)
        split
        · simp
        next other =>
          intro also
          obtain ⟨second, same, named⟩ := (carries.closing session).mp also
          rw [busy] at same
          have body := congrArg (fun message => SessionClosedMsg.session message.body)
            (Option.some.inj same)
          simp only [SessionClosedMsg.message_session] at body
          exact other (named.symm.trans body.symm)
      · rw [Mesh.Edge.remaining, accepted, received,
          List.drop_append_of_le_length carries.mesh.received_le, List.map_append, ← remaining]
        rfl
      · rw [List.map_append]
        exact distinct.append (List.nodup_singleton _) fun session member also =>
          apart ((List.mem_singleton.mp also) ▸ member)
      · rw [List.map_append, List.mem_append, members session, Function.update_apply]
        split
        next same => exact iff_of_true (.inr (List.mem_singleton.mpr same)) rfl
        next other =>
          exact or_iff_left fun also => other (List.mem_singleton.mp also)

theorem recv (carries : Carries phase worker edge) :
    Carries phase worker (edge.startRecv Mesh.bodyMax) := by
  have same : (edge.startRecv Mesh.bodyMax).posting = edge.posting ∧
      (edge.startRecv Mesh.bodyMax).posted = edge.posted ∧
      (edge.startRecv Mesh.bodyMax).remaining = edge.remaining := by
    unfold Mesh.Edge.startRecv
    split <;> exact ⟨rfl, rfl, rfl⟩
  exact {
    mesh := carries.mesh.startRecv (by decide)
    whole := by rw [same.1]; exact carries.whole
    closing := by rw [same.1]; exact carries.closing
    posted := by rw [same.2.2]; exact carries.posted
    accepted := by rw [same.2.1]; exact carries.accepted }

/-- A receive goes on, or hands out the oldest close on this pipe. -/
theorem consume (carries : Carries phase worker edge) :
    let next := edge.recvStep workerToAcceptorPipe
    next.received = edge.received ∧ Carries phase worker next ∨
      ∃ msg : SessionClosedMsg, next.received = edge.received ++ [msg.message.delivery] ∧
        phase msg.named = .posted worker ∧
        Carries (Function.update phase msg.named .removed) worker next := by
  intro next
  obtain ⟨msgs, remaining, distinct, members⟩ := carries.posted
  have kept : next.posting = edge.posting := (Mesh.recvStep_kept _ edge).posting
  have posted : next.posted = edge.posted := Mesh.recvStep_posted _ edge
  cases carries.mesh.recvStep_received with
  | inl quiet =>
      refine .inl ⟨quiet.1, {
        mesh := carries.mesh.recvStep
        whole := by rw [kept]; exact carries.whole
        closing := by rw [kept]; exact carries.closing
        posted := ⟨msgs, quiet.2.trans remaining, distinct, members⟩
        accepted := by rw [posted]; exact carries.accepted }⟩
  | inr handed =>
      obtain ⟨message, oldest, received⟩ := handed
      cases msgs with
      | nil =>
          rw [remaining] at oldest
          cases oldest
      | cons msg msgs =>
          rw [remaining, List.map_cons] at oldest
          obtain ⟨same, rest⟩ := List.cons.inj oldest
          have waiting : phase msg.named = .posted worker :=
            (members _).mp List.mem_cons_self
          rw [List.map_cons, List.nodup_cons] at distinct
          have moved : Carries (Function.update phase msg.named .removed) worker next := {
            mesh := carries.mesh.recvStep
            whole := by rw [kept]; exact carries.whole
            closing := fun session => by
              rw [kept, ← carries.closing session, Function.update_apply]
              split
              next same => rw [same, waiting]; exact iff_of_false nofun nofun
              · rfl
            posted := ⟨msgs, rest.symm, distinct.2, fun session => by
              have member := members session
              rw [List.map_cons, List.mem_cons] at member
              rw [Function.update_apply]
              split
              next same => exact iff_of_false (same ▸ distinct.1) nofun
              next other => exact (or_iff_right other).symm.trans member⟩
            accepted := by rw [posted]; exact carries.accepted }
          exact .inr ⟨msg, same ▸ received, waiting, moved⟩

end Carries

/-! ## The system -/

/-- A close that came for the first time frees the slot of its session; one that
came before changes nothing. -/
def Receipt.Right (receipt : Receipt) : Prop :=
  if receipt.replayed then receipt.after = receipt.before
  else Valid receipt.before receipt.session ∧ ∃ slot,
    receipt.before.slotOf receipt.session.id = some slot ∧
      receipt.after = receipt.before.free slot

structure Ok (w : World) : Prop where
  facts : Facts w.acceptor
  born : ∀ session, w.phase session ≠ .unborn → session.id ∈ issued w.acceptor.calls
  standing : ∀ session, Valid w.table session ↔ (w.phase session).Standing
  carries : ∀ worker, Carries w.phase worker (w.edges worker)
  kept : ∀ session, w.phase session ≠ .dropped
  receipts : ∀ receipt ∈ w.receipts, receipt.Right

namespace Ok

variable {w : World} {session : Session} {worker : WorkerId}

theorem init : Ok .init where
  facts := .init
  born := fun _ born => absurd rfl born
  standing := fun session => by
    have empty : ¬ Valid World.init.table session := by
      intro valid
      obtain ⟨slot, found, _⟩ := valid.slot
      obtain ⟨live, same⟩ := SessionTable.slotOf_some found
      exact live same.symm
    exact iff_of_false empty fun standing => standing.1 rfl
  carries := fun worker => {
    mesh := .init _ _
    whole := nofun
    closing := fun session => iff_of_false nofun nofun
    posted := ⟨[], rfl, List.nodup_nil, fun session => iff_of_false nofun nofun⟩
    accepted := nofun }
  kept := nofun
  receipts := nofun

/-- A session moves to another phase in which it stands as before. -/
theorem move (ok : Ok w) (session : Session) (phase : Phase) {acceptor : SessionTable.World}
    (facts : Facts acceptor)
    (valid : ∀ session, Valid acceptor.table session ↔ Valid w.table session)
    (history : ∀ id ∈ issued w.acceptor.calls, id ∈ issued acceptor.calls)
    (from_standing : (w.phase session).Standing) (to_standing : phase.Standing)
    (kept : phase ≠ .dropped) {edges : WorkerId → Mesh.Edge}
    (carries : ∀ worker, Carries (Function.update w.phase session phase) worker (edges worker)) :
    Ok { w with acceptor, edges, phase := Function.update w.phase session phase } where
  facts
  born := fun other => by
    change Function.update w.phase session phase other ≠ .unborn → _
    rw [Function.update_apply]
    split
    next same =>
      intro _
      rw [same]
      exact history _ (ok.born session from_standing.1)
    · exact fun born => history _ (ok.born other born)
  standing := fun other => by
    change Valid acceptor.table other ↔ (Function.update w.phase session phase other).Standing
    rw [valid, ok.standing, Function.update_apply]
    split
    next same => rw [same]; exact iff_of_true from_standing to_standing
    · rfl
  carries
  kept := fun other => by
    change Function.update w.phase session phase other ≠ .dropped
    rw [Function.update_apply]
    split
    · exact kept
    · exact ok.kept other
  receipts := ok.receipts

theorem setEdge (ok : Ok w) {edge : Mesh.Edge} (carries : Carries w.phase worker edge) :
    Ok (w.setEdge worker edge) where
  facts := ok.facts
  born := ok.born
  standing := ok.standing
  carries := fun other => by
    change Carries w.phase other (Function.update w.edges worker edge other)
    rw [Function.update_apply]
    split
    next same => exact same ▸ carries
    · exact ok.carries other
  kept := ok.kept
  receipts := ok.receipts

theorem adopt (ok : Ok w) : Ok (w.adopt session) := by
  unfold World.adopt
  split
  next worker assigned =>
    refine ok.move session (.owned worker) ok.facts (fun _ => Iff.rfl) (fun _ member => member) ?_
      ⟨nofun, nofun⟩ nofun fun other => (ok.carries other).move ?_ ?_ nofun nofun
    all_goals rw [assigned]
    · exact ⟨nofun, nofun⟩
    · exact nofun
    · exact nofun
  · exact ok

theorem assign (ok : Ok w) (later : Facts (w.acceptor.step (.markAssigning session.id worker.toInt32))) :
    Ok (w.assign session worker) := by
  unfold World.assign
  split
  next minted =>
    refine ok.move session (.assigned worker) later (fun _ => mark_valid ok.facts later)
      (fun _ member => issued_grows _ member) ?_ ⟨nofun, nofun⟩ nofun
      fun other => (ok.carries other).move ?_ ?_ nofun nofun
    all_goals rw [minted]
    · exact ⟨nofun, nofun⟩
    · exact nofun
    · exact nofun
  · exact ok

theorem close (ok : Ok w) (reason padding : UInt32) : Ok (w.close session reason padding) := by
  unfold World.close
  split
  next worker owned =>
    split
    next free =>
      refine ok.move session (.closing worker) ok.facts (fun _ => Iff.rfl) (fun _ member => member)
        ?_ ⟨nofun, nofun⟩ nofun fun other => ?_
      · rw [owned]
        exact ⟨nofun, nofun⟩
      · change Carries _ other (Function.update w.edges worker _ other)
        rw [Function.update_apply]
        split
        next same =>
          cases same
          refine (ok.carries worker).start (Option.isNone_iff_eq_none.mp free)
            ⟨session.id, session.generation, worker, reason, padding⟩ ?_
          change w.phase session ≠ _
          rw [owned]
          exact nofun
        next apart =>
          refine (ok.carries other).move ?_ ?_ ?_ nofun
          · rw [owned]; exact nofun
          · rw [owned]; exact nofun
          · exact fun same => apart (Phase.closing.inj same).symm
    · exact ok
  · exact ok

theorem underway (ok : Ok w) (worker : WorkerId) (session : Session)
    (closing : w.phase session = .closing worker ∨ w.phase session = .posted worker) :
    Valid w.table session := by
  rw [ok.standing]
  cases closing with
  | inl posting => rw [posting]; exact ⟨nofun, nofun⟩
  | inr waiting => rw [waiting]; exact ⟨nofun, nofun⟩

theorem accept (ok : Ok w) {account : SessionTable.AccountId}
    (later : Facts (w.acceptor.step (.allocate account))) : Ok (w.accept account) := by
  unfold World.accept
  simp only
  cases minted : (w.table.allocate account).2 with
  | none =>
      have same (session : Session) :
          Valid (w.acceptor.step (.allocate account)).table session ↔ Valid w.table session := by
        have made : (w.acceptor.table.call (.allocate account)).2 = .allocate account none := by
          change (w.acceptor.table.allocate account).2 = none at minted
          simp only [SessionTable.Table.call, minted, SessionTable.Table.at, Option.map_none]
        rw [valid_step _ ok.facts later made]
        constructor
        · intro either
          cases either with
          | inl new =>
              obtain ⟨_, _, new⟩ := new
              cases new
          | inr valid => exact valid.1
        · exact fun valid => .inr ⟨valid, (by simp)⟩
      exact {
        facts := later
        born := fun session born => issued_grows _ (ok.born session born)
        standing := fun session => (same session).trans (ok.standing session)
        carries := ok.carries
        kept := ok.kept
        receipts := ok.receipts }
  | some slot =>
      obtain ⟨fresh, known, _⟩ := allocate_valid ⟨0, 0⟩ ok.facts later minted
      simp only
      generalize new : Session.mk ((w.acceptor.step (.allocate account)).table.slots slot).id
        ((w.acceptor.step (.allocate account)).table.slots slot).generation = session
      have unborn : w.phase session = .unborn := by
        refine Classical.byContradiction fun born => fresh ?_
        have known := ok.born session born
        rw [← new] at known
        exact known
      exact {
        facts := later
        born := fun other => by
          change Function.update w.phase session .minted other ≠ .unborn → _
          rw [Function.update_apply]
          split
          next same =>
            intro _
            rw [same, ← new]
            exact known
          · exact fun born => issued_grows _ (ok.born other born)
        standing := fun other => by
          have step := (allocate_valid other ok.facts later minted).2.2
          rw [new] at step
          change Valid (w.acceptor.step (.allocate account)).table other ↔
            (Function.update w.phase session .minted other).Standing
          rw [step, Function.update_apply]
          split
          next same => exact iff_of_true (.inl same) ⟨(by simp), (by simp)⟩
          next apart => rw [or_iff_right apart]; exact ok.standing other
        carries := fun worker => by
          refine (ok.carries worker).move ?_ ?_ (by simp) (by simp)
          · rw [unborn]; simp
          · rw [unborn]; simp
        kept := fun other => by
          change Function.update w.phase session .minted other ≠ .dropped
          rw [Function.update_apply]
          split
          · simp
          · exact ok.kept other
        receipts := ok.receipts }

theorem produce (ok : Ok w) : Ok (w.produce worker) := by
  unfold World.produce
  simp only
  cases posting : (w.edges worker).posting with
  | none =>
      have idle := Mesh.postStep_idle workerToAcceptorPipe posting
      have carries := ok.carries worker
      have mesh := carries.mesh.postStep
      rw [idle] at mesh ⊢
      exact ok.setEdge ⟨mesh, carries.whole, carries.closing, carries.posted, carries.accepted⟩
  | some message =>
      obtain ⟨msg, rfl⟩ := (ok.carries worker).whole message posting
      cases (ok.carries worker).produce (ok.underway worker) posting with
      | inl goes => 
          rw [goes.1]
          exact ok.setEdge goes.2
      | inr done =>
          obtain ⟨free, accepted, carries⟩ := done
          have closing : w.phase msg.named = .closing worker :=
            ((ok.carries worker).closing _).mpr ⟨msg, posting, rfl⟩
          rw [free, accepted]
          simp only [SessionClosedMsg.message_session, if_true]
          refine ok.move msg.named (.posted worker) ok.facts (fun _ => Iff.rfl)
            (fun _ member => member) ?_ ⟨nofun, nofun⟩ nofun fun other => ?_
          · rw [closing]
            exact ⟨nofun, nofun⟩
          · change Carries _ other (Function.update w.edges worker _ other)
            rw [Function.update_apply]
            split
            next same => exact same ▸ carries
            next apart =>
              refine (ok.carries other).move ?_ ?_ nofun ?_
              · rw [closing]
                exact fun same => apart (Phase.closing.inj same).symm
              · rw [closing]
                exact nofun
              · exact fun same => apart (Phase.posted.inj same).symm

/-- A close that comes for the first time. -/
theorem receive (ok : Ok w) {msg : SessionClosedMsg} {edge : Mesh.Edge}
    (waiting : w.phase msg.named = .posted worker)
    (carries : Carries (Function.update w.phase msg.named .removed) worker edge)
    (few : Few ((w.setEdge worker edge).receive msg.message.delivery).acceptor.calls) :
    Ok ((w.setEdge worker edge).receive msg.message.delivery) := by
  have valid : Valid w.table msg.named := ok.underway worker _ (.inr waiting)
  have session : SessionClosedMsg.session msg.message.delivery.body = msg.named :=
    msg.message_session
  have type : msg.message.delivery.header.type = sessionClosed := rfl
  have checked : (w.setEdge worker edge).table.validate msg.named.id msg.named.generation = true :=
    valid
  simp only [World.receive, if_pos type, session, checked, if_true, World.closed] at few ⊢
  have first : Facts (w.acceptor.step (.validate msg.named.id msg.named.generation)) :=
    ok.facts.step _ (Nat.lt_of_le_of_lt (SessionTable.issued_step _ _) few)
  have last := first.step _ few
  have gone := remove_valid first last valid
  obtain ⟨slot, found, _⟩ := valid.slot
  exact {
    facts := last
    born := fun other => by
      change Function.update w.phase msg.named .removed other ≠ .unborn → _
      rw [Function.update_apply]
      split
      next same =>
        intro _
        rw [same]
        exact issued_grows _ (issued_grows _ (ok.born msg.named (by rw [waiting]; exact nofun)))
      · exact fun born => issued_grows _ (issued_grows _ (ok.born other born))
    standing := fun other => by
      refine (gone other).trans ?_
      change _ ↔ (Function.update w.phase msg.named .removed other).Standing
      rw [validate_step, Function.update_apply]
      split
      next same => exact iff_of_false (fun kept => kept.2 same) fun standing => standing.2 rfl
      next apart => exact (and_iff_left apart).trans (ok.standing other)
    carries := fun other => by
      change Carries (Function.update w.phase msg.named .removed) other
        (Function.update w.edges worker edge other)
      rw [Function.update_apply]
      split
      next same => exact same ▸ carries
      next apart =>
        refine (ok.carries other).move ?_ ?_ nofun nofun
        · rw [waiting]; exact nofun
        · rw [waiting]; exact fun same => apart (Phase.posted.inj same).symm
    kept := fun other => by
      change Function.update w.phase msg.named .removed other ≠ .dropped
      rw [Function.update_apply]
      split
      · exact nofun
      · exact ok.kept other
    receipts := fun receipt member => by
      cases List.mem_append.mp member with
      | inl before => exact ok.receipts receipt before
      | inr new =>
          rw [List.mem_singleton.mp new]
          refine ⟨valid, slot, found, ?_⟩
          change (w.table.remove msg.named.id).1 = w.table.free slot
          rw [SessionTable.Table.remove, found] }

theorem consume (ok : Ok w) (few : Few (w.consume worker).acceptor.calls) :
    Ok (w.consume worker) := by
  unfold World.consume at few ⊢
  simp only at few ⊢
  cases (ok.carries worker).consume with
  | inl quiet =>
      rw [quiet.1, List.drop_length]
      exact ok.setEdge quiet.2
  | inr handed =>
      obtain ⟨msg, received, waiting, carries⟩ := handed
      rw [received, List.drop_left] at few ⊢
      exact ok.receive waiting carries few

theorem removed_stale (ok : Ok w) (removed : w.phase session = .removed) :
    w.table.validate session.id session.generation = false := by
  rw [Bool.eq_false_iff]
  intro valid
  have standing := (ok.standing session).mp valid
  exact standing.2 removed

theorem replay (ok : Ok w) (few : Few (w.replay session).acceptor.calls) : Ok (w.replay session) := by
  unfold World.replay at few ⊢
  split at few
  next removed =>
    have stale := ok.removed_stale removed
    rw [if_pos removed]
    simp only [World.closed, stale, Bool.false_eq_true, if_false] at few ⊢
    exact {
      facts := ok.facts.step _ few
      born := fun other born => issued_grows _ (ok.born other born)
      standing := ok.standing
      carries := ok.carries
      kept := ok.kept
      receipts := fun receipt member => by
        cases List.mem_append.mp member with
        | inl before => exact ok.receipts receipt before
        | inr new =>
            rw [List.mem_singleton.mp new]
            rfl }
  next standing =>
    rw [if_neg standing]
    exact ok

end Ok

/-! ## Runs -/

/-- The acceptor's table moves by calls only. -/
theorem acceptor_calls (w : World) (event : Event) :
    ∃ ops, (w.step event).acceptor = Machine.run SessionTable.World.step w.acceptor ops := by
  have closed (w : World) (session : Session) (replayed : Bool) :
      ∃ ops, (w.closed session replayed).acceptor =
        Machine.run SessionTable.World.step w.acceptor ops := by
    unfold World.closed
    simp only
    split
    · exact ⟨[.validate session.id session.generation, .remove session.id], rfl⟩
    · exact ⟨[.validate session.id session.generation], rfl⟩
  cases event with
  | accept account =>
      refine ⟨[.allocate account], ?_⟩
      change (w.accept account).acceptor = _
      unfold World.accept
      simp only
      split <;> rfl
  | assign session worker =>
      change ∃ ops, (w.assign session worker).acceptor = _
      unfold World.assign
      split
      · exact ⟨[.markAssigning session.id worker.toInt32], rfl⟩
      · exact ⟨[], rfl⟩
  | adopt session =>
      refine ⟨[], ?_⟩
      change (w.adopt session).acceptor = _
      unfold World.adopt
      split <;> rfl
  | close session reason padding =>
      refine ⟨[], ?_⟩
      change (w.close session reason padding).acceptor = _
      unfold World.close
      split
      · split <;> rfl
      · rfl
  | produce worker =>
      refine ⟨[], ?_⟩
      change (w.produce worker).acceptor = _
      unfold World.produce
      simp only
      split <;> rfl
  | recv worker => exact ⟨[], rfl⟩
  | consume worker =>
      change ∃ ops, (w.consume worker).acceptor = _
      unfold World.consume
      simp only
      split
      · unfold World.receive
        split
        · exact closed (w.setEdge worker _) _ false
        · exact ⟨[], rfl⟩
      · exact ⟨[], rfl⟩
  | replay session =>
      change ∃ ops, (w.replay session).acceptor = _
      unfold World.replay
      split
      · exact closed _ _ _
      · exact ⟨[], rfl⟩

/-- No event forgets a session that was minted. -/
theorem issued_step (w : World) (event : Event) :
    (issued w.acceptor.calls).length ≤ (issued (w.step event).acceptor.calls).length := by
  obtain ⟨ops, same⟩ := acceptor_calls w event
  rw [same]
  have keeps : ∀ (later : SessionTable.World) op,
      (issued w.acceptor.calls).length ≤ (issued later.calls).length →
      (issued w.acceptor.calls).length ≤ (issued (later.step op).calls).length :=
    fun later op grown => Nat.le_trans grown (SessionTable.issued_step later op)
  exact run_keeps keeps (Nat.le_refl _) ops

theorem Ok.step {w : World} (ok : Ok w) (event : Event) (few : Few (w.step event).acceptor.calls) :
    Ok (w.step event) := by
  cases event with
  | accept account =>
      refine ok.accept (ok.facts.step _ ?_)
      change Few (w.accept account).acceptor.calls at few
      unfold World.accept at few
      simp only at few
      split at few <;> exact few
  | assign session worker =>
      change Few (w.assign session worker).acceptor.calls at few
      change Ok (w.assign session worker)
      cases minted : decide (w.phase session = .minted) with
      | true =>
          refine ok.assign (ok.facts.step _ ?_)
          rw [World.assign, if_pos (of_decide_eq_true minted)] at few
          exact few
      | false =>
          rw [World.assign, if_neg (of_decide_eq_false minted)]
          exact ok
  | adopt session => exact ok.adopt
  | close session reason padding => exact ok.close reason padding
  | produce worker => exact ok.produce
  | recv worker => exact ok.setEdge (ok.carries worker).recv
  | consume worker => exact ok.consume few
  | replay session => exact ok.replay few

theorem run_ok (events : List Event) (few : Few (run events).acceptor.calls) : Ok (run events) := by
  have keeps : ∀ w event, (Few w.acceptor.calls → Ok w) →
      Few (World.step w event).acceptor.calls → Ok (w.step event) :=
    fun w event ok few => (ok (Nat.lt_of_le_of_lt (issued_step w event) few)).step event few
  exact run_keeps keeps (fun _ => .init) events few

/-- Every close that was posted is received. -/
def World.Settled (w : World) : Prop := ∀ worker, (w.edges worker).remaining = []

/-- What the rule for the callers buys, in any reachable state. -/
structure Lossless (w : World) : Prop where
  /-- No close is refused. -/
  accepted : ∀ worker, (w.edges worker).posted ≠ some false
  untrapped : ∀ worker, (w.edges worker).stage ≠ .trapped
  /-- A close that is received validates, and frees the slot of its session and
  no other; one that comes again changes nothing. -/
  receipts : ∀ receipt ∈ w.receipts, receipt.Right
  /-- A close of any session that is not live, in a slot used again or not, is discarded. -/
  stale : ∀ session replayed, ¬ (w.phase session).Standing →
    (w.closed session replayed).table = w.table
  /-- The table holds the sessions whose close was not received. -/
  holds : ∀ session, Valid w.table session ↔ (w.phase session).Standing
  /-- With every posted close received, these are the sessions not yet closed. -/
  settled : w.Settled → ∀ session, Valid w.table session ↔ (w.phase session).Open

/-- Every interleaving, with fewer than `2 ^ 64 - 1` sessions in the life of the process. -/
theorem close_notify_lossless (events : List Event) (few : Few (run events).acceptor.calls) :
    Lossless (run events) := by
  have ok := run_ok events few
  refine ⟨fun worker => (ok.carries worker).accepted, fun worker trapped => ?_, ok.receipts,
    fun session replayed gone => ?_, ok.standing, fun quiet session => ?_⟩
  · have receiving := (ok.carries worker).mesh.receiving
    simp only [Mesh.Receiving, trapped] at receiving
  · have stale : (run events).table.validate session.id session.generation = false := by
      rw [Bool.eq_false_iff]
      exact fun valid => gone ((ok.standing session).mp valid)
    simp only [World.closed, stale, Bool.false_eq_true, if_false]
    rfl
  · rw [ok.standing]
    have empty (worker : WorkerId) : (run events).phase session ≠ .posted worker := by
      intro waiting
      obtain ⟨msgs, remaining, _, members⟩ := (ok.carries worker).posted
      rw [quiet worker] at remaining
      have member := (members session).mpr waiting
      rw [List.map_eq_nil_iff.mp remaining.symm] at member
      cases member
    have kept := ok.kept session
    cases phase : (run events).phase session with
    | unborn => exact iff_of_false (fun standing => standing.1 rfl) id
    | minted | assigned | owned | closing => exact iff_of_true ⟨(by simp), (by simp)⟩ trivial
    | posted worker => exact absurd phase (empty worker)
    | dropped => exact absurd phase kept
    | removed => exact iff_of_false (fun standing => standing.2 rfl) id

/-- One session, from its minting to its close, which a worker posts in six steps and the
acceptor receives in nineteen. The slot is used again, and the close comes once more. -/
def oneClose : List Event :=
  [.accept 7, .assign ⟨1, 1⟩ 0, .adopt ⟨1, 1⟩, .close ⟨1, 1⟩ 0 0] ++ List.replicate 6 (.produce 0) ++
    [.recv 0] ++ List.replicate 19 (.consume 0) ++ [.accept 8, .replay ⟨1, 1⟩]

theorem close_notify_lossless_one_close :
    Lossless (run oneClose) ∧ (run oneClose).phase ⟨1, 1⟩ = .removed ∧
      (run oneClose).receipts.map Receipt.replayed = [false, true] ∧
      Valid (run oneClose).table ⟨2, 2⟩ :=
  ⟨close_notify_lossless _ (by unfold Few; decide +kernel), by decide +kernel, by decide +kernel,
    by unfold Valid; decide +kernel⟩

end NetEngine.CloseNotify
