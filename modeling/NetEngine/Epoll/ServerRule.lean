import NetEngine.Epoll.FrameSizes
import NetEngine.Epoll.ServerRuns
import NetEngine.Library.Machine

/-! The induction rule of `server.cpp`: what its quiet calls, its packets, its accepts and
its departures keep, every pass of the main loop keeps. It also speaks of the tick buffers,
which the event loop of `Chat` does not know. -/

set_option autoImplicit false

namespace NetEngine.Epoll.Server

open Socket

namespace World

variable {k : Kernel} {cfg : Config} {w : World} {fd : Fd}

/-! ## The tick buffers -/

/-- What stage C records, and what it leaves out. -/
def ledger (w : World) : List (Bytes × Bytes) × Nat := (w.tickBuf, w.tickDropped)

@[simp] theorem update_ledger (change : Conn → Conn) : (w.update fd change).ledger = w.ledger := rfl
@[simp] theorem emit_ledger (obs : Obs Bytes) : (w.emit obs).ledger = w.ledger := rfl
@[simp] theorem asked_ledger : w.asked.ledger = w.ledger := rfl

@[simp] theorem updateEpollMask_ledger : (w.updateEpollMask k fd).ledger = w.ledger := by
  unfold updateEpollMask
  split
  · rfl
  · simp only
    split
    · rfl
    · cases k.modify w.clock <;> rfl

@[simp] theorem doom_ledger : (w.doom fd).ledger = w.ledger := by
  unfold doom
  split
  · rfl
  · split <;> rfl

@[simp] theorem enqueue_ledger {type : UInt16} {payload : Bytes} :
    (w.enqueue fd type payload).ledger = w.ledger := by
  unfold enqueue
  split
  · rfl
  · split
    · exact doom_ledger
    · rfl

@[simp] theorem queueSend_ledger {type : UInt16} {payload : Bytes} :
    (queueSend type payload w fd).ledger = w.ledger := by
  unfold queueSend
  split
  · rfl
  · split
    · rfl
    · split
      · rfl
      · exact enqueue_ledger

@[simp] theorem queueTickFrame_ledger {payload : Bytes} :
    (queueTickFrame payload w fd).ledger = w.ledger := by
  unfold queueTickFrame
  split
  · rfl
  · split
    · rfl
    · exact enqueue_ledger

@[simp] theorem flushSend_ledger : (w.flushSend k fd).ledger = w.ledger := by
  unfold flushSend
  split
  · rfl
  · split
    · exact updateEpollMask_ledger
    · simp only
      split
      · exact doom_ledger
      · exact updateEpollMask_ledger

@[simp] theorem afterQueue_ledger : (w.afterQueue k cfg fd).ledger = w.ledger := by
  unfold afterQueue
  split
  · unfold markDirty
    split
    · rfl
    · split <;> rfl
  · exact flushSend_ledger

@[simp] theorem deliver_ledger {type : UInt16} {payload : Bytes} :
    (w.deliver k cfg (queueSend type payload) fd).ledger = w.ledger := by
  unfold deliver
  split
  · rfl
  · split
    · rfl
    · rw [afterQueue_ledger, queueSend_ledger]

@[simp] theorem broadcast_ledger {room payload : Bytes} {type : UInt16} {exceptFd : Option Fd} :
    (w.broadcast k cfg room type payload exceptFd).ledger = w.ledger := by
  unfold broadcast
  split
  · rfl
  next members _ =>
    have walk : ∀ (fds : List Fd) (w : World),
        (fds.foldl (fun w fd => if some fd = exceptFd then w
          else w.deliver k cfg (queueSend type payload) fd) w).ledger = w.ledger := by
      intro fds
      induction fds with
      | nil => exact fun _ => rfl
      | cons fd fds ih =>
          intro w
          rw [List.foldl_cons, ih]
          split
          · rfl
          · exact deliver_ledger
    exact walk _ w.asked

@[simp] theorem flushDirtyOne_ledger : (flushDirtyOne k w fd).ledger = w.ledger := by
  unfold flushDirtyOne
  split
  · rfl
  · simp only
    split
    · rfl
    · rw [flushSend_ledger, update_ledger]

/-! ## Quiet calls -/

/-- Only the send sides moved, and of frames only notices were queued. -/
structure Quiet (w after : World) : Prop where
  rooms : after.rooms = w.rooms
  ledger : after.ledger = w.ledger
  sends : Sends True (fun type => type = sNotice) w.state after.state
  under : Grows (Obs.Under maxPayload) w.state after.state

namespace Quiet

variable {middle after : World}

theorem refl (w : World) : Quiet w w := ⟨rfl, rfl, .refl w.state, .same rfl⟩

theorem trans (first : Quiet w middle) (second : Quiet middle after) : Quiet w after :=
  ⟨second.rooms.trans first.rooms, second.ledger.trans first.ledger,
    first.sends.trans second.sends, first.under.trans second.under⟩

/-- A call that queues nothing. -/
theorem silent (rooms : after.rooms = w.rooms) (ledger : after.ledger = w.ledger)
    (sends : Sends True (fun _ => False) w.state after.state) : Quiet w after :=
  ⟨rooms, ledger, sends.weaken id fun _ => False.elim, sends.under⟩

theorem sound (quiet : Quiet w after) (sound : Sound w) : Sound after :=
  sound.of_sends quiet.rooms (quiet.sends.weaken id fun _ _ => trivial)

end Quiet

theorem doom_quiet : Quiet w (w.doom fd) :=
  .silent doom_rooms doom_ledger (by rw [state_doom]; exact State.doom_sends)

theorem flushSend_quiet : Quiet w (w.flushSend k fd) := by
  have flushes : Flushes (rules k ⟨false, false, 0⟩) fd w.state (w.flushSend k fd).state :=
    flushSend_flushes
  exact .silent flushSend_rooms flushSend_ledger flushes.sends

theorem afterQueue_quiet : Quiet w (w.afterQueue k cfg fd) :=
  .silent afterQueue_rooms afterQueue_ledger (@afterQueue_follows k cfg w fd).sends

theorem broadcast_quiet {room text : Bytes} {exceptFd : Option Fd} (agree : RoomsAgree w) :
    Quiet w (w.broadcast k cfg room sNotice text exceptFd) :=
  have told := @broadcast_broadcasts k cfg w room text sNotice exceptFd agree
  ⟨broadcast_rooms, broadcast_ledger, told.sends rfl, told.under⟩

theorem flushDirtyOne_quiet : Quiet w (flushDirtyOne k w fd) := by
  refine .silent flushDirtyOne_rooms flushDirtyOne_ledger ?_
  by_cases opened : w.state.Open fd
  · obtain ⟨done, _, same⟩ := @state_flushDirtyOne_open k w fd ⟨false, false, 0⟩ opened
    rw [same]
    exact State.clean_sends.trans State.flushSend_sends
  · rw [state_flushDirtyOne_shut opened]
    exact State.clean_sends

end World

/-! ## The rule -/

/-- An event that only says where the program is. -/
def Marks : Obs Bytes → Prop
  | .wake | .refused _ | .recv .. | .handled .. | .oversize _ | .parsed .. => True
  | _ => False

/-- What the parts of the main loop keep, ticks apart. -/
structure Keeps (k : Kernel) (cfg : Config) (holds : World → Prop) : Prop where
  quiet : ∀ w after : World, w.Quiet after → holds w → holds after
  mark : ∀ (w : World) (obs : Obs Bytes), Marks obs → holds w → holds (w.emit obs)
  erase : ∀ (w : World) (fd : Fd) (size : Nat), holds w → holds (w.eraseInput fd size)
  receive : ∀ (w : World) (fd : Fd) (c : Conn) (chunk : Bytes), w.conns fd = some c →
    c.input.length + chunk.length ≤ maxPayload + headerSize + 65536 → holds w →
    holds ((w.emit (.recv fd chunk)).appendInput fd chunk)
  packet : ∀ (w : World) (fd : Fd) (c : Conn) (type : UInt16) (payload : Bytes), w.Sound →
    w.conns fd = some c → c.closing = false → holds w →
    holds ((w.emit (.packet w.clients fd type payload)).handlePacket k cfg fd type payload)
  accept : ∀ (w : World) (fd : Fd), w.Sound → w.conns fd = none → w.size < cfg.maxConns →
    holds w → holds (w.emplace fd)
  depart : ∀ (w : World) (fd : Fd) (c : Conn), w.Sound → w.conns fd = some c → holds w →
    holds (((w.emit (.departs w.clients fd)).depart k cfg fd c).close fd)
  lists : ∀ (w : World) (doomed dirty : List Fd) (running : Bool), holds w →
    holds { w with doomed, dirty, running }

namespace Keeps

open World

variable {k : Kernel} {cfg : Config} {holds : World → Prop} {w : World} {fd : Fd}

theorem dooms (keeps : Keeps k cfg holds) {obs : Obs Bytes} (marks : Marks obs) (before : holds w) :
    holds ((w.emit obs).doom fd) :=
  keeps.quiet _ _ doom_quiet (keeps.mark w obs marks before)

theorem parseLoop (keeps : Keeps k cfg holds) (fuel : Nat) (sound : Sound w) (before : holds w) :
    holds (World.parseLoop k cfg fd fuel w) := by
  induction fuel generalizing w with
  | zero => exact before
  | succ fuel ih =>
      unfold World.parseLoop
      split
      · exact before
      next c found =>
        split
        · exact before
        next going =>
          simp only
          split
          · exact keeps.dooms trivial before
          · split
            · exact before
            · have opened : c.closing = false := by
                cases closing : c.closing with
                | false => rfl
                | true => exact absurd (.inl closing) going
              have handled := keeps.packet w fd c (LittleEndian.read (c.input.drop 2))
                ((c.input.drop headerSize).take (LittleEndian.read c.input).toNat) sound found opened
                before
              obtain ⟨_, _, packet, moved, agree, _⟩ := @handleFrame_packet k cfg w fd c
                (LittleEndian.read (c.input.drop 2))
                ((c.input.drop headerSize).take (LittleEndian.read c.input).toNat)
                (headerSize + (LittleEndian.read c.input).toNat) sound.agree found
              refine ih ⟨agree, ?_⟩ ?_
              · have counted := packet.sameFds.counted (show (w.state.emit _).Counted from sound.counted)
                rw [moved]
                exact (State.update_sameFds _ fd _).counted counted
              · exact keeps.erase _ fd _ (keeps.mark _ _ trivial handled)

theorem parseFrames (keeps : Keeps k cfg holds) (sound : Sound w) (before : holds w) :
    holds (w.parseFrames k cfg fd) :=
  keeps.mark _ _ trivial (keeps.parseLoop _ sound before)

theorem received_sound {c : Conn} {bytes : Bytes} (sound : Sound w) (found : w.conns fd = some c) :
    Sound ((w.emit (.recv fd bytes)).appendInput fd bytes) := by
  refine ⟨(sound.emit (.recv fd bytes)).agree.update fun _ => rfl, ?_⟩
  rw [state_appendInput (w := w.emit (.recv fd bytes)) found]
  exact (State.update_sameFds _ fd _).counted sound.counted

theorem parseFrames_sound (sound : Sound w) : Sound (w.parseFrames k cfg fd) := by
  obtain ⟨told, parse, parsed, agree⟩ := @parseFrames_parse k cfg w fd sound.agree
  refine ⟨agree, ?_⟩
  rw [parsed]
  exact parse.sameFds.counted sound.counted

theorem onReadable (keeps : Keeps k cfg holds) (fuel : Nat) (script : List (RecvAnswer UInt8))
    (sound : Sound w) (before : holds w) : holds (World.onReadable k cfg fd fuel script w) := by
  induction fuel generalizing w script with
  | zero => exact before
  | succ fuel ih =>
      have noted : ∀ bytes, holds (w.emit (.recv fd bytes)) := fun bytes =>
        keeps.mark w (.recv fd bytes) trivial before
      cases script with
      | nil => exact keeps.quiet _ _ afterQueue_quiet (noted [])
      | cons answer script =>
          cases answer with
          | eof | failed => exact keeps.quiet _ _ doom_quiet (noted [])
          | wouldBlock => exact keeps.quiet _ _ afterQueue_quiet (noted [])
          | interrupted => exact ih script (sound.emit _) (noted [])
          | data bytes =>
              simp only [World.onReadable]
              split
              · exact before
              next c found =>
                split
                · exact keeps.quiet _ _ doom_quiet (noted [])
                · split
                  · exact keeps.quiet _ _ doom_quiet (noted _)
                  next within =>
                    have kept := keeps.receive w fd c (bytes.take recvSize) found
                      (Nat.not_lt.mp within) before
                    have grown := @received_sound w fd c (bytes.take recvSize) sound found
                    have parsed := @parseFrames k cfg holds _ fd keeps grown kept
                    split
                    · exact parsed
                    · exact ih _ (parseFrames_sound grown) parsed

theorem handleReady (keeps : Keeps k cfg holds) {what : Ready} (sound : Sound w) (before : holds w) :
    holds (w.handleReady k cfg what) := by
  unfold World.handleReady
  split
  · exact before
  · split
    · exact before
    · split
      · exact keeps.quiet _ _ doom_quiet before
      · have flushed : Sound (if what.writable then w.flushSend k what.fd else w) ∧
            holds (if what.writable then w.flushSend k what.fd else w) := by
          split
          · exact ⟨flushSend_quiet.sound sound, keeps.quiet _ _ flushSend_quiet before⟩
          · exact ⟨sound, before⟩
        simp only
        generalize (if what.writable then w.flushSend k what.fd else w) = next at flushed ⊢
        split
        · exact keeps.onReadable _ _ flushed.1 flushed.2
        · exact flushed.2

theorem onAccept (keeps : Keeps k cfg holds) (answers : List AcceptAnswer) (sound : Sound w)
    (before : holds w) : holds (World.onAccept cfg answers w) := by
  induction answers generalizing w with
  | nil => exact before
  | cons answer answers ih =>
      cases answer with
      | interrupted | aborted => exact ih sound before
      | outOfFds | failed | wouldBlock => exact before
      | arrived fd added =>
          simp only [World.onAccept]
          split
          · exact ih sound before
          next fresh =>
            have absent : w.conns fd = none := by simpa using fresh
            split
            · exact ih (sound.emit _) (keeps.mark w (.refused fd) trivial before)
            next room =>
              split
              · exact ih (sound.emit _) (keeps.mark w (.refused fd) trivial before)
              · exact ih (sound.emplace absent)
                  (keeps.accept w fd sound absent (Nat.lt_of_not_le room) before)

theorem handleEvent (keeps : Keeps k cfg holds) (event : Event) (sound : Sound w)
    (before : holds w) : holds (w.handleEvent k cfg event) := by
  cases event with
  | accept answers => exact keeps.onAccept answers sound before
  | signal => exact keeps.lists w w.doomed w.dirty false before
  | ready what => exact keeps.handleReady sound before

theorem drain (keeps : Keeps k cfg holds) (events : List Event) (sound : Sound w)
    (before : holds w) : holds (events.foldl (World.handleEvent k cfg) w) := by
  induction events generalizing w with
  | nil => exact before
  | cons event events ih =>
      exact ih (handleEvent_handles event sound).2 (keeps.handleEvent event sound before)

theorem flushDirty (keeps : Keeps k cfg holds) (before : holds w) : holds (w.flushDirty k) := by
  have walk : ∀ (fds : List Fd) (w : World), holds w → holds (fds.foldl (flushDirtyOne k) w) := by
    intro fds
    induction fds with
    | nil => exact fun _ before => before
    | cons fd fds ih => exact fun w before => ih _ (keeps.quiet _ _ flushDirtyOne_quiet before)
  exact keeps.lists _ _ [] _ (walk w.dirty w before)

theorem reapLoop (keeps : Keeps k cfg holds) (fuel index : Nat) (sound : Sound w)
    (before : holds w) : holds (World.reapLoop k cfg fuel index w) := by
  induction fuel generalizing w index with
  | zero => exact before
  | succ fuel ih =>
      unfold World.reapLoop
      split
      · exact keeps.lists w [] w.dirty w.running before
      next fd _ =>
        split
        · exact ih (index + 1) sound before
        next c found =>
          exact ih (index + 1) (sound.reaped k cfg found) (keeps.depart w fd c sound found before)

theorem tail (keeps : Keeps k cfg holds) (sound : Sound w) (before : holds w) :
    holds (w.tail k cfg) := by
  unfold World.tail
  split
  · have flushed := (@flushDirty_flushes k cfg w sound).2
    exact keeps.flushDirty (keeps.reapLoop _ _ flushed (keeps.flushDirty before))
  · exact keeps.reapLoop _ _ sound before

/-- With a fact about the tick, the rule is one about whole runs. -/
theorem iterate (keeps : Keeps k cfg holds)
    (ticks : ∀ w : World, Sound w → holds w → holds (w.flushTickRooms k cfg)) (batch : Batch)
    (sound : Sound w) (before : holds w) : holds (w.iterate k cfg batch) := by
  have drained := (@drain_drains k cfg (w.emit .wake) batch.events (sound.emit _)).2
  have kept := keeps.drain batch.events (sound.emit .wake) (keeps.mark w .wake trivial before)
  unfold World.iterate
  simp only
  split
  · obtain ⟨told, rooms⟩ := @flushTickRooms_ticks k cfg
      (batch.events.foldl (World.handleEvent k cfg) (w.emit .wake))
    exact keeps.tail (drained.of_sends rooms (told.sends trivial)) (ticks _ drained kept)
  · exact keeps.tail drained kept

theorem run (keeps : Keeps k cfg holds)
    (ticks : ∀ w : World, Sound w → holds w → holds (w.flushTickRooms k cfg))
    (start : holds World.init) (batches : List Batch) : holds (World.run k cfg batches) := by
  have rule : ∀ (w : World) (batch : Batch), Sound w ∧ holds w →
      Sound (if w.running then w.iterate k cfg batch else w) ∧
        holds (if w.running then w.iterate k cfg batch else w) := by
    intro w batch before
    split
    · exact ⟨(iterate_iterates batch before.1).2, keeps.iterate ticks batch before.1 before.2⟩
    · exact before
  exact (Machine.run_keeps rule ⟨.init, start⟩ batches).2

end Keeps

end NetEngine.Epoll.Server
