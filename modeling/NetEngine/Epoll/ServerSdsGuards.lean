import NetEngine.Epoll.ChatReap
import NetEngine.Epoll.ServerProperties
import NetEngine.Epoll.ServerSdsBounds

/-! From packets to whole runs: what is received fits the ring, the walks over the
lists keep them short, and with the arrays' sizes a run is what it is without. -/

set_option autoImplicit false

namespace NetEngine.Epoll.ServerSds.Checked

open Socket RingBuffer World Links

variable {k : Kernel} {cfg : Config} {w after : World} {fd : Fd} {reaping : Prop}

/-! ## Reading -/

theorem Fine.setInput {c : Conn} {ring : Conn → Ring} {bytes : Bytes} (fine : Fine cfg reaping w)
    (found : w.conns fd = some c) (holds : Holds rxRing (ring c) bytes) :
    Fine cfg reaping (w.update fd fun c => { c with input := ring c }) := by
  obtain ⟨same, sound⟩ := setInput_sound fine.sound found holds
  exact fine.update sound same (fun _ short => short) (fun _ => rfl) fun _ => rfl

theorem handleDirect_eq {c : Conn} {type : UInt16} {frame : Nat} (fine : Fine cfg reaping w)
    (found : w.conns fd = some c) (complete : frame ≤ c.input.usedSize) (short : frame ≤ maxFrame)
    (contiguous : frame ≤ directDequeueSize rxRing c.input.dequeue c.input.enqueue) :
    handleDirect k cfg w fd c type frame = some (w.handleDirect k cfg fd c type frame) ∧
      Fine cfg reaping (w.handleDirect k cfg fd c type frame) := by
  have holds := holds_input fine.sound.rings found
  have enough : frame ≤ (c.client w.rooms).input.length := holds.usedSize ▸ complete
  have whole : ((c.input.direct rxRing frame).drop headerSize).length ≤ maxPayload := by
    rw [holds.direct contiguous, List.length_drop, List.length_take]
    simp only [maxFrame] at short
    omega
  simp only [handleDirect, World.handleDirect]
  generalize (c.input.direct rxRing frame).drop headerSize = payload at *
  have emitted := fine.emit (.packet w.clients fd type payload)
  obtain ⟨same, handled⟩ := @handlePacket_eq k cfg _ fd reaping c type payload emitted found whole
  obtain ⟨c', present, still⟩ := @packet_keeps k cfg _ fd c type payload emitted.sound found
  have committed := still.commitDequeue enough
  rw [same]
  exact ⟨rfl, @Fine.setInput cfg _ fd reaping c' (fun c => c.input.commitDequeue frame) _
    (handled.emit _) present committed⟩

theorem handleScratch_eq {c : Conn} {type : UInt16} {frame : Nat} (fine : Fine cfg reaping w)
    (found : w.conns fd = some c) (complete : frame ≤ c.input.usedSize) (short : frame ≤ maxFrame) :
    handleScratch k cfg w fd c type frame = some (w.handleScratch k cfg fd c type frame) ∧
      Fine cfg reaping (w.handleScratch k cfg fd c type frame) := by
  have holds := holds_input fine.sound.rings found
  obtain ⟨scratch, popped⟩ := holds.pop (holds.usedSize ▸ complete)
  have whole : ((c.input.pop rxRing frame).2.drop headerSize).length ≤ maxPayload := by
    rw [scratch, List.length_drop, List.length_take]
    simp only [maxFrame] at short
    omega
  have fits : 0 + frame ≤ maxFrame := by omega
  simp only [handleScratch, World.handleScratch, within_eq fits]
  generalize (c.input.pop rxRing frame).2.drop headerSize = payload at *
  have moved : Fine cfg reaping ((w.emit (.packet w.clients fd type payload)).update fd fun c' =>
      { c' with input := (c.input.pop rxRing frame).1 }) :=
    @Fine.setInput cfg _ fd reaping c (fun _ => (c.input.pop rxRing frame).1) _
      (fine.emit (.packet w.clients fd type payload)) found popped
  have present : ((w.emit (.packet w.clients fd type payload)).update fd fun c' =>
      { c' with input := (c.input.pop rxRing frame).1 }).conns fd =
        some { c with input := (c.input.pop rxRing frame).1 } := by
    simp [update, World.emit, found]
  obtain ⟨same, handled⟩ := @handlePacket_eq k cfg _ fd reaping _ type payload moved present whole
  simp only [Option.bind_eq_bind, Option.bind_some, same]
  exact ⟨rfl, handled.emit _⟩

theorem parseLoop_eq (fuel : Nat) (fine : Fine cfg reaping w) :
    parseLoop k cfg fd fuel w = some (World.parseLoop k cfg fd fuel w) ∧
      Fine cfg reaping (World.parseLoop k cfg fd fuel w) := by
  induction fuel generalizing w with
  | zero => exact ⟨rfl, fine⟩
  | succ fuel ih =>
      cases found : w.conns fd with
      | none =>
          simp only [parseLoop, World.parseLoop, found]
          exact ⟨trivial, fine⟩
      | some c =>
          simp only [parseLoop, World.parseLoop, found]
          by_cases waits : c.closing = true ∨ c.input.usedSize < headerSize
          · simp only [waits, if_true]
            exact ⟨trivial, fine⟩
          · simp only [waits, if_false]
            generalize LittleEndian.read (List.drop 2 (c.input.peek rxRing headerSize)) = type
            generalize (LittleEndian.read (c.input.peek rxRing headerSize)).toNat = len
            by_cases long : maxPayload < len
            · simp only [long, if_true]
              exact ⟨doom_eq (fine.emit _).toSteady, (fine.emit _).doom⟩
            · have short : headerSize + len ≤ maxFrame := by
                simp only [maxFrame]
                omega
              by_cases cut : c.input.usedSize < headerSize + len
              · simp only [long, cut, if_true, if_false]
                exact ⟨trivial, fine⟩
              · simp only [long, cut, if_false]
                by_cases contiguous : headerSize + len ≤
                    directDequeueSize rxRing c.input.dequeue c.input.enqueue
                · obtain ⟨same, next⟩ := @handleDirect_eq k cfg w fd reaping c type _ fine found
                    (Nat.not_lt.mp cut) short contiguous
                  simp only [contiguous, if_true, same, Option.bind_some]
                  exact ih next
                · obtain ⟨same, next⟩ := @handleScratch_eq k cfg w fd reaping c type _ fine found
                    (Nat.not_lt.mp cut) short
                  simp only [contiguous, if_false, same, Option.bind_some]
                  exact ih next

theorem parseFrames_eq (fine : Fine cfg reaping w) :
    parseFrames k cfg w fd = some (w.parseFrames k cfg fd) ∧
      Fine cfg reaping (w.parseFrames k cfg fd) := by
  obtain ⟨same, parsed⟩ := @parseLoop_eq k cfg w fd reaping ((w.conns fd).elim 0 (·.input.usedSize)) fine
  simp only [parseFrames, same]
  exact ⟨rfl, parsed.emit _⟩

theorem enqueueInput_eq {c : Conn} {chunk : Bytes} (sound : Sound cfg w) (found : w.conns fd = some c)
    (room : (c.client w.rooms).input.length + chunk.length ≤ rxRing.size) :
    enqueueInput w fd c chunk = some (w.enqueueInput fd c chunk) := by
  have small := rxRing.size_le
  have narrow : rxRing.size = 2 ^ 15 := rfl
  have whole : chunk.length ≤ rxRing.size := (Nat.le_add_left ..).trans room
  obtain ⟨count, _⟩ := (holds_input sound.rings found).push room (by omega)
  simp only [enqueueInput, check_eq (writeAt_inside rxRing c.input.enqueue chunk whole),
    check_eq count]
  rfl

/-- The marks to close and the received bytes after a chunk. -/
theorem parsed_short {c : Conn} {chunk : Bytes} (sound : Sound cfg w) (short : w.state.Short)
    (found : w.conns fd = some c)
    (room : (c.client w.rooms).input.length + chunk.length ≤ rxRing.size) :
    (((w.emit (.recv fd chunk)).enqueueInput fd c chunk).parseFrames k cfg fd).state.Short := by
  obtain ⟨grown, grownSound⟩ := @enqueueInput_receives cfg w fd c chunk sound found room
  obtain ⟨told, parse, parsed, _⟩ := @parseFrames_parse k cfg _ fd grownSound
  rw [grown] at parse
  rw [parsed]
  exact parse.endsShort fun other apart => (short other).congr (State.update_clients_ne _ apart)

theorem onReadable_eq (fuel : Nat) (script : List (RecvAnswer UInt8)) (fine : Fine cfg reaping w)
    (short : w.state.Short) (opened : w.state.Open fd) :
    onReadable k cfg fd fuel script w = some (World.onReadable k cfg fd fuel script w) ∧
      Fine cfg reaping (World.onReadable k cfg fd fuel script w) := by
  induction fuel generalizing w script with
  | zero => exact ⟨rfl, fine⟩
  | succ fuel ih =>
      obtain ⟨c, found, closing⟩ := conn_of_open opened
      have client : w.state.clients fd = some (c.client w.rooms) := by simp [found]
      have holds := holds_input fine.sound.rings found
      have little : (c.client w.rooms).input.length < 1028 := short fd _ client closing
      have narrow : rxRing.size = 32768 := rfl
      have asks : min (c.input.freeSize rxRing) recvSize =
          32768 - (c.client w.rooms).input.length := by
        rw [holds.freeSize, narrow]
        exact Nat.min_eq_left (Nat.le_trans (Nat.sub_le _ _) (by decide))
      -- less than one frame is buffered, so the ring is never full here
      have wants : 32768 - (c.client w.rooms).input.length ≠ 0 := by omega
      have noted : Fine cfg reaping (w.emit (.recv fd [])) := fine.emit _
      have doomed : doom cfg (w.emit (.recv fd [])) fd = some ((w.emit (.recv fd [])).doom fd) ∧
          Fine cfg reaping ((w.emit (.recv fd [])).doom fd) := ⟨doom_eq noted.toSteady, noted.doom⟩
      have drained := @afterQueue_eq k cfg _ fd reaping noted
      simp only [onReadable, World.onReadable, found, asks, wants, if_false]
      cases script with
      | nil => exact drained
      | cons answer script =>
          cases answer with
          | eof | failed => exact doomed
          | wouldBlock => exact drained
          | interrupted => exact ih script noted short opened
          | data bytes =>
              have size : (bytes.take (32768 - (c.client w.rooms).input.length)).length ≤
                  32768 - (c.client w.rooms).input.length := List.length_take_le _ _
              have room : (c.client w.rooms).input.length +
                  (bytes.take (32768 - (c.client w.rooms).input.length)).length ≤ rxRing.size := by
                omega
              simp only
              generalize 32768 - (c.client w.rooms).input.length = want at *
              by_cases empty : bytes.take want = []
              · simp only [empty, if_true]
                exact doomed
              · have received : Fine cfg reaping (w.emit (.recv fd (bytes.take want))) := fine.emit _
                have taken := @enqueueInput_eq cfg _ fd c (bytes.take want) received.sound found room
                have grown : Fine cfg reaping ((w.emit (.recv fd (bytes.take want))).enqueueInput fd c
                    (bytes.take want)) := by
                  obtain ⟨same, sound⟩ := @enqueueInput_receives cfg w fd c (bytes.take want)
                    fine.sound found room
                  exact received.update sound same (fun _ short => short) (fun _ => rfl) fun _ => rfl
                obtain ⟨parses, parsed⟩ := @parseFrames_eq k cfg _ fd reaping grown
                have parsedShort := @parsed_short k cfg w fd c _ fine.sound short found room
                simp only [empty, if_false, taken, Option.bind_eq_bind, Option.bind_some, parses]
                generalize ((w.emit (.recv fd (bytes.take want))).enqueueInput fd c
                  (bytes.take want)).parseFrames k cfg fd = told at *
                cases shut : (told.conns fd).elim true (·.closing) with
                | true =>
                    simp only [if_true]
                    exact ⟨trivial, parsed⟩
                | false =>
                    simp only [Bool.false_eq_true, if_false]
                    by_cases stops : cfg.shortRead = true ∧ (bytes.take want).length < want
                    · simp only [stops, and_self, if_true]
                      exact afterQueue_eq parsed
                    · simp only [stops, if_false]
                      exact ih _ parsed parsedShort (open_iff.mpr shut)

/-! ## The main loop -/

theorem flushDirtyOne_eq (steady : Steady cfg reaping w) :
    flushDirtyOne k cfg w fd = some (World.flushDirtyOne k w fd) ∧
      Steady cfg reaping (World.flushDirtyOne k w fd) := by
  cases found : w.conns fd with
  | none =>
      simp only [flushDirtyOne, World.flushDirtyOne, found]
      exact ⟨trivial, steady⟩
  | some c =>
      have cleans : World.Sends w (w.update fd fun c => { c with dirty := false }) :=
        .update fun _ _ => ⟨rfl, rfl, rfl, rfl, id, fun queue => ⟨queue.1, queue.2⟩⟩
      have cleaned : (w.update fd fun c => { c with dirty := false }).state = w.state.clean fd :=
        state_update fun _ _ => rfl
      have moves : Epoll.Sends True (fun _ => True) w.state
          (w.update fd fun c => { c with dirty := false }).state := by
        rw [cleaned]
        exact State.clean_sends
      have clean := steady.sends cleans moves
      cases closing : c.closing with
      | true =>
          simp only [flushDirtyOne, World.flushDirtyOne, found, closing, if_true]
          exact ⟨trivial, clean⟩
      | false =>
          simp only [flushDirtyOne, World.flushDirtyOne, found, closing, Bool.false_eq_true, if_false]
          exact ⟨flushSend_eq clean, clean.flushSend⟩

/-- Behind the pass the list is empty, whoever it held. -/
theorem flushDirty_eq (steady : Steady cfg reaping w) :
    flushDirty k cfg w = some (w.flushDirty k) ∧ Fine cfg reaping (w.flushDirty k) := by
  obtain ⟨same, last⟩ := @foldlM_eq w Fd (Steady cfg reaping) (World.flushDirtyOne k)
    (flushDirtyOne k cfg) w.dirty (fun _ _ _ steady => flushDirtyOne_eq steady) steady
  simp only [flushDirty, same]
  have cleared : World.Sends (w.dirty.foldl (World.flushDirtyOne k) w) (w.flushDirty k) :=
    .of_conns rfl rfl rfl rfl rfl rfl
  refine ⟨rfl, ⟨cleared.sound last.sound, last.nicks, ?_, last.held⟩, .of_empty rfl, fun _ => rfl⟩
  exact last.doomed.congr rfl (fun _ => id) fun _ => id

/-! ### Accepting and closing -/

theorem live_slots (sound : Sound cfg w) :
    (List.range cfg.slots).countP (fun fd => (w.conns fd).isSome) = w.totalLive := by
  obtain ⟨fds, nodup, member, size⟩ := sound.counted
  change fds.length = w.totalLive at size
  rw [List.countP_eq_length_filter, ← size]
  refine ((List.perm_ext_iff_of_nodup (List.nodup_range.filter _) nodup).mpr fun fd => ?_).length_eq
  rw [List.mem_filter, List.mem_range, member, live_iff, Option.isSome_iff_exists]
  constructor
  · exact And.right
  · rintro ⟨c, found⟩
    exact ⟨sound.rooms.slots fd c found, c, found⟩

theorem audit_eq (sound : Sound cfg w) (held : w.totalLive ≤ cfg.maxConns) :
    audit cfg w = some w := by
  simp only [audit, check_eq (live_slots sound), check_eq held]
  rfl

theorem close_eq (fine : Fine cfg True w) (live : w.state.Live fd) (outside : w.roomOf fd = none) :
    close cfg w fd = some (w.close fd) ∧ Fine cfg True (w.close fd) := by
  have some : 0 < w.totalLive := by
    obtain ⟨fds, _, member, size⟩ := fine.sound.counted
    change fds.length = w.totalLive at size
    exact size ▸ List.length_pos_of_mem ((member fd).mpr live)
  have closed := close_sound fine.sound live outside
  have held : (w.close fd).totalLive ≤ cfg.maxConns := (Nat.sub_le _ _).trans fine.held
  have same : (w.close fd).state = w.state.remove fd := close_state
  refine ⟨?_, ⟨closed, same ▸ fine.nicks.remove, same ▸ fine.doomed.remove, held⟩,
    same ▸ fine.dirty.remove, fine.immediate⟩
  simp only [close, check_eq some]
  exact audit_eq closed held

theorem construct_eq (fine : Fine cfg False w) (free : w.conns fd = none) (inside : fd < cfg.slots)
    (room : w.totalLive < cfg.maxConns) :
    construct cfg w fd = some (w.construct fd) ∧ Fine cfg False (w.construct fd) := by
  have made := construct_sound fine.sound free inside
  have held : (w.construct fd).totalLive ≤ cfg.maxConns := room
  have same : (w.construct fd).state = w.state.insert fd := construct_state
  have fresh : ¬ w.state.Live fd := by simp [State.Live, free]
  have nicks : ShortNicks (w.state.insert fd) := by
    intro other later found
    by_cases own : other = fd
    · subst own
      simp only [State.insert, Function.update_self, Option.some.injEq] at found
      exact found ▸ Nat.zero_le _
    · simp only [State.insert, Function.update_of_ne own] at found
      exact fine.nicks other later found
  refine ⟨?_, ⟨made, same ▸ nicks, same ▸ fine.doomed.insert fresh, held⟩,
    same ▸ fine.dirty.insert fresh, fine.immediate⟩
  simp only [construct, check_eq inside, check_eq free]
  exact audit_eq made held

theorem onAccept_eq (answers : List AcceptAnswer) (fine : Fine cfg False w)
    (fresh : FreshAnswers cfg answers w) :
    onAccept cfg answers w = some (World.onAccept cfg answers w) ∧
      Fine cfg False (World.onAccept cfg answers w) := by
  induction answers generalizing w with
  | nil => exact ⟨rfl, fine⟩
  | cons answer answers ih =>
      cases answer with
      | interrupted | aborted => exact ih fine fresh
      | outOfFds | failed | wouldBlock => exact ⟨rfl, fine⟩
      | arrived fd added =>
          obtain ⟨free, later⟩ := fresh
          simp only [World.onAccept, free, Option.isSome_none, Bool.false_eq_true, if_false] at later
          simp only [onAccept, World.onAccept, free, Option.isSome_none, Bool.false_eq_true, if_false]
          by_cases full : cfg.maxConns ≤ w.totalLive ∨ cfg.slots ≤ fd
          · simp only [full, if_true] at later ⊢
            exact ih (fine.emit _) later
          · cases added with
            | false =>
                simp only [full, if_true, if_false] at later ⊢
                exact ih (fine.emit _) later
            | true =>
                obtain ⟨same, made⟩ := construct_eq fine free
                  (Nat.not_le.mp fun beyond => full (.inr beyond))
                  (Nat.not_le.mp fun beyond => full (.inl beyond))
                simp only [full, Bool.true_eq_false, if_false, same, Option.bind_some] at later ⊢
                exact ih made later

theorem depart_eq {c : Conn} (fine : Fine cfg reaping w) (found : w.conns fd = some c) :
    depart k cfg w fd c = some (w.depart k cfg fd c) ∧ Fine cfg reaping (w.depart k cfg fd c) := by
  have left := fine.leaveRoom found
  by_cases announces : c.room ≠ none ∧ c.nick ≠ []
  · simp only [depart, World.depart, announces, ne_eq, not_false_eq_true, and_self, if_true,
      line_left (fine.short found)]
    exact broadcast_eq left c.room
  · simp only [depart, World.depart, announces, if_false]
    exact ⟨trivial, left⟩

theorem reapLoop_eq (fuel index : Nat) (fine : Fine cfg True w) :
    reapLoop k cfg fuel index w = some (World.reapLoop k cfg fuel index w) ∧
      Fine cfg True (World.reapLoop k cfg fuel index w) := by
  induction fuel generalizing w index with
  | zero => exact ⟨rfl, fine⟩
  | succ fuel ih =>
      cases at_index : w.doomed[index]? with
      | none =>
          have cleared : World.Sends w { w with doomed := [] } := .of_conns rfl rfl rfl rfl rfl rfl
          simp only [reapLoop, World.reapLoop, at_index]
          exact ⟨trivial, ⟨cleared.sound fine.sound, fine.nicks, .of_empty rfl, fine.held⟩,
            fine.dirty.congr rfl rfl, fine.immediate⟩
      | some fd =>
          cases found : w.conns fd with
          | none =>
              simp only [reapLoop, World.reapLoop, at_index, found]
              exact ih (index + 1) fine
          | some c =>
              have noted : Fine cfg True (w.emit (.departs w.clients fd)) := fine.emit _
              obtain ⟨same, told⟩ := @depart_eq k cfg _ fd True c noted found
              obtain ⟨departs, _, outside⟩ := @depart_departs k cfg _ fd c noted.sound found
              have sends : Epoll.Sends False (fun _ => True) _ _ := departs.sends trivial
              have live := (sends.live_iff fd).mpr (live_iff.mpr ⟨c, found⟩)
              obtain ⟨closes, closed⟩ := close_eq told live outside
              simp only [reapLoop, World.reapLoop, at_index, found, Option.bind_eq_bind, same,
                Option.bind_some, closes]
              exact ih (index + 1) closed

/-- The reaping, with the list empty behind it. -/
theorem reapDoomed_eq (fine : Fine cfg False w) :
    reapDoomed k cfg w = some (w.reapDoomed k cfg) ∧ Steady cfg False (w.reapDoomed k cfg) ∧
      (cfg.batchFlush = false → (w.reapDoomed k cfg).state.dirty = []) := by
  have start : Fine cfg True w :=
    ⟨⟨fine.sound, fine.nicks, fine.doomed.reap, fine.held⟩, fine.dirty.reap, fine.immediate⟩
  obtain ⟨same, last⟩ := @reapLoop_eq k cfg w (w.doomed.length + w.totalLive + 1) 0 start
  obtain ⟨reap, _, _⟩ := @reapDoomed_reaps k cfg w fine.sound
  exact ⟨same, ⟨last.sound, last.nicks, .of_empty reap.empties, last.held⟩, last.immediate⟩

/-! ### Runs -/

theorem handleReady_eq {what : Ready} (fine : Fine cfg reaping w) (short : w.state.Short) :
    handleReady k cfg w what = some (w.handleReady k cfg what) ∧
      Fine cfg reaping (w.handleReady k cfg what) := by
  cases found : w.conns what.fd with
  | none =>
      simp only [handleReady, World.handleReady, found]
      exact ⟨trivial, fine⟩
  | some c =>
      cases closing : c.closing with
      | true =>
          simp only [handleReady, World.handleReady, found, closing, if_true]
          exact ⟨trivial, fine⟩
      | false =>
          cases hangup : what.hangup with
          | true =>
              simp only [handleReady, World.handleReady, found, closing, hangup, Bool.false_eq_true,
                if_true, if_false]
              exact ⟨doom_eq fine.toSteady, fine.doom⟩
          | false =>
              have further {flushed : World} (flushedFine : Fine cfg reaping flushed)
                  (flushedShort : flushed.state.Short) :
                  (if (flushed.conns what.fd).elim true (·.closing) = false ∧
                        what.readable = true then
                      onReadable k cfg what.fd (scriptCost what.script) what.script flushed
                    else some flushed) =
                      some (if (flushed.conns what.fd).elim true (·.closing) = false ∧
                        what.readable = true then
                        World.onReadable k cfg what.fd (scriptCost what.script) what.script flushed
                      else flushed) ∧
                    Fine cfg reaping (if (flushed.conns what.fd).elim true (·.closing) = false ∧
                        what.readable = true then
                        World.onReadable k cfg what.fd (scriptCost what.script) what.script flushed
                      else flushed) := by
                by_cases reads : (flushed.conns what.fd).elim true (·.closing) = false ∧
                    what.readable = true
                · rw [if_pos reads, if_pos reads]
                  exact onReadable_eq _ _ flushedFine flushedShort (open_iff.mpr reads.1)
                · rw [if_neg reads, if_neg reads]
                  exact ⟨rfl, flushedFine⟩
              simp only [handleReady, World.handleReady, found, closing, hangup, Bool.false_eq_true,
                if_false]
              cases what.writable with
              | true =>
                  have flushes := @flushSend_flushes k cfg w what.fd fine.sound.queues
                  simp only [if_true, flushSend_eq fine.toSteady, Option.bind_eq_bind,
                    Option.bind_some]
                  exact further fine.flushSend (flushes.keepsShort short)
              | false =>
                  simp only [Bool.false_eq_true, if_false, Option.bind_eq_bind, Option.bind_some]
                  exact further fine short

theorem drain_eq (events : List Event) (fine : Fine cfg False w) (short : w.state.Short)
    (fresh : FreshEvents k cfg events w) :
    events.foldlM (handleEvent k cfg) w = some (events.foldl (World.handleEvent k cfg) w) ∧
      Fine cfg False (events.foldl (World.handleEvent k cfg) w) := by
  induction events generalizing w with
  | nil => exact ⟨rfl, fine⟩
  | cons event events ih =>
      obtain ⟨now, later⟩ := fresh
      obtain ⟨handles, _⟩ := @handleEvent_handles k cfg w event fine.sound short
      have one : handleEvent k cfg w event = some (w.handleEvent k cfg event) ∧
          Fine cfg False (w.handleEvent k cfg event) := by
        cases event with
        | accept answers => exact onAccept_eq answers fine now
        | ready what => exact handleReady_eq fine short
        | signal =>
            have stops : World.Sends w { w with running := false } :=
              .of_conns rfl rfl rfl rfl rfl rfl
            exact ⟨rfl, ⟨stops.sound fine.sound, fine.nicks,
              fine.doomed.congr rfl (fun _ => id) fun _ => id, fine.held⟩,
              fine.dirty.congr rfl rfl, fine.immediate⟩
      rw [List.foldlM_cons, one.1]
      exact ih one.2 (handles.keepsShort short) later

theorem tail_eq (fine : Fine cfg False w) :
    tail k cfg w = some (w.tail k cfg) ∧ Fine cfg False (w.tail k cfg) := by
  cases batch : cfg.batchFlush with
  | true =>
      obtain ⟨first, flushed⟩ := @flushDirty_eq k cfg w False fine.toSteady
      obtain ⟨second, reaped, _⟩ := @reapDoomed_eq k cfg _ flushed
      simp only [tail, World.tail, batch, if_true, first, second, Option.bind_eq_bind,
        Option.bind_some]
      exact flushDirty_eq reaped
  | false =>
      obtain ⟨same, reaped, clean⟩ := @reapDoomed_eq k cfg w fine
      simp only [tail, World.tail, batch, Bool.false_eq_true, if_false]
      exact ⟨same, reaped, .of_empty (clean batch), clean⟩

theorem iterate_eq (batch : Batch) (fine : Fine cfg False w) (short : w.state.Short)
    (fresh : FreshEvents k cfg batch.events (w.emit .wake)) :
    iterate k cfg w batch = some (w.iterate k cfg batch) ∧ Fine cfg False (w.iterate k cfg batch) := by
  have woken : Fine cfg False (w.emit .wake) := fine.emit _
  obtain ⟨drains, drained⟩ := @drain_eq k cfg _ batch.events woken short fresh
  simp only [iterate, World.iterate, drains]
  exact tail_eq drained

theorem Fine.init (cfg : Config) : Fine cfg False (World.init cfg) :=
  ⟨⟨.init cfg, nofun, .of_empty rfl, Nat.zero_le _⟩, .of_empty rfl, fun _ => rfl⟩

theorem runFrom_eq (batches : List Batch) (fine : Fine cfg False w) (short : w.state.Short)
    (fresh : FreshRun k cfg batches w) :
    batches.foldlM (fun w batch => if w.running then iterate k cfg w batch else some w) w =
        some (batches.foldl (fun w batch => if w.running then w.iterate k cfg batch else w) w) ∧
      Fine cfg False
        (batches.foldl (fun w batch => if w.running then w.iterate k cfg batch else w) w) := by
  induction batches generalizing w with
  | nil => exact ⟨rfl, fine⟩
  | cons batch batches ih =>
      rw [List.foldlM_cons, List.foldl_cons]
      cases running : w.running with
      | false =>
          have same : ∀ batches : List Batch,
              batches.foldlM (fun w batch => if w.running then iterate k cfg w batch else some w) w =
                some w ∧
              batches.foldl (fun w batch => if w.running then w.iterate k cfg batch else w) w = w := by
            intro batches
            induction batches with
            | nil => exact ⟨rfl, rfl⟩
            | cons batch batches ih =>
                rw [List.foldlM_cons, List.foldl_cons, running]
                exact ih
          obtain ⟨stays, plain⟩ := same batches
          simp only [Bool.false_eq_true, if_false, Option.bind_eq_bind, Option.bind_some]
          rw [stays, plain]
          exact ⟨rfl, fine⟩
      | true =>
          obtain ⟨now, later⟩ := fresh running
          obtain ⟨iterates, next⟩ := @iterate_eq k cfg w batch fine short now
          obtain ⟨_, _, nextShort⟩ := @iterate_iterates k cfg w batch fine.sound short
          simp only [if_true, iterates, Option.bind_eq_bind, Option.bind_some]
          exact ih next nextShort later

/-- What the lists and the counter are asked for. -/
structure Bounded (cfg : Config) (w : World) : Prop where
  doomed : w.doomed.Nodup ∧ w.doomed.length ≤ cfg.slots
  dirty : w.dirty.Nodup ∧ w.dirty.length ≤ cfg.slots
  counted : (List.range cfg.slots).countP (fun fd => (w.conns fd).isSome) = w.totalLive
  held : w.totalLive ≤ cfg.maxConns

theorem Fine.bounded (fine : Fine cfg reaping w) : Bounded cfg w where
  doomed := ⟨fine.doomed.nodup, length_le_slots fine.doomed.nodup fine.doomed.inside⟩
  dirty := ⟨fine.dirty.nodup, length_le_slots fine.dirty.nodup fine.dirty.inside⟩
  counted := live_slots fine.sound
  held := fine.held

/-- As long as `accept` answers with descriptors that are not open, no copy leaves its
array and no check fails, whatever else is received and answered. -/
theorem no_check_fails (k : Kernel) (cfg : Config) (batches : List Batch)
    (fresh : FreshRun k cfg batches (World.init cfg)) :
    run k cfg batches = some (World.run k cfg batches) ∧ Bounded cfg (World.run k cfg batches) := by
  obtain ⟨same, last⟩ := @runFrom_eq k cfg _ batches (.init cfg) State.init_short fresh
  exact ⟨same, last.bounded⟩

/-- Chats of the largest size that all but fill the ring, the last one not whole, in one read. -/
def floodBatch : Batch where
  events := [.ready ⟨5, false, false, true,
    [.data ((List.replicate 32 (Framing.encode cChat (List.replicate maxPayload 120))).flatten.take
      32700)]⟩]
  tickDue := false

/-- Two members of a room talk, and one of them floods it. -/
theorem no_check_fails_talk :
    run Server.World.eager ⟨true, false, 2, by decide⟩ [Server.World.talkBatch, floodBatch] =
        some (World.run Server.World.eager ⟨true, false, 2, by decide⟩
          [Server.World.talkBatch, floodBatch]) ∧
      Bounded ⟨true, false, 2, by decide⟩
        (World.run Server.World.eager ⟨true, false, 2, by decide⟩
          [Server.World.talkBatch, floodBatch]) :=
  no_check_fails Server.World.eager ⟨true, false, 2, by decide⟩ [Server.World.talkBatch, floodBatch]
    fun _ => ⟨⟨⟨rfl, rfl, trivial⟩, trivial, trivial, trivial⟩, fun _ => ⟨⟨trivial, trivial⟩, trivial⟩⟩

end NetEngine.Epoll.ServerSds.Checked
