import NetEngine.Epoll.ServerRefines

/-! From the packets of `server.cpp` to its whole runs: the bounds on its loops
are never reached, and every run is a run of the event loop. -/

set_option autoImplicit false

namespace NetEngine.Epoll.Server.World

open Socket

variable {k : Kernel} {cfg : Config} {w : World} {fd : Fd}

theorem live_iff : w.state.Live fd ↔ ∃ c, w.conns fd = some c := by
  cases found : w.conns fd <;> simp [State.Live, found]

/-! ## Packets -/

theorem queueSend_agree {type : UInt16} {payload : Bytes} (agree : RoomsAgree w) :
    RoomsAgree (queueSend type payload w fd) := by
  refine agree.of_sends queueSend_rooms ?_
  rw [state_queueSend]
  exact State.queueSend_sends trivial

theorem doom_agree (agree : RoomsAgree w) : RoomsAgree (w.doom fd) := by
  refine agree.of_sends doom_rooms ?_
  rw [state_doom]
  exact State.doom_sends

theorem afterQueue_agree (agree : RoomsAgree w) : RoomsAgree (w.afterQueue k cfg fd) := by
  have sends : Sends True (fun _ => True) w.state (w.afterQueue k cfg fd).state :=
    afterQueue_follows.sends
  exact agree.of_sends afterQueue_rooms sends

theorem flushSend_agree (cfg : Config) (agree : RoomsAgree w) : RoomsAgree (w.flushSend k fd) := by
  have flushes : Flushes (rules k cfg) fd w.state (w.flushSend k fd).state := flushSend_flushes
  have sends : Sends True (fun _ => True) w.state (w.flushSend k fd).state := flushes.sends
  exact agree.of_sends flushSend_rooms sends

/-- The agreement reads neither the trace nor the buffered input. -/
theorem RoomsAgree.congr {after : World} (agree : RoomsAgree w) (rooms : after.rooms = w.rooms)
    (inside : ∀ name fd, after.state.InRoom name fd ↔ w.state.InRoom name fd) :
    RoomsAgree after :=
  ⟨fun name members => rooms ▸ agree.nodup name members, fun name fd => by
    rw [rooms, agree.member, inside]⟩

theorem RoomsAgree.update {change : Conn → Conn} (agree : RoomsAgree w)
    (same : ∀ c, (change c).room = c.room) : RoomsAgree (w.update fd change) := by
  refine agree.congr rfl fun name other => ?_
  rw [inRoom_iff, inRoom_iff]
  by_cases own : other = fd
  · subst own
    cases found : w.conns other <;> simp [World.update, found, same]
  · simp [World.update, own]

theorem leaveRoom_outside (live : w.state.Live fd) (name : Bytes) :
    ¬ (w.leaveRoom cfg fd).state.InRoom name fd := by
  obtain ⟨c, found⟩ := live_iff.mp live
  rw [leaveRoom_state found, enterRoom_inRoom live]
  simp

/-- The room that a joining connection leaves, when it has one. -/
def leftBy (k : Kernel) (cfg : Config) (w : World) (fd : Fd) (c : Conn) : World :=
  if c.room = [] then w
  else (w.broadcast k cfg c.room sNotice (leftNotice c.nick) (some fd)).leaveRoom cfg fd

theorem leftBy_switch {c : Conn} (agree : RoomsAgree w) (found : w.conns fd = some c) :
    Switch (rules k cfg) fd c.client w.state (w.leftBy k cfg fd c).state ∧
      RoomsAgree (w.leftBy k cfg fd c) ∧ (w.leftBy k cfg fd c).state.Live fd ∧
      ∀ name, ¬ (w.leftBy k cfg fd c).state.InRoom name fd := by
  have live : w.state.Live fd := live_iff.mpr ⟨c, found⟩
  by_cases empty : c.room = []
  · simp only [leftBy, empty, if_true]
    refine ⟨.stay (by simp [Conn.client, empty]), agree, live, fun name inside => ?_⟩
    obtain ⟨again, againFound, named, nonempty⟩ := inRoom_iff.mp inside
    rw [found, Option.some.injEq] at againFound
    subst againFound
    exact nonempty (named.symm.trans empty)
  · simp only [leftBy, empty, if_false]
    have told : Broadcast (rules k cfg) c.room sNotice (leftNotice c.nick) (some fd) w.state _ :=
      broadcast_broadcasts agree
    have sends : Sends True (fun _ => True) w.state _ := told.sends trivial
    have stillLive := (sends.live_iff fd).mpr live
    obtain ⟨later, laterFound⟩ := live_iff.mp stillLive
    refine ⟨?_, leaveRoom_agree laterFound (broadcast_agree agree), ?_,
      leaveRoom_outside stillLive⟩
    · rw [leaveRoom_state laterFound]
      exact .leave (by simp [Conn.client, empty]) told
    · rw [leaveRoom_state laterFound]
      exact ((State.update_sameFds _ _ _).1 fd).mpr stillLive

theorem joinPacket_packet {c : Conn} {payload : Bytes} (agree : RoomsAgree w)
    (found : w.conns fd = some c) :
    Packet (rules k cfg) fd payload cJoin w.state (w.joinPacket k cfg fd c payload).state ∧
      RoomsAgree (w.joinPacket k cfg fd c payload) := by
  have client : w.state.clients fd = some c.client := by simp [found]
  by_cases nameless : c.nick = []
  · simp only [joinPacket, nameless, if_true]
    exact ⟨state_queueSend ▸ .nickFirst client nameless, queueSend_agree agree⟩
  · by_cases empty : payload.take roomMax = []
    · simp only [joinPacket, nameless, empty, if_true, if_false]
      exact ⟨state_queueSend ▸ .roomRequired client nameless empty, queueSend_agree agree⟩
    · obtain ⟨leaves, leftAgree, live, outside⟩ := @leftBy_switch k cfg _ _ _ agree found
      have entered := enterRoom_agree empty live outside leftAgree
      have queued : RoomsAgree (queueSend sNotice (joinedNotice (payload.take roomMax))
          ((w.leftBy k cfg fd c).enterRoom fd (payload.take roomMax)) fd) := queueSend_agree entered
      have same : w.joinPacket k cfg fd c payload =
          (queueSend sNotice (joinedNotice (payload.take roomMax))
            ((w.leftBy k cfg fd c).enterRoom fd (payload.take roomMax)) fd).broadcast k cfg
              (payload.take roomMax) sNotice (helloNotice c.nick) (some fd) := by
        simp only [joinPacket, nameless, empty, if_false, leftBy]
      rw [same]
      refine ⟨?_, broadcast_agree queued⟩
      refine .join client nameless empty leaves ⟨rfl, rfl⟩ ?_
      rw [← enterRoom_state empty, ← state_queueSend]
      exact broadcast_broadcasts queued

theorem record_state {room line : Bytes} : (w.record room line).state = w.state := by
  unfold record
  simp only
  split <;> rfl

theorem record_rooms {room line : Bytes} : (w.record room line).rooms = w.rooms := by
  unfold record
  simp only
  split <;> rfl

theorem chatPacket_packet {c : Conn} {payload : Bytes} (agree : RoomsAgree w)
    (found : w.conns fd = some c) :
    Packet (rules k cfg) fd payload cChat w.state (w.chatPacket k cfg fd c payload).state ∧
      RoomsAgree (w.chatPacket k cfg fd c payload) := by
  have client : w.state.clients fd = some c.client := by simp [found]
  by_cases outside : c.room = []
  · simp only [chatPacket, outside, if_true]
    exact ⟨state_queueSend ▸ .joinFirst client (by simp [Conn.client, outside]),
      queueSend_agree agree⟩
  · have room : c.client.room = some c.room := by simp [Conn.client, outside]
    cases coalesce : cfg.coalesce with
    | true =>
        simp only [chatPacket, outside, coalesce, if_true, if_false]
        refine ⟨?_, agree.congr record_rooms fun name other => by rw [record_state]⟩
        rw [record_state]
        exact .record client (by simp [room]) coalesce
    | false =>
        simp only [chatPacket, outside, coalesce, Bool.false_eq_true, if_false]
        exact ⟨.chat client room coalesce (broadcast_broadcasts agree), broadcast_agree agree⟩

theorem handlePacket_packet {c : Conn} {type : UInt16} {payload : Bytes} (agree : RoomsAgree w)
    (found : w.conns fd = some c) :
    Packet (rules k cfg) fd payload type w.state (w.handlePacket k cfg fd type payload).state ∧
      RoomsAgree (w.handlePacket k cfg fd type payload) := by
  by_cases isNick : type = cSetNick
  · subst isNick
    simp only [handlePacket, found, if_true]
    refine ⟨?_, queueSend_agree (agree.update fun _ => rfl)⟩
    have named : (w.update fd fun c => { c with nick := payload.take nickMax }).state =
        w.state.setNick fd (payload.take nickMax) := state_update fun _ => rfl
    rw [state_queueSend, named]
    exact .setNick
  · by_cases isJoin : type = cJoin
    · subst isJoin
      simp only [handlePacket, found, isNick, if_true, if_false]
      exact joinPacket_packet agree found
    · by_cases isChat : type = cChat
      · subst isChat
        simp only [handlePacket, found, isNick, isJoin, if_true, if_false]
        exact chatPacket_packet agree found
      · simp only [handlePacket, found, isNick, isJoin, isChat, if_false]
        exact ⟨state_doom ▸ .unknown isNick isJoin isChat, doom_agree agree⟩

/-! ## Reading -/

theorem state_noteHandled : (w.noteHandled fd).state = w.state.noteHandled fd := by
  rw [noteHandled, state_emit, State.noteHandled, state_clients]
  cases w.conns fd <;> rfl

theorem state_noteParsed : (w.noteParsed fd).state = w.state.noteParsed fd := by
  rw [noteParsed, state_emit, State.noteParsed, state_clients]
  cases w.conns fd <;> rfl

theorem state_eraseInput {c : Conn} {size : Nat} (found : w.conns fd = some c) :
    (w.eraseInput fd size).state = w.state.setInput fd (c.input.drop size) := by
  have moved : (w.eraseInput fd size).state =
      w.state.update fd fun client => { client with input := client.input.drop size } :=
    state_update fun _ => rfl
  have client : w.state.clients fd = some c.client := by simp [found]
  rw [moved, State.setInput]
  exact State.update_congr client rfl

theorem state_appendInput {c : Conn} {chunk : Bytes} (found : w.conns fd = some c) :
    (w.appendInput fd chunk).state = w.state.setInput fd (c.input ++ chunk) := by
  have moved : (w.appendInput fd chunk).state =
      w.state.update fd fun client => { client with input := client.input ++ chunk } :=
    state_update fun _ => rfl
  have client : w.state.clients fd = some c.client := by simp [found]
  rw [moved, State.setInput]
  exact State.update_congr client rfl

/-- One complete frame: a packet, after which the frame leaves the buffer. -/
theorem handleFrame_packet {c : Conn} {type : UInt16} {payload : Bytes} {size : Nat}
    (agree : RoomsAgree w) (found : w.conns fd = some c) :
    ∃ told c', Packet (rules k cfg) fd payload type
        (w.state.emit (.packet w.clients fd type payload)) told ∧
      (w.handleFrame k cfg fd type payload size).state =
        (told.noteHandled fd).setInput fd (c.input.drop size) ∧
      RoomsAgree (w.handleFrame k cfg fd type payload size) ∧
      (w.handleFrame k cfg fd type payload size).conns fd = some c' ∧
      c'.input = c.input.drop size := by
  have emitted : RoomsAgree (w.emit (.packet w.clients fd type payload)) :=
    agree.congr rfl fun _ _ => .rfl
  obtain ⟨packet, told⟩ := @handlePacket_packet k cfg _ fd c type payload emitted found
  have client : w.state.clients fd = some c.client := by simp [found]
  have sends : Sends False (fun _ => True) _ _ := packet.sends trivial fun _ => trivial
  obtain ⟨later, laterFound, carries⟩ := sends.present fd c.client client
  unfold handleFrame
  generalize (w.emit (.packet w.clients fd type payload)).handlePacket k cfg fd type payload =
    after at *
  obtain ⟨c', found', rfl⟩ : ∃ c', after.conns fd = some c' ∧ c'.client = later := by
    simpa using laterFound
  have input : c'.input = c.input := carries.input
  have noted : (after.noteHandled fd).conns fd = some c' := found'
  refine ⟨_, { c' with input := c'.input.drop size }, packet, ?_, ?_, ?_, ?_⟩
  · rw [state_eraseInput noted, state_noteHandled, input]
  · exact (told.congr rfl fun _ _ => .rfl : RoomsAgree (after.noteHandled fd)).update fun _ => rfl
  · simp [eraseInput, World.update, noted]
  · simp only [input]

theorem parseLoop_parse (fuel : Nat) (agree : RoomsAgree w)
    (enough : ∀ c, w.conns fd = some c → c.input.length ≤ fuel) :
    Parse (rules k cfg) fd w.state (parseLoop k cfg fd fuel w).state ∧
      RoomsAgree (parseLoop k cfg fd fuel w) := by
  induction fuel generalizing w with
  | zero =>
      refine ⟨?_, agree⟩
      cases found : w.conns fd with
      | none => exact .closing (by simp [State.Open, found])
      | some c =>
          have client : w.state.clients fd = some c.client := by simp [found]
          have empty : c.input = [] := List.length_eq_zero_iff.mp (Nat.le_zero.mp (enough c found))
          cases closing : c.closing with
          | true => exact .closing (by simp [State.open_iff client, Conn.client, closing])
          | false =>
              exact .more client closing
                (by simp [Conn.client, empty, Framing.next, Framing.headerSize])
  | succ fuel ih =>
      cases found : w.conns fd with
      | none =>
          simp only [parseLoop, found]
          exact ⟨.closing (by simp [State.Open, found]), agree⟩
      | some c =>
          have client : w.state.clients fd = some c.client := by simp [found]
          have next : Framing.next maxPayload c.client.input = _ := next_eq c.input
          simp only [parseLoop, found]
          cases closing : c.closing with
          | true =>
              rw [if_pos (Or.inl rfl)]
              exact ⟨.closing (by simp [State.open_iff client, Conn.client, closing]), agree⟩
          | false =>
              simp only [Bool.false_eq_true, false_or]
              split
              next short =>
                exact ⟨.more client closing (next.trans (if_pos short)), agree⟩
              next long =>
                rw [if_neg long] at next
                split
                next beyond =>
                  refine ⟨?_, doom_agree (agree.congr rfl fun _ _ => .rfl)⟩
                  rw [state_doom, state_emit]
                  exact .oversize client closing (next.trans (if_pos beyond))
                next within =>
                  rw [if_neg within] at next
                  split
                  next cut => exact ⟨.more client closing (next.trans (if_pos cut)), agree⟩
                  next complete =>
                    rw [if_neg complete] at next
                    obtain ⟨told, c', packet, moved, after, found', input⟩ :=
                      @handleFrame_packet k cfg w fd c (LittleEndian.read (c.input.drop 2))
                        ((c.input.drop headerSize).take (LittleEndian.read c.input).toNat)
                        (headerSize + (LittleEndian.read c.input).toNat) agree found
                    obtain ⟨rest, restAgree⟩ := ih after (by
                      intro last lastFound
                      rw [found', Option.some.injEq] at lastFound
                      have bound := enough c found
                      rw [← lastFound, input, List.length_drop]
                      simp only [headerSize, Framing.headerSize]
                      omega)
                    rw [moved] at rest
                    exact ⟨.late client closing next packet rest, restAgree⟩

theorem parseFrames_parse (agree : RoomsAgree w) :
    ∃ told, Parse (rules k cfg) fd w.state told ∧
      (w.parseFrames k cfg fd).state = told.noteParsed fd ∧ RoomsAgree (w.parseFrames k cfg fd) := by
  obtain ⟨parse, after⟩ := @parseLoop_parse k cfg w fd ((w.conns fd).elim 0 (·.input.length)) agree
    (by
      intro c found
      rw [found]
      exact Nat.le_refl _)
  exact ⟨_, parse, state_noteParsed, after.congr rfl fun _ _ => .rfl⟩

theorem onReadable_reads (fuel : Nat) (script : List (RecvAnswer UInt8)) (agree : RoomsAgree w)
    (opened : w.state.Open fd) (enough : scriptCost script ≤ fuel) :
    Reads (rules k cfg) fd script w.state (onReadable k cfg fd fuel script w).state ∧
      RoomsAgree (onReadable k cfg fd fuel script w) := by
  have quiet : ∀ (w : World) (obs : Obs Bytes), RoomsAgree w → RoomsAgree (w.emit obs) :=
    fun _ _ agree => agree.congr rfl fun _ _ => .rfl
  induction fuel generalizing w script with
  | zero => exact absurd (scriptCost_pos script) (by omega)
  | succ fuel ih =>
      cases script with
      | nil =>
          exact ⟨.drained (.inl rfl) afterQueue_follows, afterQueue_agree (quiet w _ agree)⟩
      | cons answer script =>
          cases answer with
          | eof =>
              simp only [onReadable]
              exact ⟨state_doom ▸ .ended ⟨script, .inr (.inl rfl)⟩, doom_agree (quiet w _ agree)⟩
          | failed =>
              simp only [onReadable]
              exact ⟨state_doom ▸ .ended ⟨script, .inr (.inr rfl)⟩, doom_agree (quiet w _ agree)⟩
          | wouldBlock =>
              exact ⟨.drained (.inr ⟨script, rfl⟩) afterQueue_follows,
                afterQueue_agree (quiet w _ agree)⟩
          | interrupted =>
              simp only [scriptCost] at enough
              obtain ⟨reads, after⟩ := ih script (quiet w (.recv fd []) agree) opened (by omega)
              exact ⟨.interrupted reads, after⟩
          | data bytes =>
              obtain ⟨client, found, closing⟩ := id opened
              obtain ⟨c, connFound, rfl⟩ : ∃ c, w.conns fd = some c ∧ c.client = client := by
                simpa using found
              simp only [onReadable, connFound]
              split
              next empty =>
                have none : bytes = [] := by
                  cases bytes with
                  | nil => rfl
                  | cons byte bytes => simp [recvSize] at empty
                subst none
                exact ⟨state_doom ▸ .ended ⟨script, .inl rfl⟩, doom_agree (quiet w _ agree)⟩
              next some =>
                have split : bytes = bytes.take recvSize ++ bytes.drop recvSize :=
                  (List.take_append_drop _ _).symm
                have short : (bytes.take recvSize).length ≤ recvSize := List.length_take_le _ _
                split
                next beyond =>
                  refine ⟨?_, doom_agree (quiet w _ agree)⟩
                  rw [state_doom, state_emit]
                  refine .backlog _ found ?_
                  simp only [maxPayload, headerSize, Framing.headerSize, recvSize] at beyond short
                  simp only [maxFrame, maxPayload, headerSize, Framing.headerSize, Conn.client]
                  omega
                next within =>
                  have grown : ((w.emit (.recv fd (bytes.take recvSize))).appendInput fd
                      (bytes.take recvSize)).state =
                      w.state.receive fd c.client (bytes.take recvSize) :=
                    state_appendInput connFound
                  have grownAgree : RoomsAgree ((w.emit (.recv fd (bytes.take recvSize))).appendInput
                      fd (bytes.take recvSize)) := (quiet w _ agree).update fun _ => rfl
                  obtain ⟨told, parse, parsed, parsedAgree⟩ := @parseFrames_parse k cfg _ fd grownAgree
                  rw [grown] at parse
                  generalize ((w.emit (.recv fd (bytes.take recvSize))).appendInput fd
                    (bytes.take recvSize)).parseFrames k cfg fd = after at *
                  have stillOpen : told.Open fd ↔ after.state.Open fd := by rw [parsed]; exact .rfl
                  rw [split]
                  split
                  next shut =>
                    refine ⟨parsed ▸ .stopped found some parse ?_, parsedAgree⟩
                    rw [stillOpen, open_iff, shut]
                    exact Bool.noConfusion
                  next notShut =>
                    have afterOpen : after.state.Open fd := by
                      rw [open_iff]
                      exact Bool.eq_false_iff.mpr notShut
                    have cost := pushBack_cost (bytes.drop recvSize) script
                    have sizes := congrArg List.length split
                    have nonempty := List.length_pos_iff.mpr some
                    rw [List.length_append] at sizes
                    simp only [scriptCost] at enough
                    obtain ⟨reads, last⟩ := ih (pushBack (bytes.drop recvSize) script) parsedAgree
                      afterOpen (by omega)
                    rw [← split]
                    rw [parsed] at reads
                    refine ⟨?_, last⟩
                    have whole := Reads.again found some parse (stillOpen.mpr afterOpen) reads
                    rwa [← split] at whole

/-! ## The main loop -/

/-- What every call of the main loop keeps. -/
structure Sound (w : World) : Prop where
  agree : RoomsAgree w
  counted : w.state.Counted

theorem Sound.init : Sound init :=
  ⟨.init, [], .nil, by simp [State.Live, World.init, state, clients], rfl⟩

theorem close_state : (w.close fd).state = w.state.remove fd := by
  have clients : (fun other => (Function.update w.conns fd none other).map Conn.client) =
      Function.update w.clients fd none := by
    funext other
    by_cases own : other = fd
    · subst own
      simp
    · simp [own, World.clients]
  simp only [state, State.remove, close, World.emit, State.emit]
  exact congrArg (State.mk · _ _ _ _ _) clients

theorem emplace_state : (w.emplace fd).state = w.state.insert fd := by
  have clients : (fun other => (Function.update w.conns fd (some {}) other).map Conn.client) =
      Function.update w.clients fd (some {}) := by
    funext other
    by_cases own : other = fd
    · subst own
      simp [Conn.client]
    · simp [own, World.clients]
  simp only [state, State.insert, emplace, World.emit, State.emit]
  exact congrArg (State.mk · _ _ _ _ _) clients

theorem Sound.emit (sound : Sound w) (obs : Obs Bytes) : Sound (w.emit obs) :=
  ⟨sound.agree.congr rfl fun _ _ => .rfl, sound.counted⟩

theorem Sound.emplace (sound : Sound w) (found : w.conns fd = none) : Sound (w.emplace fd) := by
  refine ⟨sound.agree.congr rfl fun name other => ?_, ?_⟩
  · rw [inRoom_iff, inRoom_iff]
    by_cases own : other = fd
    · subst own
      simp [World.emplace, found, eq_comm]
    · simp [World.emplace, own]
  · rw [emplace_state]
    exact State.insert_counted sound.counted (by simp [State.Live, found])

theorem onAccept_accepts (answers : List AcceptAnswer) (sound : Sound w) :
    (onAccept cfg answers w).state = State.onAccept (rules k cfg) answers w.state ∧
      Sound (onAccept cfg answers w) := by
  induction answers generalizing w with
  | nil => exact ⟨rfl, sound⟩
  | cons answer answers ih =>
      cases answer with
      | interrupted | aborted => exact ih sound
      | outOfFds | failed | wouldBlock => exact ⟨rfl, sound⟩
      | arrived fd added =>
          cases found : w.conns fd with
          | some c =>
              simp only [onAccept, State.onAccept, state_clients, found, Option.map_some,
                Option.isSome_some, if_true]
              exact ih sound
          | none =>
              have full_iff : (rules k cfg).full w.state.size fd = true ↔ cfg.maxConns ≤ w.size :=
                decide_eq_true_iff
              simp only [onAccept, State.onAccept, state_clients, found, Option.map_none,
                Option.isSome_none, Bool.false_eq_true, if_false, full_iff]
              by_cases full : cfg.maxConns ≤ w.size
              · rw [if_pos full, if_pos (Or.inl full)]
                exact ih (sound.emit _)
              · rw [if_neg full]
                cases added with
                | false =>
                    rw [if_pos rfl, if_pos (Or.inr rfl)]
                    exact ih (sound.emit _)
                | true =>
                    have free : ¬ (cfg.maxConns ≤ w.size ∨ true = false) := by
                      rintro (wrong | wrong)
                      · exact full wrong
                      · cases wrong
                    rw [if_neg Bool.noConfusion, if_neg free]
                    obtain ⟨same, last⟩ := ih (sound.emplace found)
                    exact ⟨same.trans (congrArg _ emplace_state), last⟩

theorem handleReady_handles {what : Ready} (agree : RoomsAgree w) :
    Handles (rules k cfg) (.ready what) w.state (w.handleReady k cfg what).state ∧
      RoomsAgree (w.handleReady k cfg what) := by
  cases found : w.conns what.fd with
  | none =>
      simp only [handleReady, found]
      exact ⟨.gone (by simp [State.Open, found]), agree⟩
  | some c =>
      have client : w.state.clients what.fd = some c.client := by simp [found]
      cases closing : c.closing with
      | true =>
          simp only [handleReady, found, closing, if_true]
          exact ⟨.gone (by simp [State.open_iff client, Conn.client, closing]), agree⟩
      | false =>
          have opened : w.state.Open what.fd := ⟨c.client, client, closing⟩
          cases hangup : what.hangup with
          | true =>
              simp only [handleReady, found, closing, hangup, Bool.false_eq_true, if_true, if_false]
              exact ⟨state_doom ▸ .hangup opened hangup, doom_agree agree⟩
          | false =>
              obtain ⟨flushed, flushes, flushedAgree⟩ : ∃ flushed : World,
                  (what.writable = true ∧ Flushes (rules k cfg) what.fd w.state flushed.state ∨
                    what.writable = false ∧ flushed.state = w.state) ∧ RoomsAgree flushed ∧
                  (if what.writable then w.flushSend k what.fd else w) = flushed := by
                cases writable : what.writable with
                | true =>
                    exact ⟨_, .inl ⟨rfl, flushSend_flushes⟩, flushSend_agree cfg agree, if_pos rfl⟩
                | false => exact ⟨w, .inr ⟨rfl, rfl⟩, agree, if_neg Bool.noConfusion⟩
              obtain ⟨flushedAgree, same⟩ := flushedAgree
              simp only [handleReady, found, closing, hangup, Bool.false_eq_true, if_false, same]
              by_cases reads : flushed.state.Open what.fd ∧ what.readable = true
              · rw [if_pos ⟨open_iff.mp reads.1, reads.2⟩]
                obtain ⟨read, after⟩ := @onReadable_reads k cfg flushed what.fd
                  (scriptCost what.script) what.script flushedAgree reads.1 (Nat.le_refl _)
                exact ⟨.serve opened hangup flushes (.inl ⟨reads.1, reads.2, read⟩), after⟩
              · rw [if_neg fun both => reads ⟨open_iff.mpr both.1, both.2⟩]
                exact ⟨.serve opened hangup flushes (.inr ⟨reads, rfl⟩), flushedAgree⟩

theorem handleEvent_handles (event : Event) (sound : Sound w) :
    Handles (rules k cfg) event w.state (w.handleEvent k cfg event).state ∧
      Sound (w.handleEvent k cfg event) := by
  cases event with
  | accept answers =>
      obtain ⟨same, after⟩ := @onAccept_accepts k cfg w answers sound
      simp only [handleEvent, same]
      exact ⟨.accept, after⟩
  | signal => exact ⟨.signal, sound.agree.congr rfl fun _ _ => .rfl, sound.counted⟩
  | ready what =>
      obtain ⟨handles, after⟩ := @handleReady_handles k cfg w what sound.agree
      exact ⟨handles, after, handles.sameFds.counted sound.counted⟩

theorem drain_drains (events : List Event) (sound : Sound w) :
    Drains (rules k cfg) events w.state (events.foldl (handleEvent k cfg) w).state ∧
      Sound (events.foldl (handleEvent k cfg) w) := by
  induction events generalizing w with
  | nil => exact ⟨.nil, sound⟩
  | cons event events ih =>
      obtain ⟨handles, next⟩ := @handleEvent_handles k cfg w event sound
      obtain ⟨drains, last⟩ := ih next
      exact ⟨.cons handles drains, last⟩

/-! ### The tick -/

theorem deliverTick_ticks {buf : Bytes} :
    Ticks (rules k cfg) w.state (w.deliverTick k cfg buf fd).state ∧
      (w.deliverTick k cfg buf fd).rooms = w.rooms := by
  cases found : w.conns fd with
  | none =>
      simp only [deliverTick, found]
      exact ⟨.nil, trivial⟩
  | some c =>
      cases closing : c.closing with
      | true =>
          simp only [deliverTick, found, closing, if_true]
          exact ⟨.nil, trivial⟩
      | false =>
          simp only [deliverTick, found, closing, Bool.false_eq_true, if_false]
          have opened : w.state.Open fd := ⟨c.client, by simp [found], closing⟩
          refine ⟨.visit buf opened ?_ .nil, ?_⟩
          · rw [← state_queueTickFrame]
            exact afterQueue_follows
          · rw [afterQueue_rooms]
            exact queueTickFrame_rooms

theorem foldl_deliverTick {buf : Bytes} (members : List Fd) :
    Ticks (rules k cfg) w.state (members.foldl (fun w fd => w.deliverTick k cfg buf fd) w).state ∧
      (members.foldl (fun w fd => w.deliverTick k cfg buf fd) w).rooms = w.rooms := by
  induction members generalizing w with
  | nil => exact ⟨.nil, rfl⟩
  | cons fd members ih =>
      obtain ⟨first, firstRooms⟩ := @deliverTick_ticks k cfg w fd buf
      obtain ⟨rest, restRooms⟩ := @ih (w.deliverTick k cfg buf fd)
      exact ⟨first.trans rest, restRooms.trans firstRooms⟩

theorem flushTickRoom_ticks {entry : Bytes × Bytes} :
    Ticks (rules k cfg) w.state (w.flushTickRoom k cfg entry).state ∧
      (w.flushTickRoom k cfg entry).rooms = w.rooms := by
  unfold flushTickRoom
  split
  · exact ⟨.nil, rfl⟩
  · simp only
    split
    · exact ⟨.nil, rfl⟩
    next members _ =>
      obtain ⟨ticks, rooms⟩ := @foldl_deliverTick k cfg w.asked entry.2 (k.walk w.clock members)
      exact ⟨ticks, rooms⟩

theorem flushTickRooms_ticks :
    Ticks (rules k cfg) w.state (w.flushTickRooms k cfg).state ∧
      (w.flushTickRooms k cfg).rooms = w.rooms := by
  have walk : ∀ (entries : List (Bytes × Bytes)) (w : World),
      Ticks (rules k cfg) w.state (entries.foldl (flushTickRoom k cfg) w).state ∧
        (entries.foldl (flushTickRoom k cfg) w).rooms = w.rooms := by
    intro entries
    induction entries with
    | nil => exact fun _ => ⟨.nil, rfl⟩
    | cons entry entries ih =>
        intro w
        obtain ⟨first, firstRooms⟩ := @flushTickRoom_ticks k cfg w entry
        obtain ⟨rest, restRooms⟩ := ih (w.flushTickRoom k cfg entry)
        exact ⟨first.trans rest, restRooms.trans firstRooms⟩
  exact walk _ w.asked

theorem Sound.of_sends {after : World} (sound : Sound w) (rooms : after.rooms = w.rooms)
    (sends : Sends True (fun _ => True) w.state after.state) : Sound after :=
  ⟨sound.agree.of_sends rooms sends, sends.counted sound.counted⟩

/-! ### The flush pass and the reaping -/

theorem state_flushDirtyOne_open (cfg : Config) (opened : w.state.Open fd) :
    ∃ done, (rules k cfg).modifies done ∧
      (flushDirtyOne k w fd).state = (w.state.clean fd).flushSend (k.send w.clock) done fd := by
  obtain ⟨client, found, closing⟩ := opened
  obtain ⟨c, connFound, rfl⟩ : ∃ c, w.conns fd = some c ∧ c.client = client := by simpa using found
  have closing : c.closing = false := closing
  have one : flushDirtyOne k w fd =
      (w.update fd fun c => { c with dirty := false }).flushSend k fd := by
    simp only [flushDirtyOne, connFound, closing, Bool.false_eq_true, if_false]
  have cleaned : (w.update fd fun c => { c with dirty := false }).state = w.state.clean fd :=
    state_update fun _ => rfl
  rw [one, ← cleaned]
  exact state_flushSend cfg

theorem state_flushDirtyOne_shut (shut : ¬ w.state.Open fd) :
    (flushDirtyOne k w fd).state = w.state.clean fd := by
  cases found : w.conns fd with
  | none =>
      have same : (w.state.clean fd).clients = w.state.clients := by
        funext other
        by_cases own : other = fd
        · subst own
          simp [State.clean, found]
        · simp [State.clean, own]
      simp only [flushDirtyOne, found]
      exact (congrArg (fun clients => ({ w.state with clients } : State Bytes)) same).symm
  | some c =>
      have closing : c.closing = true := by simpa [open_iff, found] using shut
      simp only [flushDirtyOne, found, closing, if_true]
      exact state_update fun _ => rfl

theorem flushDirtyOne_rooms : (flushDirtyOne k w fd).rooms = w.rooms := by
  unfold flushDirtyOne
  split
  · rfl
  · simp only
    split
    · rfl
    · rw [flushSend_rooms, update_rooms]

theorem flushDirty_flushes (sound : Sound w) :
    FlushDirty (rules k cfg) w.state.dirty w.state (w.flushDirty k).state ∧
      Sound (w.flushDirty k) := by
  have walk : ∀ (fds : List Fd) (w : World),
      FlushDirty (rules k cfg) fds w.state
          (World.state { fds.foldl (flushDirtyOne k) w with dirty := [] }) ∧
        (fds.foldl (flushDirtyOne k) w).rooms = w.rooms := by
    intro fds
    induction fds with
    | nil => exact fun _ => ⟨.nil, rfl⟩
    | cons fd fds ih =>
        intro w
        obtain ⟨rest, restRooms⟩ := ih (flushDirtyOne k w fd)
        refine ⟨?_, restRooms.trans flushDirtyOne_rooms⟩
        by_cases opened : w.state.Open fd
        · obtain ⟨done, modifies, same⟩ := @state_flushDirtyOne_open k w fd cfg opened
          exact .flush opened ⟨_, done, modifies, same⟩ rest
        · rw [state_flushDirtyOne_shut opened] at rest
          exact .skip opened rest
  obtain ⟨flushes, rooms⟩ := walk w.dirty w
  exact ⟨flushes, sound.of_sends rooms flushes.sends⟩

theorem depart_departs {c : Conn} (agree : RoomsAgree w) (found : w.conns fd = some c) :
    Depart (rules k cfg) fd c.client w.state (w.depart k cfg fd c).state ∧
      RoomsAgree (w.depart k cfg fd c) ∧
      ∀ name, ¬ (w.depart k cfg fd c).state.InRoom name fd := by
  have live : w.state.Live fd := live_iff.mpr ⟨c, found⟩
  have left : RoomsAgree (w.leaveRoom cfg fd) := leaveRoom_agree found agree
  have outside := @leaveRoom_outside cfg w fd live
  by_cases announces : c.room ≠ [] ∧ c.nick ≠ []
  · have told : Broadcast (rules k cfg) c.room sNotice (leftNotice c.nick) (some fd) _ _ :=
      broadcast_broadcasts left
    simp only [depart, announces, ne_eq, not_false_eq_true, and_self, if_true]
    refine ⟨?_, broadcast_agree left, fun name => ?_⟩
    · rw [leaveRoom_state found] at told
      exact .notice (by simp [Conn.client, announces.1]) announces.2 told
    · have sends : Sends True (fun _ => True) (w.leaveRoom cfg fd).state _ := told.sends trivial
      rw [sends.inRoom_iff]
      exact outside name
  · rw [depart, if_neg announces]
    refine ⟨?_, left, outside⟩
    rw [leaveRoom_state found]
    refine .silent ?_
    by_cases empty : c.room = []
    · exact .inl (by simp [Conn.client, empty])
    · exact .inr (by
        by_contra named
        exact announces ⟨empty, named⟩)

/-- A connection that is reaped, notices included. -/
theorem Sound.reaped {c : Conn} (k : Kernel) (cfg : Config) (sound : Sound w)
    (found : w.conns fd = some c) :
    Sound (((w.emit (.departs w.clients fd)).depart k cfg fd c).close fd) := by
  obtain ⟨departs, told, outside⟩ := @depart_departs k cfg
    (w.emit (.departs w.clients fd)) fd c (sound.emit _).agree found
  have sends : Sends False (fun _ => True) (w.emit (.departs w.clients fd)).state _ :=
    departs.sends trivial
  have live : w.state.Live fd := live_iff.mpr ⟨c, found⟩
  generalize (w.emit (.departs w.clients fd)).depart k cfg fd c = after at *
  refine ⟨told.congr rfl fun name other => ?_, ?_⟩
  · rw [close_state]
    by_cases own : other = fd
    · subst own
      exact iff_of_false (by simp [State.InRoom, State.remove]) (outside name)
    · simp [State.InRoom, State.remove, own]
  · rw [close_state]
    exact State.remove_counted (sends.counted sound.counted) ((sends.live_iff fd).mpr live)

/-- The bound on the index loop is the doomed plus the open connections: what a
departure dooms was open. A larger bound changes nothing. -/
theorem reapLoop_reaps (fds : List Fd) (nodup : fds.Nodup) (fuel index : Nat) (sound : Sound w)
    (covers : ∀ fd, w.state.Open fd → fd ∈ fds)
    (enough : (w.state.opens fds).length + w.state.doomed.length < fuel + index)
    (inside : index ≤ w.state.doomed.length) :
    Reap (rules k cfg) index w.state (reapLoop k cfg fuel index w).state ∧
      Sound (reapLoop k cfg fuel index w) ∧
      ∀ more, reapLoop k cfg (fuel + more) index w = reapLoop k cfg fuel index w := by
  induction fuel generalizing w index with
  | zero => omega
  | succ fuel ih =>
      have longer : ∀ more, fuel + 1 + more = fuel + more + 1 := by omega
      cases at_index : w.doomed[index]? with
      | none =>
          simp only [longer, reapLoop, at_index]
          exact ⟨.done (List.getElem?_eq_none_iff.mp at_index),
            ⟨sound.agree.congr rfl fun _ _ => .rfl, sound.counted⟩, fun _ => trivial⟩
      | some fd =>
          have bound : index < w.state.doomed.length := by
            by_contra beyond
            have past : w.doomed[index]? = none := List.getElem?_eq_none (Nat.not_lt.mp beyond)
            rw [past] at at_index
            cases at_index
          cases found : w.conns fd with
          | none =>
              simp only [longer, reapLoop, at_index, found]
              obtain ⟨rest, last, same⟩ := ih (index + 1) sound covers (by omega) bound
              exact ⟨.gone at_index (by simp [State.Live, found]) rest, last, same⟩
          | some c =>
              simp only [longer, reapLoop, at_index, found]
              obtain ⟨departs, _⟩ := @depart_departs k cfg
                (w.emit (.departs w.clients fd)) fd c (sound.emit _).agree found
              have sends : Sends False (fun _ => True) (w.emit (.departs w.clients fd)).state _ :=
                departs.sends trivial
              have removed := sound.reaped k cfg found
              generalize (w.emit (.departs w.clients fd)).depart k cfg fd c = after at *
              obtain ⟨lighter, longer, fewer⟩ := sends.remove_weight nodup covers fd
              rw [← close_state] at lighter longer fewer
              have light : ((after.close fd).state.opens fds).length +
                  (after.close fd).state.doomed.length < fuel + (index + 1) :=
                Nat.lt_of_le_of_lt lighter (by rw [← Nat.add_assoc, Nat.add_right_comm]; exact enough)
              obtain ⟨rest, last, same⟩ := ih (index + 1) removed
                (fun other opened => covers other (fewer other opened)) light
                (Nat.le_trans bound longer)
              rw [close_state] at rest
              exact ⟨.close at_index (by simp [found]) departs rest, last, same⟩

theorem reapDoomed_reaps (sound : Sound w) :
    Reap (rules k cfg) 0 w.state (w.reapDoomed k cfg).state ∧ Sound (w.reapDoomed k cfg) ∧
      ∀ more, reapLoop k cfg (w.doomed.length + w.size + 1 + more) 0 w = w.reapDoomed k cfg := by
  obtain ⟨fds, nodup, member, size⟩ := id sound.counted
  have covers : ∀ fd, w.state.Open fd → fd ∈ fds := fun fd ⟨client, found, _⟩ =>
    (member fd).mpr ⟨client, found⟩
  have few : (w.state.opens fds).length ≤ fds.length := List.length_filter_le _ _
  have doomed : w.state.doomed = w.doomed := rfl
  change fds.length = w.size at size
  exact reapLoop_reaps fds nodup _ 0 sound covers (by rw [doomed]; omega) (Nat.zero_le _)

theorem tail_tails (sound : Sound w) :
    Tail (rules k cfg) w.state (w.tail k cfg).state ∧ Sound (w.tail k cfg) := by
  cases batch : cfg.batchFlush with
  | true =>
      obtain ⟨flush, flushed⟩ := @flushDirty_flushes k cfg w sound
      obtain ⟨reap, reaped, _⟩ := @reapDoomed_reaps k cfg _ flushed
      obtain ⟨again, last⟩ := @flushDirty_flushes k cfg _ reaped
      simp only [tail, batch, if_true]
      exact ⟨.batch batch flush reap again, last⟩
  | false =>
      obtain ⟨reap, reaped, _⟩ := @reapDoomed_reaps k cfg w sound
      simp only [tail, batch, Bool.false_eq_true, if_false]
      exact ⟨.immediate batch reap, reaped⟩

theorem iterate_iterates (batch : Batch) (sound : Sound w) :
    Iterates (rules k cfg) batch w.state (w.iterate k cfg batch).state ∧
      Sound (w.iterate k cfg batch) := by
  obtain ⟨drains, drained⟩ := @drain_drains k cfg (w.emit .wake) batch.events (sound.emit _)
  unfold iterate
  simp only
  split
  next due =>
    obtain ⟨ticks, rooms⟩ := @flushTickRooms_ticks k cfg
      (batch.events.foldl (handleEvent k cfg) (w.emit .wake))
    obtain ⟨tails, last⟩ := @tail_tails k cfg _ (drained.of_sends rooms (ticks.sends trivial))
    exact ⟨.mk drains (.inl ⟨due.1, ticks⟩) tails, last⟩
  next notDue =>
    obtain ⟨tails, last⟩ := @tail_tails k cfg _ drained
    exact ⟨.mk drains (.inr rfl) tails, last⟩

theorem runFrom_runs (batches : List Batch) (sound : Sound w) :
    Runs (rules k cfg) batches w.state
        (batches.foldl (fun w batch => if w.running then w.iterate k cfg batch else w) w).state ∧
      Sound (batches.foldl (fun w batch => if w.running then w.iterate k cfg batch else w) w) := by
  induction batches generalizing w with
  | nil => exact ⟨.nil, sound⟩
  | cons batch batches ih =>
      rw [List.foldl_cons]
      cases running : w.running with
      | false =>
          simp only [Bool.false_eq_true, if_false]
          obtain ⟨runs, last⟩ := ih sound
          have same : ∀ batches : List Batch, batches.foldl
              (fun w batch => if w.running then w.iterate k cfg batch else w) w = w := by
            intro batches
            induction batches with
            | nil => rfl
            | cons batch batches ih =>
                rw [List.foldl_cons, running]
                exact ih
          rw [same] at last ⊢
          exact ⟨.stop running, last⟩
      | true =>
          simp only [if_true]
          obtain ⟨iterates, next⟩ := @iterate_iterates k cfg w batch sound
          obtain ⟨runs, last⟩ := ih next
          exact ⟨.cons running iterates runs, last⟩

/-- Every run of `server.cpp` is a run of the event loop. -/
theorem run_runs (k : Kernel) (cfg : Config) (batches : List Batch) :
    Runs (rules k cfg) batches State.init (run k cfg batches).state :=
  (@runFrom_runs k cfg init batches .init).1

end NetEngine.Epoll.Server.World
