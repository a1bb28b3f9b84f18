import NetEngine.Epoll.ServerProperties

/-! Who the send cap of `server.cpp` closes: who was refused bytes, and also who
has a read loop queue more than the cap for it before the next flush. -/

set_option autoImplicit false

namespace NetEngine.Epoll.Server

open Socket

namespace World

variable {k : Kernel} {cfg : Config} {w : World}

theorem send_cap_justified (k : Kernel) (cfg : Config) (batches : List Batch) :
    CapJustified (run k cfg batches).trace :=
  (run_runs k cfg batches).cap_justified

/-! ## A flood of nicknames -/

/-- The cap closes nobody but slow readers. -/
def SlowReadersOnly (trace : List (Obs Bytes)) : Prop :=
  ∀ before fd frame after, trace = before ++ .overCap fd frame :: after →
    (meter fd before).refused = true

/-- A `c_set_nick` frame without a payload. -/
def hush : Bytes := Framing.encode cSetNick []

def flood (count : Nat) : Bytes := (List.replicate count hush).flatten

/-- The connection has `count` notices of 16 bytes queued, and was refused none. -/
structure Filled (w : World) (count : Nat) (input : Bytes) : Prop where
  conn : ∃ c, w.conns 5 = some c ∧ c.closing = false ∧ c.input = input ∧ c.out.length = 16 * count
  willing : (meter 5 w.trace).refused = false

theorem flood_length (count : Nat) : (flood count).length = 4 * count := by
  simp [flood, hush, Framing.encode_length, Framing.headerSize, Nat.mul_comm]

theorem flood_succ (count : Nat) : flood (count + 1) = hush ++ flood count := by
  simp [flood, List.replicate_succ]

namespace Filled

variable {count : Nat} {rest : Bytes}

theorem notice_length : headerSize + (nickNotice []).length = 16 := rfl

/-- The answer to a packet without a nickname, as long as the cap allows it. -/
theorem answer {c : Conn} (found : w.conns 5 = some c) (opened : c.closing = false)
    (fits : c.out.length + 16 ≤ sendCap) :
    w.handlePacket k cfg 5 cSetNick [] =
      (w.update 5 fun c =>
        { c with nick := [], out := c.out ++ Framing.encode sNotice (nickNotice []) }).emit
          (.append 5 sNotice (nickNotice [])) := by
  have short : ¬ maxPayload < (nickNotice []).length := by decide
  have below : ¬ sendCap < c.out.length + headerSize + (nickNotice []).length := by
    rw [Nat.add_assoc, notice_length]
    exact Nat.not_lt.mpr fits
  simp [handlePacket, found, queueSend, enqueue, update, emit, opened, short, below]

theorem frame (filled : Filled w count (hush ++ rest)) (room : count < 16384) :
    Filled (w.handleFrame k cfg 5 cSetNick [] headerSize) (count + 1) rest := by
  obtain ⟨c, found, opened, input, queued⟩ := filled.conn
  have fits : c.out.length + 16 ≤ sendCap := by
    rw [queued]
    simp only [sendCap]
    omega
  have left : (hush ++ rest).drop headerSize = rest := List.drop_left' rfl
  rw [handleFrame, answer (w := w.emit _) found opened fits]
  constructor
  · refine ⟨{ c with
        nick := [], out := c.out ++ Framing.encode sNotice (nickNotice []), input := rest },
      ?_, opened, rfl, ?_⟩
    · simp [eraseInput, noteHandled, update, emit, found, input, left]
    · have size : (Framing.encode sNotice (nickNotice [])).length = 16 := rfl
      simp only [List.length_append, queued, size]
      omega
  · change (meter 5 (((w.trace ++ [_]) ++ [_]) ++ [_])).refused = false
    simp only [meter_snoc, Meter.note, if_true]
    exact filled.willing

theorem handles_hush {c : Conn} {fuel : Nat} (found : w.conns 5 = some c)
    (opened : c.closing = false) (input : c.input = hush ++ rest) :
    parseLoop k cfg 5 (fuel + 1) w =
      parseLoop k cfg 5 fuel (w.handleFrame k cfg 5 cSetNick [] headerSize) := by
  have len : LittleEndian.read (hush ++ rest) = 0 := rfl
  have type : LittleEndian.read ((hush ++ rest).drop 2) = cSetNick := rfl
  have long : ¬ hush.length + rest.length < headerSize :=
    Nat.not_lt.mpr (Nat.le_add_right headerSize rest.length)
  simp [parseLoop, found, opened, input, len, type, long]

/-- The loop of `parse_frames` over the flood. -/
theorem parse (frames fuel : Nat) (filled : Filled w count (flood frames))
    (room : count + frames ≤ 16384) (enough : frames ≤ fuel) :
    Filled (parseLoop k cfg 5 fuel w) (count + frames) [] := by
  induction frames generalizing w count fuel with
  | zero =>
      obtain ⟨c, found, opened, input, _⟩ := filled.conn
      have same : parseLoop k cfg 5 fuel w = w := by
        cases fuel with
        | zero => rfl
        | succ fuel =>
            have short : c.input.length < headerSize := by
              rw [input]
              decide
            simp [parseLoop, found, short]
      rw [same]
      exact filled
  | succ frames ih =>
      obtain ⟨fuel, rfl⟩ := Nat.exists_eq_add_of_lt enough
      obtain ⟨c, found, opened, input, _⟩ := filled.conn
      rw [flood_succ] at filled input
      have step : parseLoop k cfg 5 (frames + fuel + 1) w =
          parseLoop k cfg 5 (frames + fuel) (w.handleFrame k cfg 5 cSetNick [] headerSize) :=
        handles_hush found opened input
      rw [step, ← Nat.add_assoc, Nat.add_right_comm]
      exact ih (frames + fuel) (filled.frame (by omega)) (by omega) (by omega)

theorem receive (filled : Filled w count []) (bytes : Bytes) :
    Filled ((w.emit (.recv 5 bytes)).appendInput 5 bytes) count bytes := by
  obtain ⟨c, found, opened, input, queued⟩ := filled.conn
  constructor
  · exact ⟨{ c with input := bytes }, by simp [appendInput, update, emit, found, input], opened, rfl,
      queued⟩
  · change (meter 5 (w.trace ++ [_])).refused = false
    rw [meter_snoc]
    exact filled.willing

theorem noteParsed (filled : Filled w count rest) : Filled (w.noteParsed 5) count rest := by
  refine ⟨filled.conn, ?_⟩
  change (meter 5 (w.trace ++ [_])).refused = false
  rw [meter_snoc]
  exact filled.willing

theorem parseFrames {frames : Nat} (filled : Filled w count (flood frames))
    (room : count + frames ≤ 16384) : Filled (w.parseFrames k cfg 5) (count + frames) [] := by
  obtain ⟨c, found, _, input, _⟩ := filled.conn
  have enough : frames ≤ (w.conns 5).elim 0 (·.input.length) := by
    rw [found, Option.elim_some, input, flood_length]
    omega
  exact (filled.parse frames _ room enough).noteParsed

/-- The answer to one more packet dooms its sender. -/
theorem brims {c : Conn} (found : w.conns 5 = some c) (opened : c.closing = false)
    (beyond : sendCap < c.out.length + 16) :
    w.handlePacket k cfg 5 cSetNick [] =
      ((w.update 5 fun c => { c with nick := [] }).emit (.overCap 5 16)).doom 5 := by
  have short : ¬ maxPayload < (nickNotice []).length := by decide
  have exceeds : sendCap < c.out.length + headerSize + (nickNotice []).length := by
    rwa [Nat.add_assoc, notice_length]
  simp [handlePacket, found, queueSend, enqueue, update, opened, short, exceeds, notice_length]

theorem last (filled : Filled w 16384 hush) :
    (∃ more, (w.parseFrames k cfg 5).trace =
      (w.trace ++ [.packet w.clients 5 cSetNick []]) ++ .overCap 5 16 :: more) ∧
      ((w.parseFrames k cfg 5).conns 5).elim true (·.closing) = true := by
  obtain ⟨c, found, opened, input, queued⟩ := filled.conn
  have beyond : sendCap < c.out.length + 16 := by
    rw [queued]
    simp only [sendCap]
    omega
  have handled : ∃ c', (w.handleFrame k cfg 5 cSetNick [] headerSize).conns 5 = some c' ∧
      c'.closing = true := by
    rw [handleFrame, brims (w := w.emit _) found opened beyond]
    simp [eraseInput, World.noteHandled, update, emit, found, opened, doom]
  have trace : ∃ more, (w.handleFrame k cfg 5 cSetNick [] headerSize).trace =
      (w.trace ++ [.packet w.clients 5 cSetNick []]) ++ .overCap 5 16 :: more := by
    rw [handleFrame, brims (w := w.emit _) found opened beyond]
    simp [eraseInput, World.noteHandled, update, emit, found, opened, doom]
  obtain ⟨c', after, closing⟩ := handled
  obtain ⟨more, grown⟩ := trace
  have stops : w.parseFrames k cfg 5 =
      (w.handleFrame k cfg 5 cSetNick [] headerSize).noteParsed 5 := by
    have size : (w.conns 5).elim 0 (·.input.length) = 3 + 1 := by
      rw [found]
      exact congrArg List.length input
    have whole : c.input = hush ++ [] := by rw [input, List.append_nil]
    rw [World.parseFrames, size, handles_hush found opened whole]
    simp [parseLoop, after, closing]
  rw [stops]
  constructor
  · obtain ⟨obs, noted⟩ : ∃ obs, ((w.handleFrame k cfg 5 cSetNick [] headerSize).noteParsed 5).trace =
        (w.handleFrame k cfg 5 cSetNick [] headerSize).trace ++ [obs] := ⟨_, rfl⟩
    refine ⟨more ++ [obs], ?_⟩
    rw [noted, grown, List.append_assoc, List.cons_append]
  · simp [World.noteParsed, emit, after, closing]

end Filled

/-- A connection that was refused nothing is over the cap. -/
def Breached (trace : List (Obs Bytes)) : Prop :=
  ∃ before after, trace = before ++ .overCap 5 16 :: after ∧ (meter 5 before).refused = false

theorem Breached.grow {trace more : List (Obs Bytes)} (breached : Breached trace)
    (grows : trace <+: more) : Breached more := by
  obtain ⟨before, after, rfl, willing⟩ := breached
  obtain ⟨rest, rfl⟩ := grows
  exact ⟨before, after ++ rest, by simp, willing⟩

theorem Breached.not_slow {trace : List (Obs Bytes)} (breached : Breached trace) :
    ¬ SlowReadersOnly trace := by
  obtain ⟨before, after, same, willing⟩ := breached
  intro slow
  rw [slow before 5 16 after same] at willing
  cases willing


/-- A connection that sends 16384 packets without a nickname, and one more. -/
def floodBatch : Batch where
  events := [.accept [.arrived 5 true],
    .ready ⟨5, false, false, true, [.data (flood 16384), .data hush]⟩]
  tickDue := false

theorem flood_chunk : (flood 16384).take recvSize = flood 16384 ∧ (flood 16384).drop recvSize = [] := by
  have size : (flood 16384).length = recvSize := flood_length 16384
  rw [← size, List.take_length, List.drop_length]
  exact ⟨rfl, rfl⟩

theorem onReadable_data {fuel : Nat} {bytes : Bytes} {script : List (RecvAnswer UInt8)} {c : Conn}
    (found : w.conns 5 = some c) (input : c.input = []) (whole : bytes.take recvSize = bytes)
    (some : bytes ≠ []) (left : bytes.drop recvSize = []) :
    onReadable k cfg 5 (fuel + 1) (.data bytes :: script) w =
      let parsed := ((w.emit (.recv 5 bytes)).appendInput 5 bytes).parseFrames k cfg 5
      if (parsed.conns 5).elim true (·.closing) then parsed
      else onReadable k cfg 5 fuel script parsed := by
  have small : ¬ maxPayload + headerSize + 65536 < bytes.length := by
    have bound : bytes.length ≤ recvSize := by
      rw [← whole]
      exact List.length_take_le ..
    simp only [recvSize] at bound
    omega
  simp [onReadable, found, input, whole, some, left, small, pushBack]

theorem run_one (k : Kernel) (plain : cfg.coalesce = false) (batch : Batch) :
    run k cfg [batch] =
      (batch.events.foldl (handleEvent k cfg) (init.emit .wake)).tail k cfg := by
  simp [run, iterate, plain, init]

theorem Breached.run (k : Kernel) (plain : cfg.coalesce = false) {batch : Batch}
    (drained : Breached (batch.events.foldl (handleEvent k cfg) (init.emit .wake)).trace) :
    Breached (run k cfg [batch]).trace := by
  rw [run_one k plain]
  have sound := (@drain_drains k cfg (init.emit .wake) batch.events (Sound.init.emit _)).2
  exact drained.grow ((grows_preserves _ _).tail (tail_tails sound).1 (List.prefix_refl _))

theorem serves_first (k : Kernel) (batchFlush : Bool) (script : List (RecvAnswer UInt8)) :
    [.accept [.arrived 5 true], .ready ⟨5, false, false, true, script⟩].foldl
        (handleEvent k ⟨batchFlush, false, 1⟩) (init.emit .wake) =
      onReadable k ⟨batchFlush, false, 1⟩ 5 (scriptCost script) script
        ((init.emit .wake).emplace 5) := by
  simp [handleEvent, onAccept, handleReady, emplace, init, emit]

theorem flood_cost (count : Nat) :
    scriptCost [.data (flood count), .data hush] = 4 * count + 5 + 1 + 1 := by
  have four : hush.length = 4 := rfl
  simp only [scriptCost, flood_length, four]

theorem flood_drained (k : Kernel) (batchFlush : Bool) :
    Breached (floodBatch.events.foldl (handleEvent k ⟨batchFlush, false, 1⟩)
      (init.emit .wake)).trace := by
  have entered : Filled ((init.emit .wake).emplace 5) 0 [] :=
    ⟨⟨{}, by simp [emplace], rfl, rfl, rfl⟩, rfl⟩
  rw [floodBatch, serves_first]
  generalize (init.emit .wake).emplace 5 = w at entered ⊢
  obtain ⟨c, found, _, input, _⟩ := entered.conn
  have several : flood 16384 ≠ [] := fun none => by
    have size := flood_length 16384
    rw [none, List.length_nil] at size
    omega
  rw [flood_cost, onReadable_data found input flood_chunk.1 several flood_chunk.2]
  have full : Filled (((w.emit (.recv 5 (flood 16384))).appendInput 5 (flood 16384)).parseFrames k
      ⟨batchFlush, false, 1⟩ 5) (0 + 16384) [] := (entered.receive _).parseFrames (by omega)
  generalize ((w.emit (.recv 5 (flood 16384))).appendInput 5 (flood 16384)).parseFrames k
    ⟨batchFlush, false, 1⟩ 5 = w at full ⊢
  obtain ⟨c, found, opened, input, _⟩ := full.conn
  have still : (w.conns 5).elim true (·.closing) = false := by rw [found, Option.elim_some, opened]
  simp only [still, Bool.false_eq_true, if_false]
  obtain ⟨⟨more, grown⟩, closing⟩ := @Filled.last k ⟨batchFlush, false, 1⟩ _ (full.receive hush)
  rw [onReadable_data found input rfl (by decide) rfl]
  simp only [closing, if_true]
  refine ⟨_, more, grown, ?_⟩
  rw [meter_snoc]
  exact (full.receive hush).willing

/-- The kernel takes whatever it is offered, and the cap closes the connection. -/
theorem eager_reader_capped :
    ¬ SlowReadersOnly (run eager ⟨false, false, 1⟩ [floodBatch]).trace ∧
      ¬ SlowReadersOnly (run eager ⟨true, false, 1⟩ [floodBatch]).trace :=
  ⟨((flood_drained eager false).run eager rfl).not_slow,
    ((flood_drained eager true).run eager rfl).not_slow⟩

end World

end NetEngine.Epoll.Server
