import NetEngine.Bench.Reader
import NetEngine.Bench.TrafficProperties

/-! When the reader of a connection declares it dead, and what it makes of a stream of
complete frames: the slot is refilled in a loop that is not left to drain it. -/

set_option autoImplicit false

namespace NetEngine.Bench

open Socket Machine

/-! ## Streams of frames -/

namespace WireFrame

variable {proto : Proto} {frames later : List (WireFrame proto)} {tail : Bytes}

@[simp] theorem stream_nil : stream ([] : List (WireFrame proto)) = [] := rfl

@[simp] theorem stream_cons (frame : WireFrame proto) :
    stream (frame :: frames) = frame.bytes ++ stream frames := rfl

@[simp] theorem stream_append : stream (frames ++ later) = stream frames ++ stream later :=
  List.flatMap_append

theorem read_front {front : Bytes} (long : 2 ≤ front.length) (more : Bytes) :
    LittleEndian.read (front ++ more) = LittleEndian.read front := by
  match front, long with
  | _ :: _ :: _, _ => rfl

/-- What is left in front of the frames to come: less than one of them. -/
def Cut (tail : Bytes) (later : List (WireFrame proto)) : Prop :=
  tail <+: stream later ∧ ∀ frame rest, later = frame :: rest → tail.length < frame.bytes.length

theorem Cut.incomplete (cut : Cut tail later) : Reader.Incomplete proto tail := by
  intro long
  obtain ⟨front, short⟩ := cut
  cases later with
  | nil =>
      rw [stream_nil, List.prefix_nil] at front
      rw [front] at long
      exact absurd long (by decide)
  | cons frame rest =>
      have less := short frame rest rfl
      have inside : tail <+: frame.bytes :=
        List.prefix_of_prefix_length_le front (List.prefix_append _ _) (Nat.le_of_lt less)
      obtain ⟨more, same⟩ := inside
      simp only [headerSize] at long
      have read : LittleEndian.read tail = LittleEndian.read frame.bytes := by
        rw [← same, read_front (by omega)]
      refine ⟨frame.bytes.length - headerSize, read ▸ frame.whole, ?_⟩
      have header := frame.long
      omega

theorem Cut.room (cut : Cut tail later) : tail.length < rxCap := by
  cases later with
  | nil =>
      rw [List.prefix_nil.mp cut.1]
      decide
  | cons frame rest => exact Nat.lt_of_lt_of_le (cut.2 frame rest rfl) frame.small

/-- The front of a stream is some frames and a part of the next one. -/
theorem cut_front {slot : Bytes} (front : slot <+: stream later) :
    ∃ now rest tail, later = now ++ rest ∧ slot = stream now ++ tail ∧ Cut tail rest := by
  induction later generalizing slot with
  | nil => exact ⟨[], [], slot, rfl, rfl, front, fun _ _ same => nomatch same⟩
  | cons frame later ih =>
      rcases Nat.lt_or_ge slot.length frame.bytes.length with short | reached
      · refine ⟨[], frame :: later, slot, rfl, rfl, front, ?_⟩
        intro other rest same
        cases same
        exact short
      · obtain ⟨more, rfl⟩ : frame.bytes <+: slot :=
          List.prefix_of_prefix_length_le (List.prefix_append _ _) front reached
        obtain ⟨now, rest, tail, split, same, cut⟩ :=
          ih ((List.prefix_append_right_inj frame.bytes).mp front)
        refine ⟨frame :: now, rest, tail, by rw [split, List.cons_append], ?_, cut⟩
        rw [same, stream_cons, List.append_assoc]

/-- The frames at the front of the slot are handled, and what is less than one is kept. -/
theorem consumeFrames_stream (recvTs : Int) (node : UInt32) {fuel : Nat} (stats : Stats)
    (cut : Reader.Incomplete proto tail) (enough : (stream frames ++ tail).length ≤ fuel) :
    consumeFrames proto recvTs node fuel stats (stream frames ++ tail) =
      (tail, frames.foldl (handle recvTs node) stats) := by
  induction frames generalizing fuel stats with
  | nil =>
      cases fuel with
      | zero => rfl
      | succ fuel =>
          rw [stream_nil, List.nil_append, consumeFrames]
          split
          · rfl
          next long =>
            obtain ⟨len, found, short⟩ := cut (Nat.le_of_not_lt long)
            simp only [found]
            rw [if_pos short]
            rfl
  | cons frame frames ih =>
      have header := frame.long
      simp only [stream_cons, List.append_assoc, List.length_append, headerSize] at header enough ⊢
      cases fuel with
      | zero => omega
      | succ fuel =>
          have body : headerSize + (frame.bytes.length - headerSize) = frame.bytes.length := by
            simp only [headerSize]
            omega
          have found : payloadLen proto
              (LittleEndian.read (frame.bytes ++ (stream frames ++ tail))) =
                some (frame.bytes.length - headerSize) := by
            rw [read_front (by omega)]
            exact frame.whole
          have type : LittleEndian.read ((frame.bytes ++ (stream frames ++ tail)).drop 2) =
              LittleEndian.read (frame.bytes.drop 2) := by
            rw [List.drop_append_of_le_length (by omega), read_front (by
              rw [List.length_drop]
              omega)]
          have payload : ((frame.bytes ++ (stream frames ++ tail)).drop headerSize).take
              (frame.bytes.length - headerSize) = frame.bytes.drop headerSize := by
            rw [List.drop_append_of_le_length (by simp only [headerSize]; omega),
              List.take_left' (by rw [List.length_drop])]
          rw [consumeFrames, if_neg (by simp only [List.length_append, headerSize]; omega)]
          simp only [found, body, type, payload, List.drop_left]
          rw [if_neg (by simp only [List.length_append]; omega)]
          exact ih _ (by rw [List.length_append]; omega)

end WireFrame

namespace Reader

variable {proto : Proto} {node : UInt32} {reader : Reader} {frames : List (WireFrame proto)}

/-! ## One loop over recv -/

/-- A full slot ends the loop, whatever `recv` would answer. -/
theorem readAvailable_full {rx : Bytes} (full : rx.length = rxCap) (bytesIn : Nat)
    (recvs : List (RecvAnswer UInt8)) : readAvailable rx bytesIn recvs = (rx, bytesIn, false) := by
  cases recvs <;> simp [readAvailable, full]

/-- Data that leaves room ends the loop well; data that leaves none does not. -/
theorem readAvailable_data {rx bytes : Bytes} (bytesIn : Nat) (recvs : List (RecvAnswer UInt8))
    (room : rx.length < rxCap) (some : bytes ≠ []) :
    readAvailable rx bytesIn (.data bytes :: recvs) =
      (rx ++ bytes.take (rxCap - rx.length), bytesIn + min (rxCap - rx.length) bytes.length,
        !decide (rxCap - rx.length ≤ bytes.length)) := by
  have space : rxCap - rx.length ≠ 0 := Nat.sub_ne_zero_of_lt room
  have got : bytes.take (rxCap - rx.length) ≠ [] := by simp [space, some]
  rw [readAvailable]
  simp only [space, if_false, got, List.length_take]
  by_cases full : rxCap - rx.length ≤ bytes.length
  · have whole : (rx ++ bytes.take (rxCap - rx.length)).length = rxCap := by
      rw [List.length_append, List.length_take, Nat.min_eq_left full]
      omega
    rw [if_neg (by omega), readAvailable_full whole]
    simp [full]
  · rw [if_pos (by omega)]
    simp [full]

/-- With room in the slot, the first answer that is not an interruption decides. -/
theorem readAvailable_eq {rx : Bytes} (bytesIn : Nat) (recvs : List (RecvAnswer UInt8))
    (room : rx.length < rxCap) :
    ∃ got, (readAvailable rx bytesIn recvs).1 = rx ++ got ∧
      ((readAvailable rx bytesIn recvs).2.2 = false ↔
        reported recvs = true ∨ fills rx.length recvs = true) ∧
      (fills rx.length recvs = true → (rx ++ got).length = rxCap ∧ reported recvs = false) := by
  have space : rxCap - rx.length ≠ 0 := Nat.sub_ne_zero_of_lt room
  induction recvs with
  | nil => exact ⟨[], by simp [readAvailable], by simp [readAvailable, reported, fills, space],
      by simp [fills]⟩
  | cons answer answers ih =>
      cases answer with
      | eof => exact ⟨[], by simp [readAvailable, space], by simp [readAvailable, reported, space],
          by simp [fills]⟩
      | wouldBlock => exact ⟨[], by simp [readAvailable, space],
          by simp [readAvailable, reported, fills, space], by simp [fills]⟩
      | failed => exact ⟨[], by simp [readAvailable, space],
          by simp [readAvailable, reported, space], by simp [fills]⟩
      | interrupted =>
          simp only [readAvailable, space, if_false, reported, fills]
          exact ih
      | data bytes =>
          cases bytes with
          | nil => exact ⟨[], by simp [readAvailable, space],
              by simp [readAvailable, reported, space], by simp [fills, space]⟩
          | cons byte bytes =>
              have quiet : reported (.data (byte :: bytes) :: answers) = false := rfl
              rw [readAvailable_data bytesIn answers room (List.cons_ne_nil byte bytes)]
              refine ⟨_, rfl, by simp [quiet, fills], fun full => ⟨?_, quiet⟩⟩
              have enough : rxCap - rx.length ≤ (byte :: bytes).length := of_decide_eq_true full
              rw [List.length_append, List.length_take, Nat.min_eq_left enough]
              omega

/-! ## Runs -/

/-- A connection that is still served holds less than a frame, after all it has handled. -/
structure Kept (proto : Proto) (node : UInt32) (frames : List (WireFrame proto))
    (reader : Reader) (turns : List (List (WireFrame proto))) (later : List (WireFrame proto)) :
    Prop where
  split : frames = turns.flatten ++ later
  log : List.Forall₂ (fun entry turn =>
    entry.after = turn.foldl (WireFrame.handle entry.stamp node) entry.before) reader.log turns
  received : reader.received = WireFrame.stream turns.flatten ++ reader.rx
  cut : reader.dead = none → WireFrame.Cut reader.rx later

theorem Kept.start (frames : List (WireFrame proto)) : Kept proto node frames {} [] frames where
  split := rfl
  log := .nil
  received := rfl
  cut := fun _ => ⟨List.nil_prefix, fun frame _ _ =>
    Nat.lt_of_lt_of_le (by decide) frame.long⟩

theorem call_received (reader : Reader) (next : ReadCall) :
    reader.received <+: (reader.call proto node next).received := by
  unfold call
  split
  · exact List.prefix_rfl
  · simp only
    split <;> exact List.prefix_append _ _

theorem run_received (reader : Reader) (calls : List ReadCall) :
    reader.received <+: (Machine.run (call proto node) reader calls).received := by
  induction calls generalizing reader with
  | nil => exact List.prefix_rfl
  | cons next calls ih => exact (call_received reader next).trans (ih _)

theorem call_stopped (dead : reader.dead ≠ none) (next : ReadCall) :
    reader.call proto node next = reader :=
  if_pos dead

theorem run_stopped (dead : reader.dead ≠ none) (calls : List ReadCall) :
    Machine.run (call proto node) reader calls = reader := by
  induction calls with
  | nil => rfl
  | cons next calls ih => rw [run_cons, call_stopped dead, ih]

/-- One call, once it is known what the loop over `recv` did. -/
theorem call_eq (alive : reader.dead = none) {next : ReadCall} {got : Bytes} {bytesIn : Nat}
    {usable : Bool}
    (read : readAvailable reader.rx next.stats.bytesIn next.recvs =
      (reader.rx ++ got, bytesIn, usable)) :
    reader.call proto node next =
      let slot := reader.rx ++ got
      let before := { next.stats with bytesIn }
      let dead := if usable then none else some (next.recvs, slot)
      let parse := consumeFrames proto next.stamp node slot.length before slot
      if next.drain ∧ ¬ usable then
        { reader with rx := slot, received := reader.received ++ got, dead }
      else
        { rx := parse.1
          received := reader.received ++ got
          log := reader.log ++ [⟨next.stamp, before, parse.2⟩]
          dead } := by
  unfold Reader.call
  rw [if_neg (by simp [alive])]
  simp only [read, List.drop_left]

theorem call_fields (alive : reader.dead = none) {next : ReadCall} {got : Bytes} {bytesIn : Nat}
    {usable : Bool}
    (read : readAvailable reader.rx next.stats.bytesIn next.recvs =
      (reader.rx ++ got, bytesIn, usable)) :
    (reader.call proto node next).received = reader.received ++ got ∧
      (reader.call proto node next).dead =
        if usable then none else some (next.recvs, reader.rx ++ got) := by
  rw [call_eq alive read]
  simp only
  split <;> exact ⟨rfl, rfl⟩

/-- The frames that a call makes complete are handled by it, unless the drain loop gives
the connection up. -/
theorem Kept.call {turns : List (List (WireFrame proto))} {later : List (WireFrame proto)}
    (kept : Kept proto node frames reader turns later) (alive : reader.dead = none)
    (next : ReadCall) (fed : (reader.call proto node next).received <+: WireFrame.stream frames) :
    ∃ turns later, Kept proto node frames (reader.call proto node next) turns later := by
  obtain ⟨got, slot, _, _⟩ :=
    readAvailable_eq next.stats.bytesIn next.recvs (kept.cut alive).room
  obtain ⟨bytesIn, usable, read⟩ : ∃ bytesIn usable,
      readAvailable reader.rx next.stats.bytesIn next.recvs =
        (reader.rx ++ got, bytesIn, usable) := ⟨_, _, Prod.ext slot rfl⟩
  rw [(call_fields alive read).1, kept.received, kept.split, WireFrame.stream_append,
    List.append_assoc, List.prefix_append_right_inj] at fed
  rw [call_eq alive read]
  simp only
  generalize ({ next.stats with bytesIn } : Stats) = before
  split
  next given =>
    refine ⟨turns, later, kept.split, kept.log, ?_, ?_⟩
    · simp only [kept.received, List.append_assoc]
    · simp [given.2]
  next =>
    obtain ⟨now, rest, tail, split, same, cut⟩ := WireFrame.cut_front fed
    have parse := WireFrame.consumeFrames_stream next.stamp node before cut.incomplete
      (Nat.le_refl (WireFrame.stream now ++ tail).length)
    rw [← same] at parse
    rw [parse]
    refine ⟨turns ++ [now], rest, ?_, ?_, ?_, fun _ => ?_⟩
    · rw [kept.split, split, List.flatten_append, List.append_assoc]
      simp
    · exact List.rel_append kept.log (.cons rfl .nil)
    · rw [kept.received, List.append_assoc, same, List.flatten_append, WireFrame.stream_append]
      simp
    · exact cut

theorem Kept.run {turns : List (List (WireFrame proto))} {later : List (WireFrame proto)}
    (kept : Kept proto node frames reader turns later) (calls : List ReadCall)
    (fed : (Machine.run (Reader.call proto node) reader calls).received <+:
      WireFrame.stream frames) :
    ∃ turns later, Kept proto node frames (Machine.run (Reader.call proto node) reader calls)
      turns later := by
  induction calls generalizing reader turns later with
  | nil => exact ⟨turns, later, kept⟩
  | cons next calls ih =>
      cases dead : reader.dead with
      | some _ =>
          rw [run_stopped (by simp [dead])]
          exact ⟨turns, later, kept⟩
      | none =>
          obtain ⟨turns, later, kept⟩ := kept.call dead next ((run_received _ calls).trans fed)
          exact ih kept fed

theorem neverFilled_dead (dead : reader.dead ≠ none) (calls : List ReadCall) :
    NeverFilled proto node reader calls := by
  induction calls with
  | nil => trivial
  | cons next calls ih =>
      refine ⟨fun alive => absurd alive dead, ?_⟩
      rw [call_stopped dead]
      exact ih

/-- How a call leaves a connection: a full slot has a frame to handle in front. -/
theorem Kept.call_dead {turns : List (List (WireFrame proto))} {later : List (WireFrame proto)}
    (kept : Kept proto node frames reader turns later) (alive : reader.dead = none)
    (next : ReadCall) (fed : (reader.call proto node next).received <+: WireFrame.stream frames) :
    ∃ slot, (reader.call proto node next).dead =
        (if reported next.recvs = true ∨ fills reader.rx.length next.recvs = true
          then some (next.recvs, slot) else none) ∧
      (fills reader.rx.length next.recvs = true →
        reported next.recvs = false ∧ ¬ Incomplete proto slot) := by
  obtain ⟨got, slot, ended, full⟩ :=
    readAvailable_eq next.stats.bytesIn next.recvs (kept.cut alive).room
  obtain ⟨bytesIn, usable, read⟩ : ∃ bytesIn usable,
      readAvailable reader.rx next.stats.bytesIn next.recvs =
        (reader.rx ++ got, bytesIn, usable) := ⟨_, _, Prod.ext slot rfl⟩
  rw [(call_fields alive read).1, kept.received, kept.split, WireFrame.stream_append,
    List.append_assoc, List.prefix_append_right_inj] at fed
  refine ⟨reader.rx ++ got, ?_, fun filled => ⟨(full filled).2, fun incomplete => ?_⟩⟩
  · rw [(call_fields alive read).2]
    simp only [read] at ended
    simp only [← ended]
    cases usable <;> rfl
  · obtain ⟨now, rest, tail, _, same, cut⟩ := WireFrame.cut_front fed
    have length := (full filled).1
    rw [same] at length incomplete
    cases now with
    | nil => exact absurd length (Nat.ne_of_lt cut.room)
    | cons frame now =>
        have header := frame.long
        rw [WireFrame.stream_cons, List.append_assoc] at incomplete
        simp only [headerSize] at header
        obtain ⟨len, found, short⟩ := incomplete (by
          rw [List.length_append, headerSize]
          omega)
        rw [WireFrame.read_front (by omega), frame.whole, Option.some.injEq] at found
        rw [List.length_append, ← found, headerSize] at short
        omega

/-- Whether a run that goes on from here gives the connection up for a reason. -/
theorem Kept.excused_iff {turns : List (List (WireFrame proto))}
    {later : List (WireFrame proto)} (kept : Kept proto node frames reader turns later)
    (alive : reader.dead = none) (calls : List ReadCall)
    (fed : (Machine.run (Reader.call proto node) reader calls).received <+:
      WireFrame.stream frames) :
    (∀ recvs slot, (Machine.run (Reader.call proto node) reader calls).dead = some (recvs, slot) →
      reported recvs = true ∨ (slot.length = rxCap ∧ Incomplete proto slot)) ↔
      NeverFilled proto node reader calls := by
  induction calls generalizing reader turns later with
  | nil =>
      refine iff_of_true (fun recvs slot dead => ?_) trivial
      rw [run_nil, alive] at dead
      cases dead
  | cons next calls ih =>
      have first := (run_received (reader.call proto node next) calls).trans fed
      obtain ⟨slot, dead, filled⟩ := kept.call_dead alive next first
      rw [NeverFilled, run_cons]
      by_cases full : fills reader.rx.length next.recvs = true
      · -- the loop found no room: nothing excuses it
        obtain ⟨silent, complete⟩ := filled full
        rw [if_pos (.inr full)] at dead
        refine iff_of_false (fun excused => ?_) fun never => ?_
        · rw [run_stopped (by simp [dead])] at excused
          rcases excused next.recvs slot dead with told | whole
          · rw [silent] at told
            cases told
          · exact complete whole.2
        · rw [never.1 alive] at full
          cases full
      · have open_ : fills reader.rx.length next.recvs = false := by simpa using full
        by_cases told : reported next.recvs = true
        · rw [if_pos (.inl told)] at dead
          have stopped : (reader.call proto node next).dead ≠ none := by simp [dead]
          refine iff_of_true (fun recvs slot ended => ?_)
            ⟨fun _ => open_, neverFilled_dead stopped calls⟩
          rw [run_stopped stopped, dead] at ended
          cases ended
          exact .inl told
        · rw [if_neg (not_or.mpr ⟨told, full⟩)] at dead
          obtain ⟨turns, later, kept⟩ := kept.call alive next first
          rw [ih kept dead fed]
          exact ⟨fun never => ⟨fun _ => open_, never⟩, And.right⟩

/-- A reader is healthy on a stream of complete frames exactly when no call fills the slot. -/
theorem healthy_iff_never_filled (proto : Proto) (node : UInt32)
    (frames : List (WireFrame proto)) (calls : List ReadCall)
    (fed : (run proto node calls).received <+: WireFrame.stream frames) :
    Healthy proto node frames (run proto node calls) ↔ NeverFilled proto node {} calls := by
  have start : Kept proto node frames {} [] frames := Kept.start frames
  have excused := start.excused_iff rfl calls fed
  obtain ⟨turns, later, kept⟩ := start.run calls fed
  constructor
  · exact fun healthy => excused.mp healthy.excused
  · exact fun never => {
      excused := excused.mpr never
      parsed := ⟨turns, ⟨later, kept.split.symm⟩, kept.log, kept.received,
        fun alive => (kept.cut alive).incomplete⟩ }

/-- Two frames of the server, cut within the second header. -/
def twoFrames : List (WireFrame study) :=
  [⟨[1, 0, 101, 0, 7], by decide, by decide, by decide⟩,
    ⟨[0, 0, 102, 0], by decide, by decide, by decide⟩]

theorem healthy_iff_never_filled_two :
    Healthy study 0 twoFrames (run study 0
      [⟨[.interrupted, .data [1, 0, 101, 0, 7, 0]], false, 5, {}⟩,
        ⟨[.data [0, 102, 0]], true, 6, {}⟩]) ↔
      NeverFilled study 0 {} [⟨[.interrupted, .data [1, 0, 101, 0, 7, 0]], false, 5, {}⟩,
        ⟨[.data [0, 102, 0]], true, 6, {}⟩] :=
  healthy_iff_never_filled study 0 twoFrames _ (by decide +kernel)

/-- A chat frame of one kilobyte. -/
def kilobyte : WireFrame study where
  bytes := putHeader study 101 1020 ++ List.replicate 1020 0
  long := by decide +kernel
  whole := by decide +kernel
  small := by decide +kernel

/-- A first read takes what waits, up to the whole slot. -/
theorem first_received {waiting : Bytes} (some : waiting ≠ []) :
    (run proto node [⟨[.data waiting], false, 0, {}⟩]).received = waiting.take rxCap := by
  have room : ([] : Bytes).length < rxCap := by decide
  have read := readAvailable_data 0 [] room some
  have alive : ({} : Reader).dead = none := rfl
  rw [run, run_cons, run_nil]
  exact (call_fields alive read).1

/-- Sixty-four of them wait in the kernel: the slot is filled to its last byte with
complete frames, and the connection is declared dead. -/
theorem full_slot_declared_dead :
    ¬ Healthy study 0 (List.replicate 64 kilobyte) (run study 0
      [⟨[.data (WireFrame.stream (List.replicate 64 kilobyte))], false, 0, {}⟩]) := by
  have length : (WireFrame.stream (List.replicate 64 kilobyte)).length = rxCap := by
    have one : kilobyte.bytes.length = 1024 := by
      simp only [kilobyte, List.length_append, List.length_replicate]
      rfl
    rw [WireFrame.stream, List.length_flatMap, List.map_replicate, one, List.sum_replicate]
    rfl
  have start : Kept study 0 (List.replicate 64 kilobyte) {} [] _ := Kept.start _
  generalize List.replicate 64 kilobyte = frames at length start ⊢
  have some : WireFrame.stream frames ≠ [] := by
    intro none
    rw [none] at length
    exact absurd length (by decide)
  intro healthy
  have fed : (run study 0 [⟨[.data (WireFrame.stream frames)], false, 0, {}⟩]).received <+:
      WireFrame.stream frames := by
    rw [first_received some]
    exact List.take_prefix _ _
  have filled := ((start.excused_iff rfl _ fed).mp healthy.excused).1 rfl
  simp only [fills, length] at filled
  exact absurd filled (by decide)

end Reader

/-! ## The loops of run_traffic -/

namespace Traffic

variable {proto : Proto} {cfg : Config} {traffic : Traffic} {event : Ready} {reader : Reader}

/-- The main loop's read is a call of the reader. -/
theorem receive_reader (ready : (traffic.conn event.fd).state = .ready) (alive : reader.dead = none)
    (same : (traffic.conn event.fd).rx = reader.rx) :
    let next := reader.call proto cfg.node ⟨event.recvs, false, event.stamp, traffic.stats⟩
    ((traffic.receive proto cfg event).1.conn event.fd).rx = next.rx ∧
      ((traffic.receive proto cfg event).2 = true ↔ next.dead = none) := by
  have inside := ready_inside ready
  cases read : readAvailable reader.rx traffic.stats.bytesIn event.recvs with
  | mk slot rest =>
      obtain ⟨bytesIn, usable⟩ := rest
      simp only [Traffic.receive, Reader.call, same, read, alive, ne_eq, not_true_eq_false,
        if_false, Bool.false_eq_true, false_and]
      refine ⟨?_, by cases usable <;> simp⟩
      have own := conn_setConn traffic event.fd event.fd { traffic.conn event.fd with
        rx := (consumeFrames proto event.stamp cfg.node slot.length
          { traffic.stats with bytesIn } slot).1 }
      rw [if_pos ⟨rfl, inside⟩] at own
      exact congrArg Conn.rx own

/-- So is that of the drain loop, which gives the connection up without parsing. -/
theorem drainService_reader (alive : reader.dead = none)
    (ready : (traffic.conn event.fd).state = .ready) (readable : event.readable = true)
    (same : (traffic.conn event.fd).rx = reader.rx) :
    let next := reader.call proto cfg.node ⟨event.recvs, true, event.stamp, traffic.stats⟩
    ((traffic.drainService proto cfg event).conn event.fd).rx = next.rx ∧
      (((traffic.drainService proto cfg event).conn event.fd).state = .ready ↔ next.dead = none) := by
  have inside := ready_inside ready
  cases read : readAvailable reader.rx traffic.stats.bytesIn event.recvs with
  | mk slot rest =>
      obtain ⟨bytesIn, usable⟩ := rest
      let filled := traffic.setConn event.fd { traffic.conn event.fd with rx := slot }
      have within : event.fd < filled.conns.length := by
        rw [setConn_length]
        exact inside
      have kept := conn_setConn traffic event.fd event.fd { traffic.conn event.fd with rx := slot }
      rw [if_pos ⟨rfl, inside⟩] at kept
      have own (c : Conn) : (filled.setConn event.fd c).conn event.fd = c := by
        rw [conn_setConn, if_pos ⟨rfl, within⟩]
      unfold Traffic.drainService Reader.call
      rw [if_neg (not_not.mpr ready), if_neg (not_not.mpr readable)]
      simp only [same, read, alive, ne_eq, not_true_eq_false, if_false, true_and]
      cases usable with
      | true =>
          simp only [not_true_eq_false, if_false, if_true, iff_true]
          exact ⟨congrArg Conn.rx (own { traffic.conn event.fd with rx := _ }),
            (congrArg Conn.state (own { traffic.conn event.fd with rx := _ })).trans ready⟩
      | false =>
          simp only [Bool.false_eq_true, not_false_eq_true, if_true, if_false]
          have lost := own { filled.conn event.fd with state := .dead }
          have rx : (filled.conn event.fd).rx = slot := congrArg Conn.rx kept
          refine ⟨(congrArg Conn.rx lost).trans rx, iff_of_false (fun ready => ?_) (by simp)⟩
          have same : ConnState.dead = .ready := (congrArg Conn.state lost).symm.trans ready
          cases same

end Traffic

end NetEngine.Bench
