import NetEngine.Bench.Consume

/-! `consume_frames` against a parse of the whole stream: every frame gives its
notes, wherever the stream was cut, and no read leaves the buffered bytes. -/

set_option autoImplicit false

namespace NetEngine.Bench

open Framing (parse)

/-! ## What a frame adds to the counters -/

inductive Note where
  | frame
  | bad
  | foreign
  | stamp (intended : Int)

namespace Note

/-- One chat payload: text up to the first colon, one more byte, then a blob. -/
def chat (node : UInt32) (payload : Bytes) : Note :=
  match payload.findIdx? (· == 58) with
  | none => .bad
  | some sep =>
      let blob := payload.drop (sep + 2)
      if blob.length < blobHeader then .bad
      else if LittleEndian.value ((blob.drop 12).take 4) ≠ node.toNat then .foreign
      else .stamp (signed64 (LittleEndian.value (blob.take 8)))

/-- The entries of a tick frame, up to the first that is cut short. -/
def tick (node : UInt32) (payload : Bytes) : List Note :=
  if payload.length < 2 then []
  else
    let elen := (LittleEndian.read payload).toNat
    if payload.length < 2 + elen then [.bad]
    else .frame :: chat node ((payload.drop 2).take elen) :: tick node (payload.drop (2 + elen))
termination_by payload.length
decreasing_by simp only [List.length_drop]; omega

section

variable {node : UInt32} {payload : Bytes}

theorem tick_done (short : payload.length < 2) : tick node payload = [] := by
  rw [tick, if_pos short]

theorem tick_cut (long : ¬ payload.length < 2)
    (cut : payload.length < 2 + (LittleEndian.read payload).toNat) : tick node payload = [.bad] := by
  rw [tick, if_neg long]
  exact if_pos cut

theorem tick_entry {elen : Nat} (long : ¬ payload.length < 2)
    (length : (LittleEndian.read payload).toNat = elen) (fits : ¬ payload.length < 2 + elen) :
    tick node payload =
      .frame :: chat node ((payload.drop 2).take elen) :: tick node (payload.drop (2 + elen)) := by
  cases length
  rw [tick, if_neg long]
  exact if_neg fits

end

def ofFrame (proto : Proto) (node : UInt32) (frame : UInt16 × Bytes) : List Note :=
  if frame.1 = proto.idTickOut then tick node frame.2
  else if frame.1 ≠ proto.idChatOut ∨ frame.2.length < blobHeader then [.frame]
  else [.frame, chat node frame.2]

def ofFrames (proto : Proto) (node : UInt32) (frames : List (UInt16 × Bytes)) : List Note :=
  frames.flatMap (ofFrame proto node)

end Note

namespace Tally

def add (tally : Tally) : Note → Tally
  | .frame => { tally with framesIn := tally.framesIn + 1 }
  | .bad => { tally with samplesBad := tally.samplesBad + 1 }
  | .foreign => { tally with foreign := tally.foreign + 1 }
  | .stamp intended => { tally with intended := tally.intended ++ [intended] }

def after (tally : Tally) (notes : List Note) : Tally := notes.foldl add tally

@[simp] theorem after_nil (tally : Tally) : tally.after [] = tally := rfl

@[simp] theorem after_cons (tally : Tally) (note : Note) (notes : List Note) :
    tally.after (note :: notes) = (tally.add note).after notes := rfl

@[simp] theorem after_append (tally : Tally) (first second : List Note) :
    tally.after (first ++ second) = (tally.after first).after second :=
  List.foldl_append

end Tally

/-! ## The slot as a list of bytes -/

namespace Slot

variable {rx : Memory.Ram} {start count skip : Nat}

@[simp] theorem range_length : (range rx start count).length = count := by
  simp [range]

theorem range_getElem? (i : Nat) :
    (range rx start count)[i]? = if i < count then some (rx (start + i)) else none := by
  rw [range, List.getElem?_map]
  split
  next inside => rw [List.getElem?_range inside]; rfl
  next outside => rw [List.getElem?_eq_none (by simpa using outside)]; rfl

@[simp] theorem range_take (keep : Nat) :
    (range rx start count).take keep = range rx start (min keep count) := by
  rw [range, ← List.map_take, List.take_range]
  rfl

@[simp] theorem range_drop : (range rx start count).drop skip = range rx (start + skip) (count - skip) := by
  apply List.ext_getElem?
  intro i
  rw [List.getElem?_drop, range_getElem?, range_getElem?, Nat.add_assoc]
  congr 1
  exact propext (by omega)

theorem range_succ : range rx start (count + 1) = rx start :: range rx (start + 1) count := by
  rw [range, List.range_succ_eq_map]
  simp [range, Nat.add_assoc, Nat.add_comm 1]

theorem value_range : LittleEndian.value (range rx start count) = Memory.read count rx start := by
  induction count generalizing start with
  | zero => rfl
  | succ count ih => rw [range_succ, LittleEndian.value, ih, Memory.read]

theorem read_range (rx : Memory.Ram) (start : Nat) (long : 2 ≤ count) :
    LittleEndian.read (range rx start count) = UInt16.ofNat (Memory.read 2 rx start) := by
  obtain ⟨rest, rfl⟩ := Nat.exists_eq_add_of_le' long
  rw [range_succ, range_succ]
  rfl

theorem read_toNat (rx : Memory.Ram) (start : Nat) (long : 2 ≤ count) :
    (LittleEndian.read (range rx start count)).toNat = Memory.read 2 rx start := by
  obtain ⟨rest, rfl⟩ := Nat.exists_eq_add_of_le' long
  rw [range_succ, range_succ, LittleEndian.read, LittleEndian.decode_toNat]
  rfl

theorem read_word (rx : Memory.Ram) (start : Nat) : Memory.read 2 rx start < 2 ^ 16 := by
  have low := (rx start).toNat_lt
  have high := (rx (start + 1)).toNat_lt
  simp only [Memory.read]
  omega

@[simp] theorem buffered_length (slot : Slot) : slot.buffered.length = slot.rxLen :=
  range_length

end Slot

/-! ## Inside one frame -/

namespace Scan

def Within (limit : Nat) (scan : Scan) : Prop := ∀ read ∈ scan.reads, read.1 + read.2 ≤ limit

variable {proto : Proto} {node : UInt32} {rx : Memory.Ram} {limit : Nat} {scan : Scan}

namespace Within

theorem look (within : scan.Within limit) {start count : Nat} (inside : start + count ≤ limit) :
    (scan.look start count).Within limit := by
  intro read member
  cases List.mem_append.mp member with
  | inl before => exact within read before
  | inr new => rw [List.mem_singleton.mp new]; exact inside

theorem bad (within : scan.Within limit) : scan.bad.Within limit := within

theorem frame (within : scan.Within limit) : scan.frame.Within limit := within

theorem other (within : scan.Within limit) : scan.other.Within limit := within

theorem stamp (within : scan.Within limit) (intended : Int) : (scan.stamp intended).Within limit := within

theorem sample {p n : Nat} (within : scan.Within limit) (inside : p + n ≤ limit) :
    (scan.sample rx node p n).Within limit := by
  unfold Scan.sample
  split
  · exact within.bad
  · have scanned := within.look inside
    split
    · exact scanned.bad
    next i found =>
      simp only
      split
      · exact scanned.bad
      · split
        · exact scanned.bad
        next long =>
          simp only [blobHeader] at long
          have origin : ((scan.look p n).look (p + i + 2 + 12) 4).Within limit :=
            scanned.look (by omega)
          split
          · exact origin.other
          · exact (origin.look (by omega)).stamp _

theorem entries {payload len pos : Nat} (within : scan.Within limit) (inside : payload + len ≤ limit) :
    (scan.entries rx node payload len pos).Within limit := by
  fun_induction Scan.entries rx node payload len pos scan with
  | case1 pos scan room elen looked next short => exact (within.look (by omega)).bad
  | case2 pos scan room elen looked next long ih =>
      exact ih ((within.look (by omega)).frame.sample (by omega))
  | case3 pos scan done => exact within

theorem handle {type : UInt16} {payload len : Nat} (within : scan.Within limit)
    (inside : payload + len ≤ limit) :
    (scan.handle proto rx node type payload len).Within limit := by
  unfold Scan.handle
  split
  · exact within.entries inside
  · simp only
    split
    · exact within.frame
    · exact within.frame.sample inside

end Within

theorem sample_tally {p n : Nat} :
    (scan.sample rx node p n).tally = scan.tally.add (.chat node (Slot.range rx p n)) := by
  have none_short (sep : Nat) (short : n < sep + 2 + blobHeader) :
      ((Slot.range rx p n).drop (sep + 2)).length < blobHeader := by
    rw [Slot.range_drop, Slot.range_length]
    simp only [blobHeader] at *
    omega
  unfold Scan.sample Note.chat
  split
  next tiny =>
    cases (Slot.range rx p n).findIdx? (· == 58) with
    | none => rfl
    | some sep => simp only [if_pos (none_short sep (by omega))]; rfl
  · simp only
    cases found : (Slot.range rx p n).findIdx? (· == 58) with
    | none => rfl
    | some sep =>
        simp only
        split
        next cut => rw [if_pos (none_short _ (by omega))]; rfl
        · split
          next short => rw [if_pos (none_short _ (by omega))]; rfl
          next long =>
            have enough : ¬ ((Slot.range rx p n).drop (sep + 2)).length < blobHeader := by
              rw [Slot.range_drop, Slot.range_length]
              omega
            simp only [blobHeader] at long
            rw [if_neg enough]
            simp only [Slot.range_drop, Slot.range_take, Slot.value_range]
            rw [Nat.min_eq_left (by omega), Nat.min_eq_left (by omega), ← Nat.add_assoc p]
            split
            · rfl
            · rfl

theorem entries_tally {payload len pos : Nat} :
    (scan.entries rx node payload len pos).tally =
      scan.tally.after (Note.tick node (Slot.range rx (payload + pos) (len - pos))) := by
  fun_induction Scan.entries rx node payload len pos scan with
  | case1 pos scan room elen looked next short =>
      have cut : len - pos < 2 + elen := by omega
      rw [Note.tick_cut (by rw [Slot.range_length]; omega)
        (by rwa [Slot.range_length, Slot.read_toNat _ _ room])]
      rfl
  | case2 pos scan room elen looked next long ih =>
      have fits : ¬ len - pos < 2 + elen := by omega
      have front : Slot.range rx (payload + pos + 2) (min elen (len - pos - 2)) =
          Slot.range rx (payload + next) elen := by
        rw [Nat.min_eq_left (by omega), Nat.add_assoc]
      have back : Slot.range rx (payload + pos + (2 + elen)) (len - pos - (2 + elen)) =
          Slot.range rx (payload + (next + elen)) (len - (next + elen)) := by
        congr 1 <;> omega
      rw [ih, sample_tally, Note.tick_entry (by rw [Slot.range_length]; omega)
        (Slot.read_toNat _ _ room) (by rwa [Slot.range_length])]
      simp only [Slot.range_drop, Slot.range_take]
      rw [front, back]
      rfl
  | case3 pos scan done =>
      rw [Note.tick_done (by rw [Slot.range_length]; omega)]
      rfl

theorem handle_tally {type : UInt16} {payload len : Nat} :
    (scan.handle proto rx node type payload len).tally =
      scan.tally.after (Note.ofFrame proto node (type, Slot.range rx payload len)) := by
  unfold Scan.handle Note.ofFrame
  split
  · exact entries_tally
  · simp only [Slot.range_length]
    split
    · rfl
    · exact sample_tally

end Scan

/-! ## One call -/

namespace Slot

variable {proto : Proto} {node : UInt32} {slot : Slot} {off : Nat} {scan : Scan}

/-- The largest payload of a frame that the slot can hold. -/
def roomiest : Nat := rxCap - headerSize

theorem frames_within {limit : Nat} (within : scan.Within limit) (inside : slot.rxLen ≤ limit) :
    (slot.frames proto node off scan).2.Within limit := by
  fun_induction Slot.frames proto node slot off scan with
  | case1 off scan room raw looked malformed =>
      simp only [headerSize] at room
      exact ((within.look (by omega)).look (by omega)).bad
  | case2 off scan room raw looked len found short =>
      simp only [headerSize] at room
      exact (within.look (by omega)).look (by omega)
  | case3 off scan room raw type looked len found complete ih =>
      simp only [headerSize] at room complete
      exact ih (((within.look (by omega)).look (by omega)).handle
        (by simp only [headerSize]; omega))
  | case4 off scan done => exact within

theorem next_short {rx : Memory.Ram} {limit start count : Nat} (short : ¬ headerSize ≤ count) :
    Framing.next limit (range rx start count) = .more := by
  rw [Framing.next, if_pos]
  rw [range_length]
  exact Nat.lt_of_not_le short

theorem next_range {rx : Memory.Ram} {start count len : Nat} (limit : Nat) (room : headerSize ≤ count)
    (length : Memory.read 2 rx start = len) :
    Framing.next limit (range rx start count) =
      if limit < len then .oversize
      else if count < headerSize + len then .more
      else .frame (UInt16.ofNat (Memory.read 2 rx (start + 2))) (range rx (start + headerSize) len)
        (range rx (start + (headerSize + len)) (count - (headerSize + len))) := by
  simp only [headerSize] at room
  rw [Framing.next, range_length, if_neg (by simp only [Framing.headerSize]; omega)]
  simp only [read_toNat rx start (show 2 ≤ count by omega), length, range_drop,
    range_take, read_range rx (start + 2) (show 2 ≤ count - 2 by omega)]
  split
  · rfl
  · split
    · rw [if_pos ‹_›]
    next complete =>
      have whole : min len (count - Framing.headerSize) = len := by
        simp only [Framing.headerSize] at complete ⊢
        omega
      rw [whole, if_neg (c := count < headerSize + len) complete]
      rfl

/-- The loop is a parse of what it has not consumed. -/
theorem frames_parse (node : UInt32) (scan : Scan) (study : proto.lenIncludesHeader = false) (inside : off ≤ slot.rxLen)
    (fitting : (parse roomiest (range slot.rx off (slot.rxLen - off))).oversize = false) :
    ∃ left, (slot.frames proto node off scan).1 = some left ∧ left ≤ slot.rxLen ∧
      range slot.rx left (slot.rxLen - left) =
        (parse roomiest (range slot.rx off (slot.rxLen - off))).rest ∧
      (slot.frames proto node off scan).2.tally = scan.tally.after
        (Note.ofFrames proto node (parse roomiest (range slot.rx off (slot.rxLen - off))).frames) := by
  have length {place len : Nat}
      (found : payloadLen proto (UInt16.ofNat (Memory.read 2 slot.rx place)) = some len) :
      Memory.read 2 slot.rx place = len := by
    simp only [payloadLen, study, Bool.false_eq_true, not_false_eq_true, if_true,
      Option.some.injEq] at found
    rw [← found, UInt16.toNat_ofNat', Nat.mod_eq_of_lt (read_word _ _)]
  fun_induction Slot.frames proto node slot off scan with
  | case1 off scan room raw looked malformed =>
      simp only [payloadLen, study, Bool.false_eq_true, not_false_eq_true, if_true] at malformed
      cases malformed
  | case2 off scan room raw looked len found short =>
      have stopped := next_range roomiest room (length found)
      rw [if_pos short] at stopped
      split at stopped
      next beyond =>
        rw [Framing.parse_oversize stopped] at fitting
        cases fitting
      · rw [Framing.parse_more stopped]
        exact ⟨off, rfl, inside, rfl, rfl⟩
  | case3 off scan room raw type looked len found complete ih =>
      have first := next_range roomiest room (length found)
      rw [if_neg complete] at first
      split at first
      next beyond =>
        rw [Framing.parse_oversize first] at fitting
        cases fitting
      · rw [Framing.parse_frame first] at fitting ⊢
        rw [Nat.sub_sub] at fitting ⊢
        obtain ⟨left, stop, bound, rest, tally⟩ := ih (by omega) fitting
        refine ⟨left, stop, bound, rest, ?_⟩
        rw [tally, Scan.handle_tally]
        simp only [Framing.Parsed.after, Note.ofFrames, List.flatMap_append, List.flatMap_singleton,
          Tally.after_append]
        rfl
  | case4 off scan done =>
      rw [Framing.parse_more (next_short done)]
      exact ⟨off, rfl, inside, rfl, rfl⟩

/-- One call hands out the complete frames and keeps the rest at the front of the slot. -/
theorem consumeFrames_parse (node : UInt32) (tally : Tally) (study : proto.lenIncludesHeader = false)
    (fitting : (parse roomiest slot.buffered).oversize = false) :
    (slot.consumeFrames proto node tally).1.buffered = (parse roomiest slot.buffered).rest ∧
      (slot.consumeFrames proto node tally).2.tally =
        tally.after (Note.ofFrames proto node (parse roomiest slot.buffered).frames) := by
  obtain ⟨left, stop, bound, rest, counted⟩ :=
    frames_parse node ⟨tally, []⟩ study (Nat.zero_le slot.rxLen) fitting
  cases result : slot.frames proto node 0 ⟨tally, []⟩ with
  | mk off scan =>
      rw [result] at stop counted
      cases stop
      unfold Slot.consumeFrames
      rw [result]
      simp only
      split
      next unmoved =>
        cases unmoved
        exact ⟨rest, counted⟩
      · split
        next consumed =>
          rw [consumed] at rest
          exact ⟨rest, counted⟩
        · refine ⟨?_, counted⟩
          have moved : range (fun i => if i < slot.rxLen - left then slot.rx (left + i)
              else slot.rx i) 0 (slot.rxLen - left) = range slot.rx left (slot.rxLen - left) := by
            refine List.map_congr_left fun i inside => ?_
            simp only [Nat.zero_add, if_pos (List.mem_range.mp inside)]
          exact moved.trans rest

theorem consumeFrames_within {tally : Tally} :
    (slot.consumeFrames proto node tally).2.Within slot.rxLen := by
  have within : (slot.frames proto node 0 ⟨tally, []⟩).2.Within slot.rxLen :=
    frames_within (fun read member => nomatch member) (Nat.le_refl _)
  unfold Slot.consumeFrames
  cases result : slot.frames proto node 0 ⟨tally, []⟩ with
  | mk stop scan =>
      rw [result] at within
      cases stop with
      | none => exact within
      | some off =>
          simp only
          split
          · exact within
          · split
            · exact within
            · exact within.look (by omega)

theorem append_buffered (piece : Bytes) :
    (slot.append piece).buffered = slot.buffered ++ piece := by
  apply List.ext_getElem?
  intro i
  rw [buffered, buffered, List.getElem?_append, range_length, range_getElem?, range_getElem?]
  simp only [Slot.append, Nat.zero_add]
  split
  next inside =>
    split
    · rw [if_neg (by omega), List.getD_eq_getElem?_getD, List.getElem?_eq_getElem (by omega)]
      rfl
    next kept =>
      have front : i < slot.rxLen := by omega
      rw [if_pos front, if_pos front]
  next outside =>
    rw [if_neg (by omega), List.getElem?_eq_none (by omega)]

/-! ## A stream in pieces -/

namespace Feed

variable {feed : Feed} {received : Bytes}

/-- What holds of a slot that was given `received` in some pieces. -/
structure Ok (proto : Proto) (node : UInt32) (received : Bytes) (feed : Feed) : Prop where
  kept : feed.slot.buffered = (parse roomiest received).rest
  counted : feed.tally =
    Tally.after {} (Note.ofFrames proto node (parse roomiest received).frames)
  inside : ∀ call ∈ feed.calls, ∀ read ∈ call.2, read.1 + read.2 ≤ call.1

theorem Ok.start : Ok proto node [] {} where
  kept := by rw [Framing.parse_more rfl]; rfl
  counted := by rw [Framing.parse_more rfl]; rfl
  inside := fun _ member => nomatch member

theorem Ok.step (ok : Ok proto node received feed) (study : proto.lenIncludesHeader = false)
    (piece : Bytes) (fitting : (parse roomiest (received ++ piece)).oversize = false) :
    Ok proto node (received ++ piece) (feed.step proto node piece) := by
  have whole := Framing.parse_append roomiest received piece
  rw [← ok.kept, ← append_buffered] at whole
  have fits : (parse roomiest (feed.slot.append piece).buffered).oversize = false := by
    rw [whole] at fitting
    exact fitting
  obtain ⟨rest, tally⟩ :=
    consumeFrames_parse node feed.tally study fits
  exact {
    kept := by rw [whole]; exact rest
    counted := by
      rw [whole]
      simp only [Framing.Parsed.after, Note.ofFrames, List.flatMap_append, Tally.after_append]
      have before := ok.counted
      rw [Note.ofFrames] at before
      rw [← before]
      exact tally
    inside := fun call member => by
      cases List.mem_append.mp member with
      | inl before => exact ok.inside call before
      | inr new =>
          rw [List.mem_singleton.mp new]
          exact consumeFrames_within }

theorem Ok.run (ok : Ok proto node received feed) (study : proto.lenIncludesHeader = false)
    (pieces : List Bytes) (fitting : (parse roomiest (received ++ pieces.flatten)).oversize = false) :
    Ok proto node (received ++ pieces.flatten) (feed.run proto node pieces) := by
  induction pieces generalizing received feed with
  | nil =>
      rw [List.flatten_nil, List.append_nil]
      exact ok
  | cons piece pieces ih =>
      rw [List.flatten_cons, ← List.append_assoc] at fitting ⊢
      exact ih (ok.step study piece (Framing.parse_oversize_append fitting)) fitting

/-- A stream that the slot could hold whole fits however it is cut. -/
theorem Ok.fits (ok : Ok proto node received feed) (study : proto.lenIncludesHeader = false)
    (pieces : List Bytes) (fitting : (parse roomiest (received ++ pieces.flatten)).oversize = false)
    (small : received.length + pieces.flatten.length ≤ rxCap) : Fits proto node feed pieces := by
  induction pieces generalizing received feed with
  | nil => trivial
  | cons piece pieces ih =>
      have held : feed.slot.rxLen ≤ received.length := by
        rw [← buffered_length, ok.kept]
        exact Framing.parse_rest_length
      simp only [List.flatten_cons, List.length_append, ← List.append_assoc] at fitting small
      refine ⟨by omega, ih (ok.step study piece (Framing.parse_oversize_append fitting)) fitting ?_⟩
      rw [List.length_append]
      omega

theorem run_calls (pieces : List Bytes) (fits : Fits proto node feed pieces)
    (small : ∀ call ∈ feed.calls, call.1 ≤ rxCap) :
    ∀ call ∈ (feed.run proto node pieces).calls, call.1 ≤ rxCap := by
  induction pieces generalizing feed with
  | nil => exact small
  | cons piece pieces ih =>
      refine ih fits.2 fun call member => ?_
      cases List.mem_append.mp member with
      | inl before => exact small call before
      | inr new =>
          rw [List.mem_singleton.mp new]
          exact fits.1

end Feed

end Slot

/-! ## The list model -/

namespace Stats

variable {proto : Proto} {recvTs : Int} {node : UInt32} {stats : Stats} {payload rx : Bytes} {fuel : Nat}

def note (recvTs : Int) (stats : Stats) : Note → Stats
  | .frame => { stats with framesIn := stats.framesIn + 1 }
  | .bad => { stats with samplesBad := stats.samplesBad + 1 }
  | .foreign => { stats with foreign := stats.foreign + 1 }
  | .stamp intended => { stats with latency := stats.latency.add (recvTs - intended) }

theorem sample_note : sample recvTs node stats payload = stats.note recvTs (.chat node payload) := by
  have cut (sep : Nat) (short : payload.length < sep + 2 + blobHeader) :
      (payload.drop (sep + 2)).length < blobHeader := by
    rw [List.length_drop]
    simp only [blobHeader] at *
    omega
  unfold sample Note.chat
  split
  next tiny =>
    cases payload.findIdx? (· == 58) with
    | none => rfl
    | some sep => simp only [if_pos (cut sep (by omega))]; rfl
  · cases found : payload.findIdx? (· == 58) with
    | none => rfl
    | some sep =>
        simp only
        split
        next short => rw [if_pos (cut sep (by omega))]; rfl
        · split
          · rfl
          · split
            · rfl
            · rfl

theorem tickEntries_notes (enough : payload.length ≤ fuel) :
    tickEntries recvTs node fuel stats payload = (Note.tick node payload).foldl (note recvTs) stats := by
  induction fuel generalizing stats payload with
  | zero =>
      rw [Note.tick_done (by omega)]
      rfl
  | succ fuel ih =>
      rw [tickEntries]
      split
      next short => rw [Note.tick_done short]; rfl
      next long =>
        simp only [List.length_drop]
        split
        next cut => rw [Note.tick_cut long (by omega)]; rfl
        next fits =>
          rw [Note.tick_entry long rfl (by omega), ih (by rw [List.length_drop, List.length_drop]; omega),
            sample_note, List.drop_drop]
          rfl

theorem handleFrame_notes (type : UInt16) :
    handleFrame proto recvTs node stats type payload =
      (Note.ofFrame proto node (type, payload)).foldl (note recvTs) stats := by
  unfold handleFrame Note.ofFrame
  split
  · exact tickEntries_notes (Nat.le_refl _)
  · simp only
    split
    · rfl
    · exact sample_note

/-- The list model takes the same notes from the same frames as the slot does. -/
theorem consumeFrames_notes (study : proto.lenIncludesHeader = false) (enough : rx.length ≤ fuel)
    (fitting : (parse Slot.roomiest rx).oversize = false) :
    consumeFrames proto recvTs node fuel stats rx = ((parse Slot.roomiest rx).rest,
      (Note.ofFrames proto node (parse Slot.roomiest rx).frames).foldl (note recvTs) stats) := by
  induction fuel generalizing stats rx with
  | zero =>
      have empty : Framing.next Slot.roomiest rx = .more := if_pos (by simp only [Framing.headerSize]; omega)
      rw [Framing.parse_more empty]
      rfl
  | succ fuel ih =>
      rw [consumeFrames]
      split
      next short =>
        rw [Framing.parse_more (if_pos short)]
        rfl
      next long =>
        have length : payloadLen proto (LittleEndian.read rx) = some (LittleEndian.read rx).toNat := by
          simp only [payloadLen, study, Bool.false_eq_true, not_false_eq_true, if_true]
        have found : Framing.next Slot.roomiest rx = _ := if_neg long
        simp only [length]
        simp only at found
        split at found
        next beyond =>
          rw [Framing.parse_oversize found] at fitting
          cases fitting
        · split
          next waiting =>
            rw [Framing.parse_more (found.trans (if_pos waiting))]
            rfl
          next complete =>
            rw [Framing.parse_frame (found.trans (if_neg complete))] at fitting ⊢
            have shrunk : (rx.drop (headerSize + (LittleEndian.read rx).toNat)).length ≤ fuel := by
              rw [List.length_drop]
              simp only [headerSize]
              omega
            refine (ih shrunk fitting).trans ?_
            rw [handleFrame_notes]
            simp only [Framing.Parsed.after, Note.ofFrames, List.flatMap_append,
              List.flatMap_singleton, List.foldl_append]
            rfl

end Stats

namespace Slot

/-- What a call leaves in the slot, and its counters, as the list model has them. -/
theorem consumeFrames_refines {proto : Proto} {node : UInt32} {slot : Slot} {recvTs : Int}
    {stats : Stats} (study : proto.lenIncludesHeader = false)
    (fitting : (parse roomiest slot.buffered).oversize = false) :
    ∃ notes, slot.consumeFrames proto node {} |>.2.tally = Tally.after {} notes ∧
      NetEngine.Bench.consumeFrames proto recvTs node slot.rxLen stats slot.buffered =
        ((slot.consumeFrames proto node {}).1.buffered, notes.foldl (Stats.note recvTs) stats) := by
  obtain ⟨rest, tally⟩ := consumeFrames_parse node {} study fitting
  refine ⟨_, tally, ?_⟩
  rw [rest]
  exact Stats.consumeFrames_notes study (Nat.le_of_eq slot.buffered_length) fitting

/-- Frames, samples and time stamps do not depend on where the stream was cut. -/
theorem segmentation_independent (proto : Proto) (node : UInt32) (pieces : List Bytes)
    (study : proto.lenIncludesHeader = false)
    (fitting : (parse roomiest pieces.flatten).oversize = false)
    (fits : Feed.Fits proto node {} pieces) :
    let final := Feed.run proto node {} pieces
    let whole := (Slot.empty.append pieces.flatten).consumeFrames proto node {}
    final.tally = whole.2.tally ∧ final.slot.buffered = whole.1.buffered ∧
      final.tally = Tally.after {}
        (Note.ofFrames proto node (parse roomiest pieces.flatten).frames) ∧
      (∀ front back, pieces = front ++ back →
        let kept := (Feed.run proto node {} front).slot
        kept.buffered = (parse roomiest front.flatten).rest ∧
          Framing.next roomiest kept.buffered = .more ∧ kept.rxLen < rxCap) ∧
      ∀ call ∈ final.calls, call.1 ≤ rxCap ∧ ∀ read ∈ call.2, read.1 + read.2 ≤ call.1 := by
  have start : Feed.Ok proto node [] {} := .start
  have ok := start.run study pieces fitting
  have stream : (Slot.empty.append pieces.flatten).buffered = pieces.flatten := append_buffered _
  have once := consumeFrames_parse node {} study (stream.symm ▸ fitting)
  rw [stream] at once
  refine ⟨ok.counted.trans once.2.symm, ok.kept.trans once.1.symm, ok.counted, ?_,
    fun call member => ⟨Feed.run_calls pieces fits (fun _ absent => nomatch absent) call member,
      ok.inside call member⟩⟩
  intro front back cut
  rw [cut, List.flatten_append] at fitting
  have within := Framing.parse_oversize_append fitting
  have kept := (start.run study front within).kept
  have stopped := Framing.next_rest within
  rw [List.nil_append] at kept
  rw [← kept] at stopped
  have short := Framing.next_more_short stopped
  rw [buffered_length] at short
  exact ⟨kept, stopped, short⟩

/-- A tick frame whose second entry says more than there is, and a chat. -/
def cutTick : Bytes :=
  Framing.encode study.idTickOut [3, 0, 97, 58, 32, 9, 0, 7] ++ Framing.encode study.idChatOut [7]

/-- Cut inside the first entry and behind the header of the chat. Of the second entry and of the
chat nothing can be sampled. -/
theorem segmentation_independent_cut_tick :
    let final := Feed.run study 0 {} [cutTick.take 7, (cutTick.take 16).drop 7, cutTick.drop 16]
    final.tally = ((Slot.empty.append cutTick).consumeFrames study 0 {}).2.tally ∧
      final.tally = { framesIn := 2, samplesBad := 2 } := by
  have parsed : parse roomiest cutTick =
      ⟨[(study.idTickOut, [3, 0, 97, 58, 32, 9, 0, 7]), (study.idChatOut, [7])], [], false⟩ := by
    have first : Framing.next roomiest cutTick =
        .frame study.idTickOut [3, 0, 97, 58, 32, 9, 0, 7] [1, 0, 101, 0, 7] := rfl
    have second : Framing.next roomiest [1, 0, 101, 0, 7] = .frame study.idChatOut [7] [] := rfl
    rw [Framing.parse_frame first, Framing.parse_frame second, Framing.parse_more rfl]
    rfl
  have fitting : (parse roomiest cutTick).oversize = false := by rw [parsed]
  obtain ⟨same, _, counted, _⟩ := segmentation_independent study 0
    [cutTick.take 7, (cutTick.take 16).drop 7, cutTick.drop 16] rfl fitting
    (Feed.Ok.start.fits rfl _ fitting (by decide))
  refine ⟨same, counted.trans ?_⟩
  have entries : Note.tick 0 [3, 0, 97, 58, 32, 9, 0, 7] = [.frame, .bad, .bad] := by
    have last : Note.tick 0 [9, 0, 7] = [.bad] := Note.tick_cut (by decide) (by decide)
    rw [Note.tick_entry (by decide) (show _ = 3 from rfl) (by decide)]
    exact congrArg (.frame :: .bad :: ·) last
  rw [show [cutTick.take 7, (cutTick.take 16).drop 7, cutTick.drop 16].flatten = cutTick by decide,
    parsed, Note.ofFrames, List.flatMap_cons, Note.ofFrame, if_pos rfl, entries]
  rfl

end Slot

end NetEngine.Bench
