import NetEngine.Epoll.ServerMemory
import NetEngine.Epoll.ServerProperties
import NetEngine.Epoll.TickBooks

/-! Coalesced delivery: in every run the tick buffers hold what the books hold, and the
frames that a connection is handed are those of the books. -/

set_option autoImplicit false

namespace NetEngine.Epoll

open Socket

section Loop

variable {ρ : Type} {rules : Rules ρ} {state next after : State ρ} {fd other : Fd}

/-! ## One tick frame -/

open Classical in
/-- The tick frame for a connection that can take it. -/
noncomputable def State.handed (state : State ρ) (payload : Bytes) (fd : Fd) :
    List (UInt16 × Bytes) :=
  if state.Takes fd payload then [(sTick, payload)] else []

theorem State.handed_congr (payload : Bytes) (same : after.clients fd = state.clients fd) :
    after.handed payload fd = state.handed payload fd := by
  unfold State.handed State.Takes
  rw [same]

/-- One visit queues the frame for the connection that is visited, and for no other. -/
theorem visit_hands {payload : Bytes} (opened : state.Open fd)
    (follows : Follows rules fd (state.queueTickFrame payload fd) next) :
    ∃ more, next.trace = state.trace ++ more ∧ appendsTo fd more = state.handed payload fd ∧
      ∀ other, other ≠ fd → appendsTo other more = [] := by
  obtain ⟨late, lateTrace, lateAbout⟩ := follows.only.trace
  have silent : Sends True (fun _ => False) (state.queueTickFrame payload fd) next := follows.sends
  have lateNone : ∀ other, appendsTo other late = [] := silent.silent lateTrace
  obtain ⟨client, found, closing⟩ := id opened
  have enqueues : state.queueTickFrame payload fd = state.enqueue fd sTick payload := by
    simp [State.queueTickFrame, found, closing]
  rw [enqueues] at lateTrace
  rcases State.enqueue_cases sTick payload opened with ⟨takes, same⟩ | ⟨refuses, same⟩
  · refine ⟨.append fd sTick payload :: late, ?_, ?_, fun other apart => ?_⟩
    · rw [lateTrace, same]
      simp [State.append]
    · have none := lateNone fd
      rw [State.handed, if_pos takes]
      simpa [appendsTo] using none
    · have none := lateNone other
      simpa [appendsTo, Ne.symm apart] using none
  · have sends : Sends True (fun _ => False) state (state.refuse fd payload) := State.refuse_sends
    obtain ⟨early, earlyTrace, silent⟩ := sends.trace
    refine ⟨early ++ late, by rw [lateTrace, same, earlyTrace, List.append_assoc], ?_,
      fun other _ => ?_⟩
    · rw [appendsTo_append, appendsTo_none silent, lateNone, State.handed, if_neg refuses,
        List.append_nil]
    · rw [appendsTo_append, appendsTo_none silent, lateNone, List.append_nil]

/-- A tick walk hands its frame to every listed connection that can take it when the walk
starts. -/
theorem Walk.hands {payload : Bytes} {fds : List Fd}
    (walk : Walk rules (State.queueTickFrame payload) fds state after) (nodup : fds.Nodup) :
    ∃ more, after.trace = state.trace ++ more ∧
      (∀ fd ∈ fds, appendsTo fd more = state.handed payload fd) ∧
      (∀ fd, fd ∉ fds → appendsTo fd more = []) ∧
      ∀ fd, fd ∉ fds → after.clients fd = state.clients fd := by
  induction walk with
  | nil => exact ⟨[], (List.append_nil _).symm, by simp, fun _ _ => rfl, fun _ _ => rfl⟩
  | @skip fd fds state after shut _ ih =>
      obtain ⟨fresh, nodup⟩ := List.nodup_cons.mp nodup
      obtain ⟨more, grown, gets, misses, same⟩ := ih nodup
      refine ⟨more, grown, fun other member => ?_,
        fun other absent => misses other fun inside => absent (List.mem_cons_of_mem _ inside),
        fun other absent => same other fun inside => absent (List.mem_cons_of_mem _ inside)⟩
      rcases List.mem_cons.mp member with rfl | member
      · have never : ¬ state.Takes other payload := fun ⟨client, found, closing, _⟩ =>
          shut ⟨client, found, closing⟩
        rw [misses other fresh, State.handed, if_neg never]
      · exact gets other member
  | @visit fd fds state next after opened follows _ ih =>
      obtain ⟨fresh, nodup⟩ := List.nodup_cons.mp nodup
      obtain ⟨own, ownTrace, ownGets, ownMisses⟩ := visit_hands opened follows
      obtain ⟨more, grown, gets, misses, same⟩ := ih nodup
      have kept : ∀ other, other ≠ fd → next.clients other = state.clients other := by
        intro other apart
        rw [follows.clients_ne apart, (State.queueTickFrame_only opened).clients other apart]
      refine ⟨own ++ more, by rw [grown, ownTrace, List.append_assoc], fun other member => ?_,
        fun other absent => ?_, fun other absent => ?_⟩
      · rcases List.mem_cons.mp member with rfl | member
        · rw [appendsTo_append, ownGets, misses other fresh, List.append_nil]
        · have apart : other ≠ fd := fun equal => fresh (equal ▸ member)
          rw [appendsTo_append, ownMisses other apart, List.nil_append, gets other member,
            State.handed_congr payload (kept other apart)]
      · rw [List.mem_cons, not_or] at absent
        rw [appendsTo_append, ownMisses other absent.1, misses other absent.2, List.append_nil]
      · rw [List.mem_cons, not_or] at absent
        rw [same other absent.2, kept other absent.1]

/-! ## Packets -/

/-- With coalescing a packet queues notices only. -/
theorem Packet.sends_notices {type : UInt16} {payload : Bytes} (coalesces : rules.coalesce = true)
    (packet : Packet rules fd payload type state after) :
    Sends False (fun type => type = sNotice) state after := by
  by_cases chats : type = cChat
  · subst chats
    cases packet with
    | joinFirst _ _ => exact State.queueSend_sends rfl
    | record _ _ _ => exact .refl _
    | chat _ _ plain _ =>
        rw [coalesces] at plain
        cases plain
    | unknown _ _ other => exact absurd rfl other
  · exact packet.sends rfl fun chat => absurd chat chats

end Loop

namespace Server

/-! ## A pass over the rooms -/

namespace World

variable {k : Kernel} {cfg : Config} {w : World} {fd : Fd}

theorem foldl_deliverTick_walk (buf : Bytes) (fds : List Fd) (w : World) :
    Walk (rules k cfg) (State.queueTickFrame buf) fds w.state
      (fds.foldl (fun w fd => w.deliverTick k cfg buf fd) w).state := by
  induction fds generalizing w with
  | nil => exact .nil
  | cons fd fds ih =>
      have rest := ih (w.deliverTick k cfg buf fd)
      by_cases opened : w.state.Open fd
      · refine .visit opened ?_ rest
        obtain ⟨client, found, closing⟩ := opened
        obtain ⟨c, connFound, rfl⟩ : ∃ c, w.conns fd = some c ∧ c.client = client := by
          simpa using found
        have closing : c.closing = false := closing
        simp only [deliverTick, connFound, closing, Bool.false_eq_true, if_false]
        rw [← state_queueTickFrame]
        exact afterQueue_follows
      · have same : w.deliverTick k cfg buf fd = w := by
          unfold deliverTick
          split
          · rfl
          next c found =>
            have closing : c.closing = true := by simpa [open_iff, found] using opened
            rw [if_pos closing]
        rw [List.foldl_cons]
        rw [same] at rest ⊢
        exact .skip opened rest

/-- An entry hands its buffer to the members of its room, and leaves all others alone. -/
theorem flushTickRoom_hands (agree : RoomsAgree w) (room buf : Bytes) :
    ∃ more, (w.flushTickRoom k cfg (room, buf)).trace = w.trace ++ more ∧
      (∀ fd, roomIn w.clients fd = some room → buf ≠ [] →
        appendsTo fd more = w.state.handed buf fd) ∧
      (∀ fd, roomIn w.clients fd ≠ some room ∨ buf = [] → appendsTo fd more = []) ∧
      ∀ fd, roomIn w.clients fd ≠ some room →
        (w.flushTickRoom k cfg (room, buf)).clients fd = w.clients fd := by
  by_cases empty : buf = []
  · refine ⟨[], ?_, fun _ _ held => absurd empty held, fun _ _ => rfl, fun _ _ => ?_⟩
    · simp [flushTickRoom, empty]
    · simp [flushTickRoom, empty]
  cases members : w.rooms room with
  | none =>
      refine ⟨[], ?_, fun fd within _ => ?_, fun _ _ => rfl, fun _ _ => ?_⟩
      · simp [flushTickRoom, empty, members]
      · have listed := (member_iff agree).mpr within
        simp [members] at listed
      · simp [flushTickRoom, empty, members, World.clients]
  | some fds =>
      have listed : ∀ fd, fd ∈ k.walk w.clock fds ↔ roomIn w.clients fd = some room := fun fd => by
        rw [(k.walk_perm w.clock fds).mem_iff, ← member_iff agree, members, Option.getD_some]
      have nodup := (k.walk_perm w.clock fds).nodup_iff.mpr (agree.nodup _ _ members)
      obtain ⟨more, grown, gets, misses, same⟩ :=
        (@foldl_deliverTick_walk k cfg buf (k.walk w.clock fds) w.asked).hands nodup
      refine ⟨more, ?_, fun fd within _ => gets fd ((listed fd).mpr within), fun fd apart => ?_,
        fun fd apart => ?_⟩
      · simp only [flushTickRoom, empty, members, if_false]
        exact grown
      · exact misses fd fun inside => apart.elim (absurd ((listed fd).mp inside)) empty
      · simp only [flushTickRoom, empty, members, if_false]
        exact same fd fun inside => apart ((listed fd).mp inside)

/-- The buffer of its room, for a connection that can take it. -/
noncomputable def handed (w : World) (bufs : List (Bytes × Bytes)) (fd : Fd) :
    List (UInt16 × Bytes) :=
  match roomIn w.clients fd with
  | none => []
  | some room =>
      if tickEntry bufs room = [] then [] else w.state.handed (tickEntry bufs room) fd

theorem tickEntry_cons {bufs : List (Bytes × Bytes)} {key buf room : Bytes} :
    tickEntry ((key, buf) :: bufs) room = if room = key then buf else tickEntry bufs room := by
  unfold tickEntry
  rw [List.lookup_cons]
  by_cases same : room = key
  · simp [same]
  · rw [beq_eq_false_iff_ne.mpr same, if_neg same]

theorem tickEntry_perm {bufs walked : List (Bytes × Bytes)} (perm : walked.Perm bufs)
    (nodup : (bufs.map Prod.fst).Nodup) (room : Bytes) :
    tickEntry walked room = tickEntry bufs room := by
  have keys := perm.map Prod.fst
  by_cases present : room ∈ bufs.map Prod.fst
  · obtain ⟨⟨_, buf⟩, member, rfl⟩ := List.mem_map.mp present
    rw [tickEntry_mem nodup member, tickEntry_mem (keys.nodup_iff.mpr nodup) (perm.mem_iff.mpr member)]
  · rw [tickEntry_absent present, tickEntry_absent fun inside => present (keys.mem_iff.mp inside)]

theorem flushTickRoom_sends {entry : Bytes × Bytes} :
    (w.flushTickRoom k cfg entry).rooms = w.rooms ∧
      Sends True (fun _ => True) w.state (w.flushTickRoom k cfg entry).state := by
  obtain ⟨ticks, rooms⟩ := @flushTickRoom_ticks k cfg w entry
  exact ⟨rooms, ticks.sends trivial⟩

theorem foldl_flushTickRoom_hands (entries : List (Bytes × Bytes)) (agree : RoomsAgree w)
    (nodup : (entries.map Prod.fst).Nodup) :
    ∃ more, (entries.foldl (flushTickRoom k cfg) w).trace = w.trace ++ more ∧
      ∀ fd, appendsTo fd more = w.handed entries fd := by
  induction entries generalizing w with
  | nil =>
      refine ⟨[], (List.append_nil _).symm, fun fd => ?_⟩
      unfold handed
      split <;> rfl
  | cons entry entries ih =>
      obtain ⟨key, buf⟩ := entry
      obtain ⟨fresh, nodup⟩ := List.nodup_cons.mp nodup
      obtain ⟨own, ownTrace, gets, misses, same⟩ :=
        @flushTickRoom_hands k cfg w agree key buf
      obtain ⟨rooms, sends⟩ := @flushTickRoom_sends k cfg w (key, buf)
      have stays : roomIn (w.flushTickRoom k cfg (key, buf)).clients = roomIn w.clients :=
        sends.roomIn
      obtain ⟨more, grown, hands⟩ := ih (agree.of_sends rooms sends) nodup
      refine ⟨own ++ more, by rw [List.foldl_cons, grown, ownTrace, List.append_assoc], fun fd => ?_⟩
      rw [appendsTo_append, hands]
      unfold handed
      rw [stays]
      cases within : roomIn w.clients fd with
      | none => simp [misses fd (.inl (by simp [within]))]
      | some room =>
          simp only [tickEntry_cons]
          by_cases here : room = key
          · subst here
            rw [if_pos rfl, tickEntry_absent fresh, if_pos rfl, List.append_nil]
            by_cases empty : buf = []
            · rw [misses fd (.inr empty), if_pos empty]
            · rw [gets fd within empty, if_neg empty]
          · have apart : roomIn w.clients fd ≠ some key := by
              rw [within]
              exact fun equal => here (Option.some.inj equal)
            rw [if_neg here, misses fd (.inl apart), List.nil_append]
            split
            · rfl
            · exact State.handed_congr _ (same fd apart)

theorem flushTickRooms_hands (agree : RoomsAgree w) (nodup : (w.tickBuf.map Prod.fst).Nodup) :
    ∃ more, (w.flushTickRooms k cfg).trace = w.trace ++ more ∧
      ∀ fd, appendsTo fd more = w.handed w.tickBuf fd := by
  have perm := k.walk_perm w.clock w.tickBuf
  obtain ⟨more, grown, hands⟩ := @foldl_flushTickRoom_hands k cfg w.asked (k.walk w.clock w.tickBuf)
    (agree.congr rfl fun _ _ => .rfl) ((perm.map Prod.fst).nodup_iff.mpr nodup)
  refine ⟨more, grown, fun fd => ?_⟩
  have same : w.asked.handed (k.walk w.clock w.tickBuf) fd = w.handed w.tickBuf fd := by
    change w.handed (k.walk w.clock w.tickBuf) fd = _
    unfold handed
    simp only [tickEntry_perm perm nodup]
  exact (hands fd).trans same

end World

/-! ## The books of a run -/

/-- The frames queued for a connection, notices apart. -/
def framesTo (fd : Fd) (trace : List (Obs Bytes)) : List (UInt16 × Bytes) :=
  (appendsTo fd trace).filter fun frame => frame.1 ≠ sNotice

theorem framesTo_append {fd : Fd} (trace more : List (Obs Bytes)) :
    framesTo fd (trace ++ more) = framesTo fd trace ++ framesTo fd more := by
  rw [framesTo, appendsTo_append, List.filter_append]
  rfl

theorem framesTo_notices {fd : Fd} {trace : List (Obs Bytes)}
    (silent : ∀ obs ∈ trace, obs.Sending fun type => type = sNotice) : framesTo fd trace = [] := by
  refine List.filter_eq_nil_iff.mpr fun frame member => ?_
  obtain ⟨obs, inside, found⟩ := List.mem_filterMap.mp member
  have sending := silent obs inside
  cases obs with
  | append other type payload =>
      have notice : type = sNotice := sending
      simp only at found
      split at found
      · rw [Option.some.injEq] at found
        simp [← found, notice]
      · cases found
  | _ => cases found

theorem frameOf_eq_nil {lines : List Line} : frameOf lines = [] ↔ lines = [] := by
  cases lines with
  | nil => exact iff_of_true rfl rfl
  | cons line lines =>
      have long : (frameOf (line :: lines)).length ≠ 0 := by
        simp [frameOf, Line.entry, LittleEndian.encode_length]
      exact iff_of_false (fun empty => long (by rw [empty]; rfl)) (List.cons_ne_nil _ _)

/-- The tick buffers and the counter say what the books say. -/
structure Agrees (ledger : List (Bytes × Bytes) × Nat) (books : Books) : Prop where
  held : ∀ room, World.tickEntry ledger.1 room = frameOf (books.held room)
  dropped : ledger.2 = books.dropped.length

namespace Books

variable {books : Books}

theorem read_append (trace more : List (Obs Bytes)) :
    books.read (trace ++ more) = (books.read trace).read more := List.foldl_append ..

theorem note_sending {types : UInt16 → Prop} {obs : Obs Bytes} (sending : obs.Sending types) :
    books.note obs = books := by
  cases obs <;> first | rfl | exact sending.elim

theorem read_sending {types : UInt16 → Prop} {trace : List (Obs Bytes)}
    (sending : ∀ obs ∈ trace, obs.Sending types) : books.read trace = books := by
  induction trace generalizing books with
  | nil => rfl
  | cons obs trace ih =>
      rw [read, List.foldl_cons, note_sending (sending obs List.mem_cons_self)]
      exact ih fun other member => sending other (List.mem_cons_of_mem _ member)

theorem note_ticks (obs : Obs Bytes) : (books.note obs).ticks = books.ticks := by
  cases obs with
  | packet clients fd type payload =>
      simp only [note]
      split
      · rfl
      · split
        · unfold hear
          split <;> rfl
        · split
          · unfold leave
            split <;> rfl
          · rfl
  | departs clients fd =>
      simp only [note]
      split
      · rfl
      · unfold leave
        split <;> rfl
  | _ => rfl

theorem read_frames (trace : List (Obs Bytes)) : (books.read trace).frames = books.frames := by
  have same : (books.read trace).ticks = books.ticks := by
    induction trace generalizing books with
    | nil => rfl
    | cons obs trace ih => exact (@ih (books.note obs)).trans (note_ticks obs)
  unfold frames
  rw [same]

end Books

namespace Agrees

open World

variable {k : Kernel} {cfg : Config} {w : World} {fd : Fd} {c : Conn} {books : Books}

theorem hear (agrees : Agrees w.ledger books) (room line : Bytes) :
    Agrees (w.record room line).ledger (books.hear room line) := by
  have held : ∀ room, tickEntry w.tickBuf room = frameOf (books.held room) := agrees.held
  have dropped : w.tickDropped = books.dropped.length := agrees.dropped
  unfold World.record Books.hear
  simp only [held]
  split
  · refine ⟨fun other => ?_, by simp [ledger, dropped]⟩
    by_cases own : other = room
    · subst own
      exact tickEntry_set ..
    · exact (tickEntry_set_ne own).trans (held other)
  · refine ⟨fun other => ?_, dropped⟩
    by_cases own : other = room
    · subst own
      simp [ledger, tickEntry_set, frameOf, Line.entry]
    · simpa [ledger, own] using (tickEntry_set_ne own).trans (held other)

theorem leave (agrees : Agrees w.ledger books) (coalesces : cfg.coalesce = true)
    (agree : RoomsAgree w) (found : w.conns fd = some c) (inside : c.room ≠ []) :
    Agrees (w.leaveRoom cfg fd).ledger (books.leave w.clients fd c.room) := by
  unfold Books.leave
  rcases @leaveRoom_ledger cfg w fd c agree found inside with ⟨same, others⟩ | ⟨gone, alone⟩
  · rw [if_pos (others coalesces), same]
    exact agrees
  · rw [if_neg (fun ⟨other, apart, within⟩ => alone other apart within), gone]
    have held : ∀ room, tickEntry w.tickBuf room = frameOf (books.held room) := agrees.held
    refine ⟨fun room => ?_, agrees.dropped⟩
    rw [tickEntry_filter]
    by_cases own : room = c.room
    · simp [own, frameOf]
    · simp [own, held]

theorem packet {type : UInt16} {payload : Bytes} (agrees : Agrees w.ledger books)
    (coalesces : cfg.coalesce = true) (agree : RoomsAgree w) (found : w.conns fd = some c) :
    Agrees (w.handlePacket k cfg fd type payload).ledger
      (books.note (.packet w.clients fd type payload)) := by
  have apart : cChat ≠ cJoin := by decide
  rw [@handlePacket_ledger k cfg w fd c type payload agree found]
  simp only [Books.note, roomIn_conn found]
  by_cases outside : c.room = []
  · simp only [outside, if_true, ne_eq, not_true_eq_false, and_false, if_false,
      leaveRoom_outside_ledger found outside, ite_self]
    exact agrees
  · have nick : (w.clients fd).elim [] (·.nick) = c.nick := by simp [World.clients, found, Conn.client]
    simp only [outside, coalesces, nick, if_false, ne_eq, not_false_eq_true, and_true]
    by_cases chats : type = cChat
    · subst chats
      simp only [apart, false_and, if_false, if_true]
      exact agrees.hear c.room _
    · simp only [chats, if_false]
      split
      · exact agrees.leave coalesces agree found outside
      · exact agrees

theorem departs (agrees : Agrees w.ledger books) (coalesces : cfg.coalesce = true)
    (agree : RoomsAgree w) (found : w.conns fd = some c) :
    Agrees (w.depart k cfg fd c).ledger (books.note (.departs w.clients fd)) := by
  rw [depart_ledger]
  simp only [Books.note, roomIn_conn found]
  by_cases outside : c.room = []
  · rw [leaveRoom_outside_ledger found outside, if_pos outside]
    exact agrees
  · rw [if_neg outside]
    exact agrees.leave coalesces agree found outside

end Agrees

/-- The trace since `start` is read into the books, and it holds no frame but notices. -/
def Noted (start : List (Obs Bytes)) (books : Books) (w : World) : Prop :=
  ∃ more, w.trace = start ++ more ∧ (∀ fd, framesTo fd more = []) ∧
    Agrees w.ledger (books.read more)

namespace Noted

open World

variable {k : Kernel} {cfg : Config} {start : List (Obs Bytes)} {books : Books} {w after : World}

theorem grow {more : List (Obs Bytes)} (noted : Noted start books w)
    (grown : after.trace = w.trace ++ more) (silent : ∀ fd, framesTo fd more = [])
    (agrees : ∀ books : Books, Agrees w.ledger books → Agrees after.ledger (books.read more)) :
    Noted start books after := by
  obtain ⟨before, trace, empty, agree⟩ := noted
  refine ⟨before ++ more, by rw [grown, trace, List.append_assoc], fun fd => ?_, ?_⟩
  · rw [framesTo_append, empty, silent, List.append_nil]
  · rw [Books.read_append]
    exact agrees _ agree

theorem keeps (k : Kernel) (cfg : Config) (coalesces : cfg.coalesce = true)
    (start : List (Obs Bytes)) (books : Books) : Keeps k cfg (Noted start books) where
  quiet w after quiet noted := by
    obtain ⟨more, grown, sending⟩ := quiet.sends.trace
    refine noted.grow grown (fun _ => framesTo_notices sending) fun books agrees => ?_
    rw [Books.read_sending sending, quiet.ledger]
    exact agrees
  mark w obs marks noted := by
    refine @grow start books w (w.emit obs) [obs] noted rfl (fun _ => ?_) fun books agrees => ?_
    · cases obs <;> first | rfl | exact marks.elim
    · cases obs <;> first | exact agrees | exact marks.elim
  erase _ _ _ noted := noted
  receive w fd _ chunk _ _ noted :=
    @grow start books w ((w.emit (.recv fd chunk)).appendInput fd chunk) [.recv fd chunk] noted rfl
      (fun _ => rfl) fun _ agrees => agrees
  packet w fd c type payload sound found _ noted := by
    have agree : RoomsAgree (w.emit (.packet w.clients fd type payload)) := (sound.emit _).agree
    have found : (w.emit (.packet w.clients fd type payload)).conns fd = some c := found
    obtain ⟨packet, _⟩ := @handlePacket_packet k cfg _ fd c type payload agree found
    obtain ⟨more, grown, sending⟩ := (packet.sends_notices coalesces).trace
    refine @grow start books w _ ([.packet w.clients fd type payload] ++ more) noted ?_
      (fun other => ?_) fun books agrees => ?_
    · rw [← List.append_assoc]
      exact grown
    · rw [framesTo_append, framesTo_notices sending]
      rfl
    · rw [Books.read_append, Books.read_sending sending]
      exact Agrees.packet (show Agrees _ books from agrees) coalesces agree found
  accept w fd _ _ _ noted :=
    @grow start books w (w.emplace fd) [.accepted fd] noted rfl (fun _ => rfl) fun _ agrees => agrees
  depart w fd c sound found noted := by
    have agree : RoomsAgree (w.emit (.departs w.clients fd)) := (sound.emit _).agree
    have found : (w.emit (.departs w.clients fd)).conns fd = some c := found
    obtain ⟨departs, _⟩ := @depart_departs k cfg _ fd c agree found
    have sends : Sends False (fun type => type = sNotice) _ _ := departs.sends rfl
    obtain ⟨more, grown, sending⟩ := sends.trace
    refine @grow start books w _ ([.departs w.clients fd] ++ more ++ [.closed fd]) noted ?_
      (fun other => ?_) fun books agrees => ?_
    · change ((w.emit (.departs w.clients fd)).depart k cfg fd c).trace ++ [.closed fd] = _
      rw [show ((w.emit (.departs w.clients fd)).depart k cfg fd c).trace =
        w.trace ++ [.departs w.clients fd] ++ more from grown]
      simp
    · rw [framesTo_append, framesTo_append, framesTo_notices sending]
      rfl
    · rw [Books.read_append, Books.read_append, Books.read_sending sending]
      exact Agrees.departs (show Agrees _ books from agrees) coalesces agree found
  lists _ _ _ _ noted := noted

end Noted

/-- One pass of the main loop, in the world and in the books. -/
noncomputable def keepBooks (k : Kernel) (cfg : Config) (w : World) (books : Books) (batch : Batch) :
    Books :=
  let drained := batch.events.foldl (World.handleEvent k cfg) (w.emit .wake)
  let heard := books.read (drained.trace.drop w.trace.length)
  let ticked := if batch.tickDue then heard.tick drained.clients else heard
  ticked.read ((w.iterate k cfg batch).trace.drop drained.trace.length)

noncomputable def account (k : Kernel) (cfg : Config) (run : World × Books) (batch : Batch) :
    World × Books :=
  if run.1.running then (run.1.iterate k cfg batch, keepBooks k cfg run.1 run.2 batch) else run

/-- The books of a run. -/
noncomputable def books (k : Kernel) (cfg : Config) (batches : List Batch) : Books :=
  (batches.foldl (account k cfg) (World.init, Books.init)).2

/-- What a room holds is in its buffer, what was dropped was counted, and what a connection
was queued besides notices are its frames of the ticks. The books themselves place every
input, and show each connection each input at most once and in order. -/
structure CoalescedDelivery (w : World) (books : Books) : Prop where
  agrees : Agrees w.ledger books
  frames : ∀ fd, framesTo fd w.trace = (books.frames fd).map fun lines => (sTick, frameOf lines)
  ordered : books.Ordered

namespace CoalescedDelivery

open World

variable {k : Kernel} {cfg : Config} {w : World} {books : Books}

theorem init : CoalescedDelivery World.init Books.init :=
  ⟨⟨fun _ => rfl, rfl⟩, fun _ => rfl, .init⟩

theorem of_noted {after : World} (delivery : CoalescedDelivery w books)
    (noted : Noted w.trace books after) :
    CoalescedDelivery after (books.read (after.trace.drop w.trace.length)) := by
  obtain ⟨more, grown, silent, agrees⟩ := noted
  rw [grown, List.drop_left]
  refine ⟨agrees, fun fd => ?_, delivery.ordered.read more⟩
  rw [grown, framesTo_append, silent, List.append_nil, delivery.frames, Books.read_frames]

theorem handed_eq (agrees : Agrees w.ledger books) (fd : Fd) :
    w.handed w.tickBuf fd =
      (Round.shown ⟨w.clients, books.held⟩ fd).map fun lines => (sTick, frameOf lines) := by
  have held : ∀ room, tickEntry w.tickBuf room = frameOf (books.held room) := agrees.held
  unfold handed Round.shown
  cases found : w.clients fd with
  | none => simp [roomIn, found]
  | some client =>
      cases inside : client.room with
      | none => simp [roomIn, found, inside]
      | some room =>
          have takes : w.state.Takes fd (frameOf (books.held room)) ↔ client.closing = false ∧
              client.pending.length + headerSize + (frameOf (books.held room)).length ≤ sendCap := by
            constructor
            · rintro ⟨other, present, fits⟩
              obtain rfl : client = other := Option.some.inj (found.symm.trans present)
              exact fits
            · exact fun fits => ⟨client, found, fits⟩
          simp only [roomIn, found, inside, Option.bind_some, held, frameOf_eq_nil, Option.elim_some,
            State.handed, takes, ne_eq]
          by_cases empty : books.held room = []
          · simp [empty]
          · by_cases fits : client.closing = false ∧
                client.pending.length + headerSize + (frameOf (books.held room)).length ≤ sendCap
            · simp [empty, fits]
            · simp only [empty, not_false_eq_true, true_and, if_false]
              rw [if_neg fits, if_neg fits, List.map_nil]

/-- A tick empties the buffers, and hands each connection the frame of its room. -/
theorem tick (delivery : CoalescedDelivery w books) (sound : Sound w)
    (nodup : (w.tickBuf.map Prod.fst).Nodup) :
    CoalescedDelivery (w.flushTickRooms k cfg) (books.tick w.clients) := by
  obtain ⟨more, grown, hands⟩ := @flushTickRooms_hands k cfg w sound.agree nodup
  obtain ⟨_, empty, dropped⟩ := @flushTickRooms_ledger k cfg w
  refine ⟨⟨fun room => ?_, dropped.trans delivery.agrees.dropped⟩, fun fd => ?_,
    delivery.ordered.tick w.clients⟩
  · change tickEntry (w.flushTickRooms k cfg).tickBuf room = []
    by_contra held
    exact held (empty _ (tickEntry_held held))
  · rw [grown, framesTo_append, delivery.frames, Books.tick_frames, List.map_append, framesTo, hands,
      handed_eq delivery.agrees]
    refine congrArg (_ ++ ·) (List.filter_eq_self.mpr fun frame member => ?_)
    obtain ⟨lines, _, rfl⟩ := List.mem_map.mp member
    exact decide_eq_true (show sTick ≠ sNotice by decide)

theorem iterate (coalesces : cfg.coalesce = true) (delivery : CoalescedDelivery w books)
    (sound : Sound w) (tidy : Tidy cfg w) (batch : Batch) :
    CoalescedDelivery (w.iterate k cfg batch) (keepBooks k cfg w books batch) := by
  have start : Noted w.trace books (w.emit .wake) :=
    ⟨[.wake], rfl, fun _ => rfl, delivery.agrees⟩
  have heard := (Noted.keeps k cfg coalesces w.trace books).drain batch.events (sound.emit .wake) start
  have drainedTidy := (Tidy.keeps k cfg).drain batch.events (sound.emit .wake) (tidy.emit .wake)
  have drained := (@drain_drains k cfg (w.emit .wake) batch.events (sound.emit .wake)).2
  have before := delivery.of_noted heard
  unfold World.iterate keepBooks
  simp only [World.iterate, coalesces, true_and]
  generalize batch.events.foldl (World.handleEvent k cfg) (w.emit .wake) = next at *
  generalize books.read (next.trace.drop w.trace.length) = read at *
  cases batch.tickDue with
  | false =>
      have noted : Noted next.trace read next :=
        ⟨[], (List.append_nil _).symm, fun _ => rfl, before.agrees⟩
      exact before.of_noted ((Noted.keeps k cfg coalesces next.trace read).tail drained noted)
  | true =>
      simp only [if_true]
      have ticked := @tick k cfg next read before drained drainedTidy.buffers.keys
      obtain ⟨ticks, rooms⟩ := @flushTickRooms_ticks k cfg next
      have sends : Sends True (fun _ => True) next.state _ := ticks.sends trivial
      obtain ⟨more, grown, sending⟩ := sends.trace
      have grown : (next.flushTickRooms k cfg).trace = next.trace ++ more := grown
      have noted : Noted (next.flushTickRooms k cfg).trace (read.tick next.clients)
          (next.flushTickRooms k cfg) :=
        ⟨[], (List.append_nil _).symm, fun _ => rfl, ticked.agrees⟩
      have last := (Noted.keeps k cfg coalesces _ _).tail (drained.of_sends rooms sends) noted
      have whole := ticked.of_noted last
      obtain ⟨late, lateGrown, _⟩ := last
      rw [lateGrown, List.drop_left] at whole
      rw [lateGrown, grown, List.append_assoc, List.drop_left, Books.read_append,
        Books.read_sending sending]
      exact whole

end CoalescedDelivery

namespace World

/-- What every pass keeps, of the world and its books, holds after every run. -/
theorem account_keeps (k : Kernel) (cfg : Config) {holds : World → Books → Prop}
    (start : holds World.init Books.init)
    (step : ∀ (w : World) (books : Books) (batch : Batch), Sound w → Tidy cfg w → holds w books →
      holds (w.iterate k cfg batch) (keepBooks k cfg w books batch))
    (batches : List Batch) : holds (run k cfg batches) (books k cfg batches) := by
  have rule : ∀ (batches : List Batch) (w : World) (books : Books),
      Sound w ∧ Tidy cfg w ∧ holds w books →
      (batches.foldl (account k cfg) (w, books)).1 =
        batches.foldl (fun w batch => if w.running then w.iterate k cfg batch else w) w ∧
      holds (batches.foldl (account k cfg) (w, books)).1
        (batches.foldl (account k cfg) (w, books)).2 := by
    intro batches
    induction batches with
    | nil => exact fun w books before => ⟨rfl, before.2.2⟩
    | cons batch batches ih =>
        rintro w books ⟨sound, tidy, before⟩
        rw [List.foldl_cons, List.foldl_cons]
        unfold account
        cases running : w.running with
        | false =>
            simp only [Bool.false_eq_true, if_false]
            exact ih w books ⟨sound, tidy, before⟩
        | true =>
            simp only [if_true]
            exact ih _ _ ⟨(iterate_iterates batch sound).2,
              (Tidy.keeps k cfg).iterate (fun _ _ tidy => tidy.tick) batch sound tidy,
              step w books batch sound tidy before⟩
  obtain ⟨same, after⟩ := rule batches World.init Books.init ⟨.init, .init, start⟩
  rw [same] at after
  exact after

/-- Coalesced delivery, in every run and in both flush modes. -/
theorem coalesced_delivery (k : Kernel) (cfg : Config) (coalesces : cfg.coalesce = true)
    (batches : List Batch) :
    CoalescedDelivery (run k cfg batches) (books k cfg batches) :=
  account_keeps k cfg .init (fun _ _ batch sound tidy delivery =>
    delivery.iterate coalesces sound tidy batch) batches

/-- The chat is recorded by the first pass, and both members are handed it by the tick. -/
theorem coalesced_delivery_talk :
    (CoalescedDelivery (run eager ⟨true, true, 2⟩ [talkBatch, ⟨[], true⟩])
      (books eager ⟨true, true, 2⟩ [talkBatch, ⟨[], true⟩])) ∧
      (run eager ⟨true, true, 2⟩ [talkBatch]).tickBuf = [(ascii "r", [5, 0] ++ ascii "a: hi")] ∧
      ∀ fd ∈ [5, 6], framesTo fd (run eager ⟨true, true, 2⟩ [talkBatch, ⟨[], true⟩]).trace =
        [(sTick, [5, 0] ++ ascii "a: hi")] :=
  ⟨coalesced_delivery eager ⟨true, true, 2⟩ rfl [talkBatch, ⟨[], true⟩], by decide, by decide⟩

end World

end Server

end NetEngine.Epoll
