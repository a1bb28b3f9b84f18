import NetEngine.Epoll.ChatInbound
import NetEngine.Epoll.ChatRefines

/-! Whole runs of the event loop against the chat. The specification is a function of
the batches alone, so two programs that keep to it show their peers the same. -/

set_option autoImplicit false

namespace NetEngine.Epoll

open Socket

variable {ρ : Type}

/-! ## The specification -/

namespace Spec

variable {spec : Spec} {fd : Fd} {input more : Bytes} {type : UInt16} {payload rest : Bytes}

theorem opens_doom : (spec.doom fd).opens fd = false := by
  by_cases opened : spec.opens fd = true
  · rw [doom, if_pos opened, opens, update]
    cases found : spec.people fd with
    | none => simp
    | some person => simp
  · rw [doom, if_neg opened]
    simpa using opened

theorem doom_shut (shut : spec.opens fd = false) : spec.doom fd = spec := by
  rw [doom, shut, if_neg Bool.false_ne_true]

theorem handAll_shut (shut : spec.opens fd = false) (frames : List (UInt16 × Bytes)) :
    spec.handAll fd frames = spec := by
  induction frames with
  | nil => rfl
  | cons frame frames ih =>
      rw [handAll, List.foldl_cons, hand, shut, if_neg Bool.false_ne_true]
      exact ih

theorem take_shut (shut : spec.opens fd = false) : spec.take fd input = spec := by
  simp only [take, handAll_shut shut, doom_shut shut, ite_self]

theorem take_more (found : Framing.next maxPayload input = .more) : spec.take fd input = spec := by
  simp only [take, Framing.parse_more found]
  rfl

theorem take_oversize (found : Framing.next maxPayload input = .oversize) :
    spec.take fd input = spec.doom fd := by
  simp only [take, Framing.parse_oversize found]
  rfl

theorem take_frame (found : Framing.next maxPayload input = .frame type payload rest)
    (opened : spec.opens fd = true) :
    spec.take fd input = (spec.packet fd type payload).take fd rest := by
  have handed : hand fd spec (type, payload) = spec.packet fd type payload := by
    rw [hand, if_pos opened]
  simp only [take, Framing.parse_frame found, Framing.Parsed.after, List.singleton_append, handAll,
    List.foldl_cons, handed]

theorem take_opens (opened : (spec.take fd input).opens fd = true) :
    (Framing.parse maxPayload input).oversize = false := by
  cases long : (Framing.parse maxPayload input).oversize with
  | false => rfl
  | true =>
      simp only [take, long, if_true, opens_doom] at opened
      cases opened

/-- More bytes are parsed behind what the parse before them left. -/
theorem take_append (spec : Spec) (fd : Fd) (input more : Bytes) :
    spec.take fd (input ++ more) =
      if (spec.take fd input).opens fd then
        (spec.take fd input).take fd ((Framing.parse maxPayload input).rest ++ more)
      else spec.take fd input := by
  induction input using Framing.parse.induct maxPayload generalizing spec with
  | case1 input found =>
      rw [take_more found, Framing.parse_more found]
      cases opened : spec.opens fd with
      | true => rfl
      | false => exact take_shut opened
  | case2 input found =>
      rw [take_oversize found, take_oversize (Framing.next_append_oversize found more), opens_doom]
      rfl
  | case3 input type payload rest found ih =>
      cases opened : spec.opens fd with
      | false => simp only [take_shut opened, opened, if_false, Bool.false_eq_true]
      | true =>
          rw [take_frame found opened, take_frame (Framing.next_append_frame found more) opened,
            ih, Framing.parse_frame found]
          rfl

/-- The bytes of one event may be read in any pieces. -/
theorem read_split {chunk : Bytes} (some : chunk ≠ []) (spec : Spec) (fd : Fd)
    (script : List (RecvAnswer UInt8)) (input rest : Bytes) :
    read fd (.data (chunk ++ rest) :: script) input spec =
      if (spec.take fd (input ++ chunk)).opens fd then
        read fd (pushBack rest script) (Framing.parse maxPayload (input ++ chunk)).rest
          (spec.take fd (input ++ chunk))
      else spec.take fd (input ++ chunk) := by
  have filled : chunk ++ rest ≠ [] := fun empty => some (List.append_eq_nil_iff.mp empty).1
  by_cases done : rest = []
  · subst done
    simp only [read, pushBack, List.append_nil, if_neg some, if_true]
  · simp only [read, pushBack, if_neg filled, if_neg done, ← List.append_assoc]
    rw [take_append, Framing.parse_append maxPayload (input ++ chunk)]
    cases opened : (spec.take fd (input ++ chunk)).opens fd with
    | false => simp [opened]
    | true => rfl

/-! ### Names that have merged -/

theorem merged_doom (merged : spec.merged) : (spec.doom fd).merged := by
  unfold doom
  split <;> exact merged

theorem merged_packet (merged : spec.merged) : (spec.packet fd type payload).merged := by
  have left : ∀ person, (spec.leave fd person).merged := by
    intro person
    unfold leave
    split <;> exact merged
  unfold packet
  split
  · exact merged
  next person _ =>
    split
    · exact merged
    · split
      · split
        · exact merged
        · split
          · exact merged
          · exact Bool.or_eq_true_iff.mpr (.inl (left person))
      · split
        · split <;> exact merged
        · exact merged_doom merged

theorem merged_handAll {frames : List (UInt16 × Bytes)} (merged : spec.merged) :
    (spec.handAll fd frames).merged := by
  induction frames generalizing spec with
  | nil => exact merged
  | cons frame frames ih =>
      refine ih ?_
      unfold hand
      split
      · exact merged_packet merged
      · exact merged

theorem merged_take (merged : spec.merged) : (spec.take fd input).merged := by
  simp only [take]
  split
  · exact merged_doom (merged_handAll merged)
  · exact merged_handAll merged

theorem merged_read {script : List (RecvAnswer UInt8)} (merged : spec.merged) :
    (read fd script input spec).merged := by
  induction script generalizing spec input with
  | nil => exact merged
  | cons answer script ih =>
      cases answer with
      | wouldBlock => exact merged
      | eof | failed => exact merged_doom merged
      | interrupted => exact ih merged
      | data bytes =>
          simp only [read]
          split
          · exact merged_doom merged
          · split
            · exact ih (merged_take merged)
            · exact merged_take merged

theorem merged_read_split {chunk : Bytes} (some : chunk ≠ []) {script : List (RecvAnswer UInt8)}
    (merged : (spec.take fd (input ++ chunk)).merged) :
    (read fd (.data (chunk ++ rest) :: script) input spec).merged := by
  rw [read_split some]
  split
  · exact merged_read merged
  · exact merged

theorem merged_accept {maxConns : Nat} {answers : List AcceptAnswer} (merged : spec.merged) :
    (accept maxConns answers spec).merged := by
  induction answers generalizing spec with
  | nil => exact merged
  | cons answer answers ih =>
      cases answer with
      | interrupted | aborted => exact ih merged
      | outOfFds | failed | wouldBlock => exact merged
      | arrived fd added =>
          simp only [accept]
          split
          · exact ih merged
          · split <;> exact ih merged

theorem merged_handle {maxConns : Nat} {event : Event} (merged : spec.merged) :
    (spec.handle maxConns event).merged := by
  cases event with
  | accept answers => exact merged_accept merged
  | signal => exact merged
  | ready what =>
      simp only [handle, ready]
      split
      · exact merged
      · split
        · exact merged_doom merged
        · split
          · exact merged_read merged
          · exact merged

theorem merged_drain {maxConns : Nat} {events : List Event} (merged : spec.merged) :
    (events.foldl (handle maxConns) spec).merged := by
  induction events generalizing spec with
  | nil => exact merged
  | cons event events ih => exact ih (merged_handle merged)

theorem merged_depart : (spec.depart fd).merged = spec.merged := by
  unfold depart
  split
  · rfl
  next person _ =>
    unfold farewell
    split
    · rfl
    · split <;> rfl

theorem merged_reap : spec.reap.merged = spec.merged := by
  have departed : ∀ (fds : List Fd) (spec : Spec), (fds.foldl depart spec).merged = spec.merged := by
    intro fds
    induction fds with
    | nil => exact fun _ => rfl
    | cons fd fds ih => exact fun spec => (ih (spec.depart fd)).trans merged_depart
  exact departed spec.doomed spec

theorem merged_iterate {maxConns : Nat} {batch : Batch} (merged : spec.merged) :
    (spec.iterate maxConns batch).merged := by
  unfold iterate
  rw [merged_reap]
  exact merged_drain merged

theorem merged_runFrom {maxConns : Nat} {batches : List Batch} (merged : spec.merged) :
    (spec.runFrom maxConns batches).merged := by
  induction batches generalizing spec with
  | nil => exact merged
  | cons batch batches ih =>
      refine ih ?_
      simp only
      split
      · exact merged_iterate merged
      · exact merged

end Spec

/-! ## Reading -/

/-- What an open connection has buffered. -/
def State.Buffers (state : State ρ) (fd : Fd) (input : Bytes) : Prop :=
  ∀ client, state.clients fd = some client → client.closing = false → client.input = input

section Reading

variable {named : ρ → Bytes → Prop} {whole : Prop} {rules : Rules ρ} {state after : State ρ}
  {spec : Spec} {fd : Fd} {input : Bytes}

theorem Sends.buffers {names : Prop} {types : UInt16 → Prop}
    (sends : Sends names types state after) (buffers : state.Buffers fd input) :
    after.Buffers fd input := by
  intro later found opened
  obtain ⟨client, before, carries⟩ := sends.back found
  rw [carries.input]
  refine buffers client before ?_
  cases closing : client.closing with
  | false => rfl
  | true => rw [carries.closing closing] at opened; cases opened

theorem State.setInput_buffers : (state.setInput fd input).Buffers fd input := by
  intro client found _
  rw [setInput, update_clients, Option.map_eq_some_iff] at found
  obtain ⟨before, _, rfl⟩ := found
  rfl

theorem State.receive_buffers {client : Client ρ} {chunk : Bytes}
    (found : state.clients fd = some client) (opened : client.closing = false)
    (buffers : state.Buffers fd input) : (state.receive fd client chunk).Buffers fd (input ++ chunk) :=
  buffers client found opened ▸ State.setInput_buffers

theorem Parse.agrees (names : Names rules named whole) (plain : rules.coalesce = false)
    (parse : Parse rules fd state after) (agrees : Agrees named (some fd) state spec)
    (buffers : state.Buffers fd input) (smooth : Smooth after.trace)
    (clear : whole ∨ ¬ (spec.take fd input).merged) :
    Agrees named (some fd) after (spec.take fd input) ∧
      after.Buffers fd (Framing.parse maxPayload input).rest := by
  have grown : ∀ {early late : State ρ}, Parse rules fd early late → early.trace <+: late.trace :=
    fun parse => (grows_events rules _).parse parse (List.prefix_refl _)
  have handled : ∀ {told : State ρ}, Smooth (told.noteHandled fd).trace → Smooth told.trace :=
    fun smooth => smooth.before (List.prefix_append ..)
  induction parse generalizing spec input with
  | closing shut =>
      rw [Spec.take_shut (agrees.shut_iff.mpr shut)]
      exact ⟨agrees, fun client found opened => absurd ⟨client, found, opened⟩ shut⟩
  | @more state client found opened next =>
      rw [buffers client found opened] at next
      rw [Spec.take_more next, Framing.parse_more next]
      exact ⟨agrees, buffers⟩
  | @oversize state client found opened next =>
      rw [buffers client found opened] at next
      rw [Spec.take_oversize next]
      refine ⟨(agrees.still (State.emit_still (.oversize fd) fun _ => rfl)).doom, ?_⟩
      intro later here serving
      exact absurd ⟨later, here, serving⟩ State.doom_shuts
  | @late state told after client type payload rest found opened next packet later ih =>
      rw [buffers client found opened] at next
      have opens : spec.opens fd = true := agrees.opens_iff.mpr ⟨client, found, opened⟩
      rw [Spec.take_frame next opens] at clear ⊢
      rw [Framing.parse_frame next]
      have noted := agrees.still (State.emit_still (.packet state.clients fd type payload) fun _ => rfl)
      have begins := grown later
      have dealt := packet.agrees names plain ⟨client, found⟩ noted
        (handled (smooth.before begins)) (clear.imp id (mt Spec.merged_take))
      exact ih (dealt.still (State.emit_still _ fun _ => rfl) |>.buffer rest)
        State.setInput_buffers smooth clear
  | @early state told after client type payload rest found opened next packet later ih =>
      rw [buffers client found opened] at next
      have opens : spec.opens fd = true := agrees.opens_iff.mpr ⟨client, found, opened⟩
      rw [Spec.take_frame next opens] at clear ⊢
      rw [Framing.parse_frame next]
      have noted := agrees.still (State.emit_still (.packet state.clients fd type payload) fun _ => rfl)
      have live := ((State.update_sameFds (state.emit (.packet state.clients fd type payload)) fd
        fun client => { client with input := rest }).1 fd).mpr ⟨client, found⟩
      have dealt := packet.agrees names plain live (noted.buffer rest)
        (handled (smooth.before (grown later))) (clear.imp id (mt Spec.merged_take))
      have sends : Sends False (fun _ => True) _ told := packet.sends trivial fun _ => trivial
      exact ih (dealt.still (State.emit_still _ fun _ => rfl))
        (sends.buffers State.setInput_buffers) smooth clear

/-- A read that would block leaves what it has buffered. -/
theorem Agrees.finish (agrees : Agrees named (some fd) state spec)
    (buffers : state.Buffers fd input) :
    Agrees named none state (spec.update fd fun person => { person with input }) := by
  have same : state.update fd id = state := by
    rw [State.update, Option.map_id, id, Function.update_eq_self]
  have moved : Agrees named (some fd) (state.update fd id)
      (spec.update fd fun person => { person with input }) := by
    refine agrees.update id (fun person => { person with input }) (fun _ => rfl) (fun _ alike => ?_)
      (fun _ => rfl) fun _ => rfl
    exact ⟨alike.nick, alike.room, alike.closing, fun settled => absurd rfl settled⟩
  rw [same] at moved
  refine moved.settle fun core person found known opened => ?_
  obtain ⟨client, here, rfl⟩ := State.core_some found
  rw [Spec.update_people, Function.update_self, Option.map_eq_some_iff] at known
  obtain ⟨before, _, rfl⟩ := known
  exact buffers client here opened

theorem Reads.agrees (names : Names rules named whole) (plain : rules.coalesce = false)
    (long : rules.shortRead = false) {script : List (RecvAnswer UInt8)}
    (reads : Reads rules fd script state after) (agrees : Agrees named (some fd) state spec)
    (opened : state.Open fd) (buffers : state.Buffers fd input) (short : input.length < maxFrame)
    (smooth : Smooth after.trace) (clear : whole ∨ ¬ (Spec.read fd script input spec).merged) :
    Agrees named none after (Spec.read fd script input spec) := by
  have noted : ∀ {state : State ρ} (bytes : Bytes), Still state (state.emit (.recv fd bytes)) :=
    fun bytes => State.emit_still (.recv fd bytes) fun _ => rfl
  have doomed : ∀ {state : State ρ} {spec : Spec}, Agrees named (some fd) state spec →
      Agrees named none ((state.emit (.recv fd [])).doom fd) (spec.doom fd) :=
    fun agrees => (agrees.still (noted [])).doom.shut State.doom_shuts
  have parsed : ∀ {state told : State ρ} {client : Client ρ} {chunk input : Bytes} {spec : Spec},
      state.clients fd = some client → state.Open fd → state.Buffers fd input →
      Agrees named (some fd) state spec → Parse rules fd (state.receive fd client chunk) told →
      Smooth (told.noteParsed fd).trace → whole ∨ ¬ (spec.take fd (input ++ chunk)).merged →
      Agrees named (some fd) (told.noteParsed fd) (spec.take fd (input ++ chunk)) ∧
        (told.noteParsed fd).Buffers fd (Framing.parse maxPayload (input ++ chunk)).rest := by
    intro state told client chunk input spec found opened buffers agrees parse smooth clear
    have serving := (State.open_iff found).mp opened
    obtain ⟨taken, left⟩ := parse.agrees names plain ((agrees.still (noted chunk)).buffer _)
      (State.receive_buffers found serving buffers) (smooth.before (List.prefix_append ..)) clear
    exact ⟨taken.still (State.emit_still _ fun _ => rfl), left⟩
  induction reads generalizing spec input with
  | @drained state after script ended follows =>
      have sends : Sends True (fun _ => True) (state.emit (.recv fd [])) after := follows.sends
      have done := (agrees.still (noted [])).still (follows.still smooth)
      rcases ended with rfl | ⟨later, rfl⟩
      · exact done.finish (sends.buffers buffers)
      · exact done.finish (sends.buffers buffers)
  | ended ends =>
      obtain ⟨later, rfl | rfl | rfl⟩ := ends
      · exact doomed agrees
      · exact doomed agrees
      · exact doomed agrees
  | interrupted _ ih => exact ih (agrees.still (noted [])) opened buffers short smooth clear
  | stopped found some parse shut =>
      obtain ⟨taken, _⟩ := parsed found opened buffers agrees parse smooth
        (clear.imp id (mt (Spec.merged_read_split some)))
      rw [Spec.read_split some, if_neg (Bool.not_eq_true _ ▸ taken.shut_iff.mpr shut)]
      exact taken.shut shut
  | short _ _ shortens _ _ _ => rw [long] at shortens; cases shortens
  | @again state told after client chunk rest script found some parse still later ih =>
      have live : (told.noteParsed fd).Live fd := still.imp fun _ serves => serves.1
      have begins := (grows_events rules _).reads later live (List.prefix_refl _)
      obtain ⟨taken, left⟩ := parsed found opened buffers agrees parse (smooth.before begins)
        (clear.imp id (mt (Spec.merged_read_split some)))
      have opens := taken.opens_iff.mpr still
      have shorter := Framing.next_more_short (Framing.next_rest (Spec.take_opens opens))
      rw [Spec.read_split some, if_pos opens] at clear ⊢
      exact ih taken still left shorter smooth clear
  | backlog taken found full =>
      have serving := (State.open_iff found).mp opened
      rw [buffers _ found serving] at full
      exact absurd short (Nat.not_lt.mpr full)

end Reading

/-! ## The main loop -/

/-- The connections that `accept4` answers with. -/
def Event.arrivals : Event → List Fd
  | .accept answers => answers.filterMap fun
      | .arrived fd _ => some fd
      | _ => none
  | _ => []

def Batch.arrivals (batch : Batch) : List Fd := batch.events.flatMap Event.arrivals

/-- What a setting of a server takes to be compared: lines go out at once, whole reads, and a
cap on the connections only. -/
structure Plain (rules : Rules ρ) (maxConns : Nat) (arrives : Fd → Prop) : Prop where
  coalesce : rules.coalesce = false
  shortRead : rules.shortRead = false
  full : ∀ size fd, arrives fd → rules.full size fd = decide (maxConns ≤ size)

section Loop

variable {named : ρ → Bytes → Prop} {whole : Prop} {rules : Rules ρ} {maxConns : Nat}
  {arrives : Fd → Prop} {state after : State ρ} {spec : Spec} {fd : Fd}

theorem story_marked {trace : List (Obs ρ)} {stories : Fd → List Deed} {obs : Obs ρ} {deed : Deed}
    (same : ∀ fd, story fd trace = stories fd) (own : obs.deed fd = some deed)
    (others : ∀ other, other ≠ fd → obs.deed other = none) (other : Fd) :
    story other (trace ++ [obs]) = Function.update stories fd (stories fd ++ [deed]) other := by
  by_cases here : other = fd
  · rw [here, Function.update_self, story_deed own, same]
  · rw [Function.update_of_ne here, story_quiet (others other here), same]

theorem Agrees.insert (agrees : Agrees named none state spec) (fresh : state.clients fd = none) :
    Agrees named none (state.insert fd) (spec.insert fd) := by
  have here : (state.insert fd).core = Function.update state.core fd (some {}) := by
    funext other
    by_cases own : other = fd
    · subst own
      simp [State.core, State.insert, Client.core]
    · simp [State.core, State.insert, own]
  refine agrees.put _ _ here rfl (.some ⟨rfl, .none, rfl, fun _ _ => rfl⟩)
    (fun other _ => agrees.nowhere_iff) (congrArg (· + 1) agrees.size) (fun other known => ?_)
    agrees.doomed agrees.running
    (story_marked agrees.stories (by simp [Obs.deed]) fun other apart => ?_)
  · by_cases own : other = fd
    · exact own ▸ List.mem_cons_self
    · refine List.mem_cons_of_mem _ (agrees.online other ?_)
      simpa [Spec.insert, own] using known
  · simp [Obs.deed, Ne.symm apart]

theorem Agrees.remove (agrees : Agrees named none state spec) (live : state.Live fd) :
    Agrees named none (state.remove fd) (spec.remove fd) := by
  have here : (state.remove fd).core = Function.update state.core fd none := by
    funext other
    by_cases own : other = fd
    · subst own
      simp [State.core, State.remove]
    · simp [State.core, State.remove, own]
  obtain ⟨client, found⟩ := live
  obtain ⟨person, present, _⟩ := agrees.present found
  have listed : fd ∈ spec.online := agrees.online fd (present ▸ rfl)
  have shorter : state.size - 1 = (spec.online.erase fd).length := by
    rw [agrees.size, List.length_erase_of_mem listed]
  refine agrees.put _ _ here rfl .none (fun other _ => agrees.nowhere_iff) shorter
    (fun other known => ?_) agrees.doomed agrees.running
    (story_marked agrees.stories (by simp [Obs.deed]) fun other apart => ?_)
  · by_cases own : other = fd
    · simp [Spec.remove, own] at known
    · refine (List.mem_erase_of_ne own).mpr (agrees.online other ?_)
      simpa [Spec.remove, own] using known
  · simp [Obs.deed, Ne.symm apart]

theorem Agrees.onAccept (plain : Plain rules maxConns arrives) {answers : List AcceptAnswer}
    (agrees : Agrees named none state spec)
    (arriving : ∀ fd added, AcceptAnswer.arrived fd added ∈ answers → arrives fd) :
    Agrees named none (state.onAccept rules answers) (Spec.accept maxConns answers spec) := by
  induction answers generalizing state spec with
  | nil => exact agrees
  | cons answer answers ih =>
      have later : ∀ fd added, AcceptAnswer.arrived fd added ∈ answers → arrives fd :=
        fun fd added member => arriving fd added (List.mem_cons_of_mem _ member)
      cases answer with
      | interrupted | aborted => exact ih agrees later
      | outOfFds | failed | wouldBlock => exact agrees
      | arrived fd added =>
          have full := plain.full spec.online.length fd (arriving fd added List.mem_cons_self)
          simp only [State.onAccept, Spec.accept, agrees.size, full, decide_eq_true_eq]
          cases found : state.clients fd with
          | some client =>
              obtain ⟨person, known, _⟩ := agrees.present found
              simp only [known, Option.isSome_some, if_true]
              exact ih agrees later
          | none =>
              simp only [agrees.absent found, Option.isSome_none, Bool.false_eq_true, if_false]
              split
              · exact ih (agrees.still (State.emit_still (.refused fd) fun _ => rfl)) later
              · exact ih (agrees.insert found) later

theorem Handles.agrees (names : Names rules named whole) (plain : Plain rules maxConns arrives)
    {event : Event} (handles : Handles rules event state after)
    (agrees : Agrees named none state spec) (short : state.Short)
    (arriving : ∀ answers fd added, event = .accept answers →
      AcceptAnswer.arrived fd added ∈ answers → arrives fd)
    (smooth : Smooth after.trace) (clear : whole ∨ ¬ (spec.handle maxConns event).merged) :
    Agrees named none after (spec.handle maxConns event) := by
  cases handles with
  | accept => exact agrees.onAccept plain fun fd added => arriving _ fd added rfl
  | signal =>
      exact ⟨agrees.people, agrees.rooms, agrees.size, agrees.online, agrees.doomed, rfl,
        agrees.stories⟩
  | @gone _ what shut =>
      simp only [Spec.handle, Spec.ready, agrees.shut_iff.mpr shut, if_true]
      exact agrees
  | @hangup _ what opened hung =>
      simp only [Spec.handle, Spec.ready, agrees.opens_iff.mpr opened, hung, if_true, if_false,
        Bool.true_eq_false]
      exact agrees.doom
  | @serve _ flushed _ what opened open_ flushes reads =>
      have opens := agrees.opens_iff.mpr opened
      simp only [Spec.handle, Spec.ready, opens, open_, if_false, Bool.true_eq_false,
        Bool.false_eq_true] at clear ⊢
      have still : Smooth flushed.trace → Still state flushed := by
        intro smooth
        rcases flushes with ⟨_, flushes⟩ | ⟨_, rfl⟩
        · exact flushes.still smooth
        · exact .refl flushed
      rcases reads with ⟨⟨client, found, serving⟩, readable, reads⟩ | ⟨unread, rfl⟩
      · have begins := (grows_events rules _).reads reads ⟨client, found⟩ (List.prefix_refl _)
        have quiet := still (smooth.before begins)
        rw [if_pos readable] at clear ⊢
        have kept := agrees.still quiet
        obtain ⟨person, known, alike⟩ := kept.present found
        have input : (spec.people what.fd).elim [] (·.input) = client.input := by
          rw [known]
          exact (alike.input (Option.some_ne_none _).symm serving).symm
        rw [input] at clear ⊢
        refine reads.agrees names plain.coalesce plain.shortRead (kept.attend what.fd)
          ⟨client, found, serving⟩ ?_ ?_ smooth clear
        · intro other here _
          rw [found, Option.some.injEq] at here
          exact here ▸ rfl
        · refine (?_ : flushed.Short) what.fd client found serving
          rcases flushes with ⟨_, flushes⟩ | ⟨_, rfl⟩
          · exact flushes.keepsShort short
          · exact short
      · have quiet := still smooth
        have blind : what.readable = false := by
          have opened := (quiet.open_iff what.fd).mpr opened
          simpa [opened] using unread
        rw [blind, if_neg Bool.false_ne_true]
        exact agrees.still quiet

theorem Drains.agrees (names : Names rules named whole) (plain : Plain rules maxConns arrives)
    {events : List Event} (drains : Drains rules events state after)
    (agrees : Agrees named none state spec) (short : state.Short)
    (arriving : ∀ answers fd added, Event.accept answers ∈ events →
      AcceptAnswer.arrived fd added ∈ answers → arrives fd)
    (smooth : Smooth after.trace)
    (clear : whole ∨ ¬ (events.foldl (Spec.handle maxConns) spec).merged) :
    Agrees named none after (events.foldl (Spec.handle maxConns) spec) := by
  induction drains generalizing spec with
  | nil => exact agrees
  | @cons state next after event events handles later ih =>
      have begins := (grows_events rules _).drains later (List.prefix_refl next.trace)
      have handled := handles.agrees names plain agrees short
        (fun answers fd added same => arriving answers fd added (same ▸ List.mem_cons_self))
        (smooth.before begins) (clear.imp id (mt Spec.merged_drain))
      exact ih handled (handles.keepsShort short)
        (fun answers fd added member => arriving answers fd added (List.mem_cons_of_mem _ member))
        smooth clear

theorem Depart.agrees {client : Client ρ} {person : Core Bytes}
    (departs : Depart rules fd client state after) (agrees : Agrees named none state spec)
    (found : state.clients fd = some client) (known : spec.people fd = some person)
    (nick : client.nick = person.nick) (smooth : Smooth after.trace) :
    Agrees named none after (spec.farewell fd person) := by
  cases departs with
  | silent why =>
      have quiet : spec.farewell fd person = spec.update fd fun person => { person with room := none } := by
        rcases why with nowhere | nameless
        · simp only [Spec.farewell, agrees.outside found known nowhere]
        · rw [nick] at nameless
          simp only [Spec.farewell, nameless, if_true]
          split <;> rfl
      rw [quiet]
      exact agrees.quit
  | notice inside given told =>
      obtain ⟨name, here, members⟩ := agrees.inside found known inside
      rw [nick] at given told
      simp only [Spec.farewell, here, if_neg given]
      refine agrees.quit.broadcast told smooth fun other apart => ?_
      have own : other ≠ fd := fun same => apart (same ▸ rfl)
      rw [State.roomOf_enterRoom own, Spec.roomOf_put (Spec.update_people ..),
        Function.update_of_ne own]
      exact members other

theorem Spec.depart_doomed : (spec.depart fd).doomed = spec.doomed := by
  unfold depart
  split
  · rfl
  next person _ =>
    unfold farewell
    split
    · rfl
    · split <;> rfl

theorem Reap.agrees {index : Nat} (reap : Reap rules index state after)
    (agrees : Agrees named none state spec) (smooth : Smooth after.trace) :
    Agrees named none after
      { (spec.doomed.drop index).foldl Spec.depart spec with doomed := [] } := by
  have listed : ∀ {state : State ρ} {spec : Spec} {index : Nat} {fd : Fd},
      Agrees named none state spec → state.doomed[index]? = some fd →
      spec.doomed.drop index = fd :: spec.doomed.drop (index + 1) := by
    intro state spec index fd agrees member
    rw [agrees.doomed] at member
    obtain ⟨inside, rfl⟩ := List.getElem?_eq_some_iff.mp member
    exact List.drop_eq_getElem_cons inside
  induction reap generalizing spec with
  | @done state index past =>
      rw [agrees.doomed] at past
      rw [List.drop_eq_nil_of_le past]
      exact ⟨agrees.people, agrees.rooms, agrees.size, agrees.online, rfl, agrees.running,
        agrees.stories⟩
  | @gone state after index fd member dead later ih =>
      have absent : spec.people fd = none := by
        refine agrees.absent ?_
        cases found : state.clients fd with
        | none => rfl
        | some client => exact absurd ⟨client, found⟩ dead
      have stays : spec.depart fd = spec := by simp only [Spec.depart, absent]
      rw [listed agrees member, List.foldl_cons, stays]
      exact ih agrees smooth
  | @close state told after index fd client member found departs later ih =>
      obtain ⟨person, known, alike⟩ := agrees.present found
      have begins := (grows_preserves rules _).reap later (List.prefix_refl (told.remove fd).trace)
      have noted := agrees.still (State.emit_still (.departs state.clients fd) fun _ => rfl)
      have left := departs.agrees noted found known alike.nick
        (smooth.before ((List.prefix_append ..).trans begins))
      have gone : Agrees named none (told.remove fd) (spec.depart fd) := by
        simp only [Spec.depart, known]
        exact left.remove ((departs.sameFds.1 fd).mpr ⟨client, found⟩)
      rw [listed agrees member, List.foldl_cons, ← Spec.depart_doomed]
      exact ih gone smooth

theorem Tail.agrees (tail : Tail rules state after) (agrees : Agrees named none state spec)
    (smooth : Smooth after.trace) : Agrees named none after spec.reap := by
  cases tail with
  | batch _ flush reaping again =>
      have ends := (grows_preserves rules _).flushDirty again (List.prefix_refl _)
      have middle := (grows_preserves rules _).reap reaping (List.prefix_refl _)
      have first := agrees.still (flush.still (smooth.before (middle.trans ends)))
      exact (reaping.agrees first (smooth.before ends)).still (again.still smooth)
  | immediate _ reaping => exact reaping.agrees agrees smooth

theorem Agrees.wake (agrees : Agrees named none state spec) :
    Agrees named none (state.emit .wake) spec.wake := by
  have keeps : Keeps state (state.emit .wake) :=
    ⟨rfl, rfl, rfl, rfl, List.prefix_append ..⟩
  exact agrees.congr keeps fun fd => (story_deed rfl).trans (congrArg (· ++ [.wake]) (agrees.stories fd))

theorem Iterates.agrees (names : Names rules named whole) {batch : Batch}
    (plain : Plain rules maxConns (· ∈ batch.arrivals)) (iterates : Iterates rules batch state after)
    (agrees : Agrees named none state spec) (short : state.Short) (smooth : Smooth after.trace)
    (clear : whole ∨ ¬ (spec.iterate maxConns batch).merged) :
    Agrees named none after (spec.iterate maxConns batch) := by
  cases iterates with
  | @mk drained ticked _ drains ticks tail =>
      have same : ticked = drained :=
        ticks.resolve_left fun coalesces => by rw [plain.coalesce] at coalesces; cases coalesces.1
      subst same
      have begins := (grows_preserves rules _).tail tail (List.prefix_refl _)
      rw [Spec.iterate, Spec.merged_reap] at clear
      refine tail.agrees (drains.agrees names plain agrees.wake short ?_ (smooth.before begins) clear)
        smooth
      intro answers fd added member arrived
      exact List.mem_flatMap.mpr ⟨_, member, List.mem_filterMap.mpr ⟨_, arrived, rfl⟩⟩

theorem Spec.runFrom_halted (halted : spec.running = false) (batches : List Batch) :
    spec.runFrom maxConns batches = spec := by
  induction batches with
  | nil => rfl
  | cons batch batches ih =>
      rw [runFrom, List.foldl_cons, halted, if_neg Bool.false_ne_true]
      exact ih

theorem Runs.grows {batches : List Batch} (runs : Runs rules batches state after) :
    state.trace <+: after.trace := by
  induction runs with
  | nil | stop _ => exact List.prefix_refl _
  | cons _ iterates _ ih =>
      have woken := (grows_preserves rules _).iterates iterates (List.prefix_append ..)
      exact woken.trans ih

/-- A run of the event loop shows what the specification of its batches shows. -/
theorem Runs.agrees (names : Names rules named whole) {batches : List Batch}
    (plain : ∀ batch ∈ batches, Plain rules maxConns (· ∈ batch.arrivals))
    (runs : Runs rules batches state after) (agrees : Agrees named none state spec)
    (short : state.Short) (smooth : Smooth after.trace)
    (clear : whole ∨ ¬ (spec.runFrom maxConns batches).merged) :
    Agrees named none after (spec.runFrom maxConns batches) := by
  induction runs generalizing spec with
  | nil => exact agrees
  | @stop state batches stopped =>
      have halted : spec.running = false := agrees.running ▸ stopped
      rw [Spec.runFrom_halted halted batches]
      exact agrees
  | @cons state next after batch batches running iterates later ih =>
      have serves : spec.running = true := agrees.running ▸ running
      have same : spec.runFrom maxConns (batch :: batches) =
          (spec.iterate maxConns batch).runFrom maxConns batches := by
        rw [Spec.runFrom, List.foldl_cons, serves]
        rfl
      rw [same] at clear ⊢
      have next := iterates.agrees names (plain batch List.mem_cons_self) agrees short
        (smooth.before later.grows) (clear.imp id (mt Spec.merged_runFrom))
      exact ih (fun batch member => plain batch (List.mem_cons_of_mem _ member)) next
        (iterates.keepsShort short) smooth clear

end Loop

end NetEngine.Epoll
