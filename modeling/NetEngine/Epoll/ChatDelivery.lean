import Mathlib.Data.List.Sort
import NetEngine.Epoll.ChatRule
import NetEngine.Library.Machine

/-! Who hears a chat. A packet stands in the trace as a bracket: the table that
it was handled on, what it did, and its end. The bracket of a chat holds its line
once for every open member of the room that can take it, and nothing else. -/

set_option autoImplicit false

namespace NetEngine.Epoll

open Socket Machine

variable {ρ : Type}

/-- What was queued for one connection, in order. -/
def appendsTo (fd : Fd) (trace : List (Obs ρ)) : List (UInt16 × Bytes) :=
  trace.filterMap fun
    | .append other type payload => if other = fd then some (type, payload) else none
    | _ => none

/-- An open member of the room, with a queue that can take the line. -/
def Hears (clients : Fd → Option (Client ρ)) (room : ρ) (line : Bytes) (fd : Fd) : Prop :=
  line.length ≤ maxPayload ∧ ∃ client, clients fd = some client ∧ client.closing = false ∧
    client.room = some room ∧ client.pending.length + headerSize + line.length ≤ sendCap

/-- One chat: `clients` is the table when its packet is handled, and `body` what that does. -/
structure Delivered (clients : Fd → Option (Client ρ)) (fd : Fd) (payload : Bytes)
    (body : List (Obs ρ)) : Prop where
  sender : ∃ client, clients fd = some client ∧ client.closing = false
  heard : ∀ client room, clients fd = some client → client.room = some room → ∀ other,
    Hears clients room (chatLine client.nick payload) other →
      appendsTo other body = [(sChat, chatLine client.nick payload)]
  others : ∀ client room, clients fd = some client → client.room = some room → ∀ other,
    ¬ Hears clients room (chatLine client.nick payload) other → appendsTo other body = []
  alone : ∀ client, clients fd = some client → client.room = none →
    (∀ other, other ≠ fd → appendsTo other body = []) ∧
      ∀ obs ∈ body, obs.Sending fun type => type ≠ sChat

/-- What a packet of any type does: only a chat queues chats. -/
def Does (type : UInt16) (clients : Fd → Option (Client ρ)) (fd : Fd) (payload : Bytes)
    (body : List (Obs ρ)) : Prop :=
  (∀ obs ∈ body, obs.Sending fun _ => True) ∧
    (type = cChat → Delivered clients fd payload body) ∧
    (type ≠ cChat → ∀ obs ∈ body, obs.Sending fun type => type ≠ sChat)

/-- An event outside of the brackets. -/
def Obs.Quiet : Obs ρ → Prop
  | .packet .. | .handled .. => False
  | .append _ type _ => type ≠ sChat
  | _ => True

inductive Bracketed : List (Obs ρ) → Prop where
  | nil : Bracketed []
  | quiet {trace : List (Obs ρ)} {obs : Obs ρ} :
      Bracketed trace → obs.Quiet → Bracketed (trace ++ [obs])
  | packet {trace body : List (Obs ρ)} {clients : Fd → Option (Client ρ)} {fd : Fd}
      {type : UInt16} {payload : Bytes} (closing : Bool) :
      Bracketed trace → Does type clients fd payload body →
      Bracketed (trace ++ .packet clients fd type payload :: body ++ [.handled fd closing])

/-! ## What a walk queues -/

section Appends

variable {fd other : Fd} {trace more : List (Obs ρ)}

@[simp] theorem appendsTo_append :
    appendsTo fd (trace ++ more) = appendsTo fd trace ++ appendsTo fd more :=
  List.filterMap_append ..

theorem appendsTo_none (silent : ∀ obs ∈ more, obs.Sending fun _ => False) :
    appendsTo fd more = [] := by
  refine List.filterMap_eq_nil_iff.mpr fun obs member => ?_
  have sending := silent obs member
  cases obs <;> first | rfl | exact sending.elim

theorem appendsTo_about (about : ∀ obs ∈ more, obs.About fd) (apart : other ≠ fd) :
    appendsTo other more = [] := by
  refine List.filterMap_eq_nil_iff.mpr fun obs member => ?_
  have own := about obs member
  cases obs with
  | append third type payload =>
      have same : third = fd := own
      simp [same, Ne.symm apart]
  | _ => rfl

end Appends

theorem Sends.silent {names : Prop} {state after : State ρ} {more : List (Obs ρ)}
    (sends : Sends names (fun _ => False) state after) (grown : after.trace = state.trace ++ more)
    (fd : Fd) : appendsTo fd more = [] := by
  obtain ⟨same, sameGrown, silent⟩ := sends.trace
  rw [grown, List.append_cancel_left_eq] at sameGrown
  exact appendsTo_none (sameGrown ▸ silent)

/-- One visit queues the line for the connection that is visited, if it can take it. -/
theorem visit_appends {rules : Rules ρ} {type : UInt16} {payload : Bytes} {fd : Fd}
    {state next : State ρ} (opened : state.Open fd)
    (follows : Follows rules fd (state.queueSend type payload fd) next) :
    ∃ more, next.trace = state.trace ++ more ∧
      (payload.length ≤ maxPayload ∧ state.Takes fd payload →
        appendsTo fd more = [(type, payload)]) ∧
      (¬ (payload.length ≤ maxPayload ∧ state.Takes fd payload) → appendsTo fd more = []) ∧
      ∀ other, other ≠ fd → appendsTo other more = [] := by
  obtain ⟨late, lateTrace, lateAbout⟩ := follows.only.trace
  have silent : Sends True (fun _ => False) (state.queueSend type payload fd) next := follows.sends
  have lateNone : appendsTo fd late = [] := silent.silent lateTrace fd
  have lateOthers : ∀ other, other ≠ fd → appendsTo other late = [] := fun other =>
    appendsTo_about lateAbout
  rcases State.queueSend_cases type payload opened with
    ⟨long, same⟩ | ⟨short, takes, same⟩ | ⟨short, refuses, same⟩
  · rw [same] at lateTrace
    exact ⟨late, lateTrace, fun ⟨short, _⟩ => absurd short (Nat.not_le.mpr long), fun _ => lateNone,
      lateOthers⟩
  · rw [same] at lateTrace
    refine ⟨.append fd type payload :: late, ?_, fun _ => ?_, fun wrong => ?_, fun other apart => ?_⟩
    · rw [lateTrace]
      simp [State.append]
    · simpa [appendsTo] using lateNone
    · exact absurd ⟨short, takes⟩ wrong
    · have none := lateOthers other apart
      simpa [appendsTo, Ne.symm apart] using none
  · have refusal : ∃ early, (state.refuse fd payload).trace = state.trace ++ early ∧
        ∀ other, appendsTo other early = [] := by
      have sends : Sends True (fun _ => False) state (state.refuse fd payload) := State.refuse_sends
      obtain ⟨early, earlyTrace, silent⟩ := sends.trace
      exact ⟨early, earlyTrace, fun _ => appendsTo_none silent⟩
    obtain ⟨early, earlyTrace, earlyNone⟩ := refusal
    rw [same, earlyTrace, List.append_assoc] at lateTrace
    refine ⟨early ++ late, lateTrace, fun ⟨_, takes⟩ => absurd takes refuses, fun _ => ?_,
      fun other apart => ?_⟩
    · rw [appendsTo_append, earlyNone, lateNone, List.append_nil]
    · rw [appendsTo_append, earlyNone, lateOthers other apart, List.append_nil]

/-- A walk queues its frame once for every listed connection that can take it
when the walk starts: no visit touches the queue of another connection. -/
theorem Walk.appends {rules : Rules ρ} {type : UInt16} {payload : Bytes} {fds : List Fd}
    {state after : State ρ} (walk : Walk rules (State.queueSend type payload) fds state after)
    (nodup : fds.Nodup) :
    ∃ more, after.trace = state.trace ++ more ∧
      (∀ fd ∈ fds, payload.length ≤ maxPayload ∧ state.Takes fd payload →
        appendsTo fd more = [(type, payload)]) ∧
      ∀ fd, ¬ (fd ∈ fds ∧ payload.length ≤ maxPayload ∧ state.Takes fd payload) →
        appendsTo fd more = [] := by
  induction walk with
  | nil => exact ⟨[], (List.append_nil _).symm, by simp, fun _ _ => rfl⟩
  | @skip fd fds state after shut _ ih =>
      obtain ⟨more, grown, gets, misses⟩ := ih nodup.of_cons
      have never : ¬ state.Takes fd payload := fun ⟨client, found, closing, _⟩ =>
        shut ⟨client, found, closing⟩
      refine ⟨more, grown, fun other member takes => ?_, fun other wrong => ?_⟩
      · rcases List.mem_cons.mp member with rfl | member
        · exact absurd takes.2 never
        · exact gets other member takes
      · exact misses other fun ⟨member, takes⟩ => wrong ⟨List.mem_cons_of_mem _ member, takes⟩
  | @visit fd fds state next after opened follows _ ih =>
      obtain ⟨fresh, nodup⟩ := List.nodup_cons.mp nodup
      obtain ⟨own, ownTrace, ownGets, ownMisses, ownOthers⟩ := visit_appends opened follows
      obtain ⟨more, grown, gets, misses⟩ := ih nodup
      have kept : ∀ other, other ≠ fd → (next.Takes other payload ↔ state.Takes other payload) := by
        intro other apart
        rw [State.Takes, State.Takes, follows.clients_ne apart,
          State.queueSend_only.clients other apart]
      have rest : appendsTo fd more = [] := misses fd fun ⟨member, _⟩ => fresh member
      refine ⟨own ++ more, by rw [grown, ownTrace, List.append_assoc], fun other member takes => ?_,
        fun other wrong => ?_⟩
      · rcases List.mem_cons.mp member with rfl | member
        · rw [appendsTo_append, ownGets takes, rest, List.append_nil]
        · have apart : other ≠ fd := fun same => fresh (same ▸ member)
          rw [appendsTo_append, ownOthers other apart, List.nil_append]
          exact gets other member ⟨takes.1, (kept other apart).mpr takes.2⟩
      · by_cases apart : other = fd
        · subst apart
          rw [appendsTo_append, rest, List.append_nil]
          exact ownMisses fun takes => wrong ⟨List.mem_cons_self, takes⟩
        · rw [appendsTo_append, ownOthers other apart, List.nil_append]
          exact misses other fun ⟨member, short, takes⟩ =>
            wrong ⟨List.mem_cons_of_mem _ member, short, (kept other apart).mp takes⟩

/-! ## Packets -/

theorem hears_iff {state : State ρ} {room : ρ} {line : Bytes} {fd : Fd} :
    Hears state.clients room line fd ↔
      state.InRoom room fd ∧ line.length ≤ maxPayload ∧ state.Takes fd line := by
  constructor
  · rintro ⟨short, client, found, closing, inRoom, fits⟩
    exact ⟨⟨client, found, inRoom⟩, short, client, found, closing, fits⟩
  · rintro ⟨⟨client, found, inRoom⟩, short, same, sameFound, closing, fits⟩
    rw [found, Option.some.injEq] at sameFound
    subst sameFound
    exact ⟨short, client, found, closing, inRoom, fits⟩

theorem queueSend_grows {state : State ρ} {fd : Fd} (text : Bytes) :
    ∃ body, (state.queueSend sNotice text fd).trace = state.trace ++ body ∧
      (∀ other, other ≠ fd → appendsTo other body = []) ∧
      ∀ obs ∈ body, obs.Sending fun type => type ≠ sChat := by
  have sends : Sends True (fun type => type ≠ sChat) state (state.queueSend sNotice text fd) :=
    State.queueSend_sends (by decide)
  obtain ⟨body, grown, quiet⟩ := sends.trace
  have only : Only fd state (state.queueSend sNotice text fd) := State.queueSend_only
  obtain ⟨same, sameGrown, about⟩ := only.trace
  rw [grown, List.append_cancel_left_eq] at sameGrown
  exact ⟨body, grown, fun other => appendsTo_about (sameGrown ▸ about), quiet⟩

theorem Packet.delivers {rules : Rules ρ} {fd : Fd} {payload : Bytes} {state after : State ρ}
    (packet : Packet rules fd payload cChat state after) (plain : rules.coalesce = false)
    (opened : state.Open fd) :
    ∃ body, after.trace = state.trace ++ body ∧ Delivered state.clients fd payload body := by
  obtain ⟨sender, senderFound, senderOpen⟩ := opened
  have same : ∀ {client : Client ρ}, state.clients fd = some client → client = sender :=
    fun found => Option.some.inj (found.symm.trans senderFound)
  generalize type_eq : cChat = type at packet
  cases packet with
  | setNick | nickFirst _ _ | roomRequired _ _ _ | join _ _ _ _ _ _ => cases type_eq
  | unknown _ _ notChat => exact absurd type_eq.symm notChat
  | record _ _ coalesce => rw [plain] at coalesce; cases coalesce
  | @joinFirst _ client found nowhere =>
      obtain rfl := same found
      obtain ⟨body, grown, others, quiet⟩ :=
        @queueSend_grows _ state fd Epoll.joinFirst
      refine ⟨body, grown, ⟨client, found, senderOpen⟩, ?_, ?_, fun _ _ _ => ⟨others, quiet⟩⟩
      · intro other room otherFound inRoom
        rw [same otherFound, nowhere] at inRoom
        cases inRoom
      · intro other room otherFound inRoom
        rw [same otherFound, nowhere] at inRoom
        cases inRoom
  | @chat _ _ client room found inRoom _ told =>
      obtain rfl := same found
      obtain ⟨members, nodup, member, walk⟩ := told
      obtain ⟨body, grown, gets, misses⟩ := walk.appends nodup
      have listed : ∀ other, other ∈ members ↔ state.InRoom room other := fun other => by
        simp [member]
      refine ⟨body, grown, ⟨client, found, senderOpen⟩, ?_, ?_, ?_⟩
      · rintro _ _ otherFound otherRoom other hears
        obtain rfl := same otherFound
        obtain rfl : room = _ := Option.some.inj (inRoom.symm.trans otherRoom)
        obtain ⟨inside, takes⟩ := hears_iff.mp hears
        exact gets other ((listed other).mpr inside) takes
      · rintro _ _ otherFound otherRoom other deaf
        obtain rfl := same otherFound
        obtain rfl : room = _ := Option.some.inj (inRoom.symm.trans otherRoom)
        exact misses other fun ⟨inside, takes⟩ =>
          deaf (hears_iff.mpr ⟨(listed other).mp inside, takes⟩)
      · intro other otherFound nowhere
        rw [same otherFound, inRoom] at nowhere
        cases nowhere

theorem Packet.does {rules : Rules ρ} {fd : Fd} {payload : Bytes} {type : UInt16}
    {state after : State ρ} (packet : Packet rules fd payload type state after)
    (plain : rules.coalesce = false) (opened : state.Open fd) :
    ∃ body, after.trace = state.trace ++ body ∧ Does type state.clients fd payload body := by
  have every : Sends False (fun _ => True) state after := packet.sends trivial fun _ => trivial
  obtain ⟨body, grown, sending⟩ := every.trace
  refine ⟨body, grown, sending, ?_, fun other => ?_⟩
  · rintro rfl
    obtain ⟨same, sameGrown, delivered⟩ := packet.delivers plain opened
    rw [grown, List.append_cancel_left_eq] at sameGrown
    exact sameGrown ▸ delivered
  · have few : Sends False (fun type => type ≠ sChat) state after :=
      packet.sends (by decide) fun chat => absurd chat other
    obtain ⟨same, sameGrown, quiet⟩ := few.trace
    rw [grown, List.append_cancel_left_eq] at sameGrown
    exact sameGrown ▸ quiet

/-- The buffered input of the sender has no say in what its packet does. -/
theorem Does.of_input {type : UInt16} {state : State ρ} {fd : Fd} {payload rest : Bytes}
    {body : List (Obs ρ)} (does : Does type (state.setInput fd rest).clients fd payload body) :
    Does type state.clients fd payload body := by
  obtain ⟨sending, chat, other⟩ := does
  refine ⟨sending, fun same => ?_, other⟩
  obtain ⟨sender, heard, others, alone⟩ := chat same
  have later : ∀ {other : Fd} {client : Client ρ}, state.clients other = some client →
      ∃ now, (state.setInput fd rest).clients other = some now ∧ now.nick = client.nick ∧
        now.room = client.room ∧ now.closing = client.closing ∧ now.pending = client.pending := by
    intro other client found
    by_cases own : other = fd
    · subst own
      exact ⟨{ client with input := rest }, by simp [State.setInput, found], rfl, rfl, rfl, rfl⟩
    · exact ⟨client, by simp [State.setInput, own, found], rfl, rfl, rfl, rfl⟩
  have hears : ∀ {room : ρ} {line : Bytes} {other : Fd},
      Hears (state.setInput fd rest).clients room line other ↔
        Hears state.clients room line other := by
    intro room line other
    refine and_congr_right fun _ => ?_
    cases found : state.clients other with
    | none =>
        have absent : (state.setInput fd rest).clients other = none := by
          by_cases own : other = fd
          · subst own
            simp [State.setInput, found]
          · simp [State.setInput, own, found]
        simp [absent]
    | some client =>
        obtain ⟨now, nowFound, _, room, closing, pending⟩ := later found
        simp [nowFound, room, closing, pending]
  refine ⟨?_, ?_, ?_, ?_⟩
  · obtain ⟨now, nowFound, nowOpen⟩ := sender
    cases found : state.clients fd with
    | none => simp [State.setInput, found] at nowFound
    | some client =>
        obtain ⟨same, sameFound, _, _, closing, _⟩ := later found
        rw [nowFound, Option.some.injEq] at sameFound
        subst sameFound
        exact ⟨client, rfl, closing ▸ nowOpen⟩
  · intro client room found inRoom other
    obtain ⟨now, nowFound, nick, room_eq, _, _⟩ := later found
    have kept := heard now room nowFound (room_eq.trans inRoom) other
    rwa [nick, hears] at kept
  · intro client room found inRoom other
    obtain ⟨now, nowFound, nick, room_eq, _, _⟩ := later found
    have kept := others now room nowFound (room_eq.trans inRoom) other
    rwa [nick, hears] at kept
  · intro client found nowhere
    obtain ⟨now, nowFound, _, room_eq, _, _⟩ := later found
    exact alone now nowFound (room_eq.trans nowhere)

/-! ## Runs -/

namespace Bracketed

variable {trace more : List (Obs ρ)}

theorem grow (bracketed : Bracketed trace) (quiet : ∀ obs ∈ more, obs.Quiet) :
    Bracketed (trace ++ more) := by
  induction more generalizing trace with
  | nil => rwa [List.append_nil]
  | cons obs more ih =>
      rw [← List.singleton_append, ← List.append_assoc]
      exact ih (bracketed.quiet (quiet obs List.mem_cons_self))
        fun other member => quiet other (List.mem_cons_of_mem _ member)

theorem sends {names : Prop} {state after : State ρ} (bracketed : Bracketed state.trace)
    (sends : Sends names (fun type => type ≠ sChat) state after) : Bracketed after.trace := by
  obtain ⟨more, grown, quiet⟩ := sends.trace
  rw [grown]
  refine bracketed.grow fun obs member => ?_
  have sending := quiet obs member
  cases obs <;> trivial

theorem parse {rules : Rules ρ} (plain : rules.coalesce = false) {fd : Fd} {state after : State ρ}
    (parse : Parse rules fd state after) (bracketed : Bracketed state.trace) :
    Bracketed after.trace := by
  induction parse with
  | closing _ | more _ _ _ => exact bracketed
  | @oversize state _ _ _ _ =>
      have noted : Bracketed (state.emit (.oversize fd)).trace := bracketed.quiet trivial
      have doomed : Sends True (fun type => type ≠ sChat) _ ((state.emit (.oversize fd)).doom fd) :=
        State.doom_sends
      exact noted.sends doomed
  | @late state told _ client type payload rest found opened _ packet _ ih =>
      obtain ⟨body, grown, does⟩ := packet.does plain ⟨client, found, opened⟩
      have bracket := bracketed.packet ((told.clients fd).elim false (·.closing)) does
      refine ih ?_
      have same : ((told.noteHandled fd).setInput fd rest).trace =
          told.trace ++ [.handled fd ((told.clients fd).elim false (·.closing))] := rfl
      rw [same, grown]
      simpa using bracket
  | @early state told _ client type payload rest found opened _ packet _ ih =>
      obtain ⟨body, grown, does⟩ := packet.does plain
        ⟨{ client with input := rest }, by simp [State.setInput, found], opened⟩
      have bracket := bracketed.packet ((told.clients fd).elim false (·.closing)) does.of_input
      refine ih ?_
      have same : (told.noteHandled fd).trace =
          told.trace ++ [.handled fd ((told.clients fd).elim false (·.closing))] := rfl
      rw [same, grown]
      simpa [State.setInput] using bracket

end Bracketed

theorem bracketed_preserves {rules : Rules ρ} (plain : rules.coalesce = false) :
    PreservesTurns rules fun state => Bracketed state.trace where
  sends _ _ sends bracketed := bracketed.sends sends
  wake _ bracketed := bracketed.quiet trivial
  refused _ _ bracketed := bracketed.quiet trivial
  nothing _ _ bracketed := bracketed.quiet trivial
  turn _ _ _ _ _ _ _ parse bracketed :=
    (Bracketed.parse plain parse (bracketed.quiet trivial)).quiet trivial
  backlog state fd _ taken _ _ _ bracketed := by
    have noted : Bracketed (state.emit (.recv fd taken)).trace := bracketed.quiet trivial
    have doomed : Sends True (fun type => type ≠ sChat) _ ((state.emit (.recv fd taken)).doom fd) :=
      State.doom_sends
    exact noted.sends doomed
  insert _ _ _ bracketed := bracketed.quiet trivial
  reaped state _ fd _ _ departs bracketed := by
    have noted : Bracketed (state.emit (.departs state.clients fd)).trace :=
      bracketed.quiet trivial
    have told := noted.sends (departs.sends (by decide))
    exact told.quiet trivial
  lists _ _ _ _ bracketed := bracketed

theorem Runs.bracketed {rules : Rules ρ} (plain : rules.coalesce = false) {batches : List Batch}
    {after : State ρ} (runs : Runs rules batches State.init after) : Bracketed after.trace :=
  (bracketed_preserves plain).runs runs .nil

/-! ## Chats and frames -/

/-- Every chat of the trace is delivered before its packet ends. -/
def ChatsDelivered (trace : List (Obs ρ)) : Prop :=
  ∀ before clients fd payload rest, trace = before ++ .packet clients fd cChat payload :: rest →
    ∃ body closing after, rest = body ++ .handled fd closing :: after ∧
      (∀ obs ∈ body, obs.Sending fun _ => True) ∧ Delivered clients fd payload body

/-- Every `s_chat` frame of the trace is the line of the chat it is queued by. -/
def ChatsGenuine (trace : List (Obs ρ)) : Prop :=
  ∀ before other line after, trace = before ++ .append other sChat line :: after →
    ∃ early clients fd payload body client room,
      before = early ++ .packet clients fd cChat payload :: body ∧
      (∀ obs ∈ body, obs.Sending fun _ => True) ∧ clients fd = some client ∧
      client.room = some room ∧ line = chatLine client.nick payload ∧ Hears clients room line other

namespace Bracketed

variable {trace : List (Obs ρ)}

theorem delivered (bracketed : Bracketed trace) : ChatsDelivered trace := by
  induction bracketed with
  | nil =>
      intro before clients fd payload rest same
      cases before <;> cases same
  | @quiet _ obs _ calm ih =>
      intro before clients fd payload rest same
      rcases split_snoc same with ⟨_, rfl, _⟩ | ⟨shorter, rfl, trace_eq⟩
      · exact calm.elim
      · obtain ⟨body, closing, after, rfl, inside⟩ := ih before clients fd payload shorter trace_eq
        exact ⟨body, closing, after ++ [obs], by simp, inside⟩
  | @packet trace body clients fd type payload closing _ does ih =>
      intro before others other text rest same
      rw [List.append_assoc] at same
      rcases split_append same with ⟨inside, trace_eq, rfl⟩ | ⟨start, _, bracket⟩
      · obtain ⟨first, shut, after, rfl, whole⟩ := ih before others other text inside trace_eq
        exact ⟨first, shut, after ++ _, by rw [List.append_assoc, List.cons_append], whole⟩
      · cases start with
        | nil =>
            obtain ⟨packet_eq, rfl⟩ := List.cons.inj bracket
            obtain ⟨rfl, rfl, rfl, rfl⟩ := Obs.packet.inj packet_eq
            exact ⟨body, closing, [], rfl, does.1, does.2.1 rfl⟩
        | cons first start =>
            have body_eq : body ++ [.handled fd closing] =
                start ++ .packet others other cChat text :: rest := (List.cons.inj bracket).2
            have member : .packet others other cChat text ∈ body ++ [.handled fd closing] := by
              rw [body_eq]
              exact List.mem_append_right _ List.mem_cons_self
            rcases List.mem_append.mp member with inBody | wrong
            · exact (does.1 _ inBody).elim
            · simp at wrong

theorem genuine (bracketed : Bracketed trace) : ChatsGenuine trace := by
  induction bracketed with
  | nil =>
      intro before other line after same
      cases before <;> cases same
  | quiet _ calm ih =>
      intro before other line after same
      rcases split_snoc same with ⟨_, rfl, _⟩ | ⟨shorter, rfl, trace_eq⟩
      · exact absurd rfl calm
      · exact ih before other line shorter trace_eq
  | @packet trace body clients fd type payload closing _ does ih =>
      intro before other line after same
      rw [List.append_assoc] at same
      rcases split_append same with ⟨inside, trace_eq, _⟩ | ⟨start, rfl, bracket⟩
      · exact ih before other line inside trace_eq
      · obtain ⟨sending, chat, silent⟩ := does
        cases start with
        | nil => cases (List.cons.inj bracket).1
        | cons first start =>
            obtain ⟨rfl, body_eq⟩ := List.cons.inj bracket
            rcases split_snoc body_eq with ⟨_, wrong, _⟩ | ⟨shorter, _, rfl⟩
            · cases wrong
            have member : .append other sChat line ∈ start ++ .append other sChat line :: shorter :=
              List.mem_append_right _ List.mem_cons_self
            by_cases isChat : type = cChat
            · subst isChat
              obtain ⟨⟨client, found, _⟩, heard, others, alone⟩ := chat rfl
              have queued : (sChat, line) ∈
                  appendsTo other (start ++ .append other sChat line :: shorter) :=
                List.mem_filterMap.mpr ⟨_, member, by simp⟩
              cases inRoom : client.room with
              | none => exact absurd rfl ((alone client found inRoom).2 _ member)
              | some room =>
                  have hears : Hears clients room (chatLine client.nick payload) other := by
                    by_contra deaf
                    rw [others client room found inRoom other deaf] at queued
                    cases queued
                  rw [heard client room found inRoom other hears] at queued
                  obtain rfl : line = chatLine client.nick payload := by simpa using queued
                  exact ⟨trace, clients, fd, payload, start, client, room, rfl,
                    fun obs inStart => sending obs (List.mem_append_left _ inStart), found, inRoom,
                    rfl, hears⟩
            · exact absurd rfl (silent isChat _ member)

end Bracketed

/-! ## The order of chats -/

structure Log where
  chats : Nat := 0
  heard : List Nat := []

/-- Chats are numbered as they are handled; an `s_chat` frame is of the last of them. -/
def Log.note (fd : Fd) (log : Log) : Obs ρ → Log
  | .packet _ _ type _ => if type = cChat then { log with chats := log.chats + 1 } else log
  | .append other type _ =>
      if other = fd ∧ type = sChat then { log with heard := log.heard ++ [log.chats] } else log
  | _ => log

def chatLog (fd : Fd) (trace : List (Obs ρ)) : Log := trace.foldl (Log.note fd) {}

/-- Each chat at most once, and all of them in the order in which they were handled. -/
structure Log.Ordered (log : Log) : Prop where
  increases : log.heard.Pairwise (· < ·)
  bounded : ∀ chat ∈ log.heard, chat ≤ log.chats

def chatsTo (fd : Fd) (trace : List (Obs ρ)) : List (UInt16 × Bytes) :=
  (appendsTo fd trace).filter fun frame => frame.1 = sChat

theorem chatsTo_quiet {fd : Fd} {body : List (Obs ρ)}
    (quiet : ∀ obs ∈ body, obs.Sending fun type => type ≠ sChat) : chatsTo fd body = [] := by
  refine List.filter_eq_nil_iff.mpr fun frame member => ?_
  obtain ⟨obs, inBody, queued⟩ := List.mem_filterMap.mp member
  cases obs with
  | append other type payload =>
      have notChat : type ≠ sChat := quiet _ inBody
      simp only at queued
      split at queued
      · cases queued
        simpa using notChat
      · cases queued
  | _ => cases queued

theorem Delivered.once {clients : Fd → Option (Client ρ)} {fd : Fd} {payload : Bytes}
    {body : List (Obs ρ)} (delivered : Delivered clients fd payload body) (other : Fd) :
    (chatsTo other body).length ≤ 1 := by
  obtain ⟨⟨client, found, _⟩, heard, others, alone⟩ := delivered
  cases inRoom : client.room with
  | none => simp [chatsTo_quiet (alone client found inRoom).2]
  | some room =>
      by_cases hears : Hears clients room (chatLine client.nick payload) other
      · simp [chatsTo, heard client room found inRoom other hears]
      · simp [chatsTo, others client room found inRoom other hears]

theorem log_body (fd : Fd) (log : Log) {body : List (Obs ρ)}
    (sending : ∀ obs ∈ body, obs.Sending fun _ => True) :
    body.foldl (Log.note fd) log =
      { log with heard := log.heard ++ List.replicate (chatsTo fd body).length log.chats } := by
  induction body generalizing log with
  | nil => simp [chatsTo, appendsTo]
  | cons obs body ih =>
      have rest := fun other member => sending other (List.mem_cons_of_mem obs member)
      rw [List.foldl_cons, ih _ rest]
      have first := sending obs List.mem_cons_self
      cases obs with
      | append other type payload =>
          by_cases own : other = fd
          · by_cases chat : type = sChat
            · simp [Log.note, chatsTo, appendsTo, own, chat, List.replicate_succ]
            · simp [Log.note, chatsTo, appendsTo, own, chat]
          · simp [Log.note, chatsTo, appendsTo, own]
      | overCap | send | mask | doomed => simp [Log.note, chatsTo, appendsTo]
      | _ => exact first.elim

theorem Log.Ordered.next {log : Log} (ordered : log.Ordered) {count : Nat} (once : count ≤ 1) :
    ({ chats := log.chats + 1
       heard := log.heard ++ List.replicate count (log.chats + 1) } : Log).Ordered := by
  have fresh : ∀ chat ∈ log.heard, chat < log.chats + 1 := fun chat member =>
    Nat.lt_succ_of_le (ordered.bounded chat member)
  constructor
  · refine List.pairwise_append.mpr ⟨ordered.increases, ?_, fun chat member last inLast => ?_⟩
    · match count, once with
      | 0, _ => exact .nil
      | 1, _ => exact List.pairwise_singleton _ _
    · rw [List.eq_of_mem_replicate inLast]
      exact fresh chat member
  · intro chat member
    rcases List.mem_append.mp member with early | last
    · exact Nat.le_of_lt (fresh chat early)
    · exact Nat.le_of_eq (List.eq_of_mem_replicate last)

theorem Bracketed.ordered {trace : List (Obs ρ)} (bracketed : Bracketed trace) (fd : Fd) :
    (chatLog fd trace).Ordered := by
  induction bracketed with
  | nil => exact ⟨.nil, by simp [chatLog]⟩
  | @quiet trace obs _ calm ih =>
      have same : (chatLog fd trace).note fd obs = chatLog fd trace := by
        cases obs with
        | append other type payload =>
            have other : type ≠ sChat := calm
            simp [Log.note, other]
        | packet => exact calm.elim
        | _ => rfl
      rw [chatLog, List.foldl_append, List.foldl_cons, List.foldl_nil]
      change ((chatLog fd trace).note fd obs).Ordered
      rwa [same]
  | @packet trace body clients sender type payload closing _ does ih =>
      obtain ⟨sending, chat, silent⟩ := does
      rw [chatLog, List.append_assoc, List.foldl_append, List.cons_append, List.foldl_cons,
        List.foldl_append, log_body _ _ sending]
      change Log.Ordered { (chatLog fd trace).note fd (.packet clients sender type payload) with
        heard := _ }
      by_cases isChat : type = cChat
      · simp only [Log.note, if_pos isChat]
        exact ih.next ((chat isChat).once fd)
      · simp only [Log.note, if_neg isChat, chatsTo_quiet (silent isChat), List.length_nil,
          List.replicate_zero, List.append_nil]
        exact ih

/-- Two connections agree on the order of the chats that both heard. -/
theorem common_order {mine yours : List Nat} (mineUp : mine.Pairwise (· < ·))
    (yoursUp : yours.Pairwise (· < ·)) :
    mine.filter (· ∈ yours) = yours.filter (· ∈ mine) :=
  (mineUp.filter _).eq_of_mem_iff (yoursUp.filter _) fun chat => by simp [and_comm]

end NetEngine.Epoll
