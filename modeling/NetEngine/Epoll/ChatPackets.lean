import NetEngine.Epoll.ChatDelivery

/-! What holds of every packet of a run: a fact about its bracket, from a fact
about the table that it is handled on. -/

set_option autoImplicit false

namespace NetEngine.Epoll

open Socket

variable {ρ : Type}

/-- The connections as a packet finds them. -/
abbrev Table (ρ : Type) := Fd → Option (Client ρ)

/-- An event that neither begins nor ends a packet. -/
def Obs.Outside : Obs ρ → Prop
  | .packet .. | .handled .. => False
  | _ => True

theorem Obs.Sending.outside {types : UInt16 → Prop} {obs : Obs ρ} (sending : obs.Sending types) :
    obs.Outside := by
  cases obs <;> trivial

/-- A trace in which every packet does what it should. -/
inductive Packets (does : Table ρ → Fd → UInt16 → Bytes → List (Obs ρ) → Prop) :
    List (Obs ρ) → Prop where
  | nil : Packets does []
  | aside {trace : List (Obs ρ)} {obs : Obs ρ} :
      Packets does trace → obs.Outside → Packets does (trace ++ [obs])
  | packet {trace body : List (Obs ρ)} {clients : Table ρ} {fd : Fd} {type : UInt16}
      {payload : Bytes} (closing : Bool) :
      Packets does trace → (∀ obs ∈ body, obs.Sending fun _ => True) →
      does clients fd type payload body →
      Packets does (trace ++ .packet clients fd type payload :: body ++ [.handled fd closing])

/-- What a fact about tables and one about packets need to hold throughout a run. -/
structure PacketRule (rules : Rules ρ) (holds : Table ρ → Prop)
    (does : Table ρ → Fd → UInt16 → Bytes → List (Obs ρ) → Prop) : Prop where
  start : holds fun _ => none
  sends : ∀ state after : State ρ, Sends True (fun _ => True) state after →
    holds state.clients → holds after.clients
  input : ∀ (state : State ρ) (fd : Fd) (input : Bytes), holds state.clients →
    holds (state.setInput fd input).clients
  insert : ∀ (state : State ρ) (fd : Fd), ¬ state.Live fd → holds state.clients →
    holds (state.insert fd).clients
  leave : ∀ (state : State ρ) (fd : Fd), holds state.clients →
    holds (state.enterRoom fd none).clients
  remove : ∀ (state : State ρ) (fd : Fd), holds state.clients → holds (state.remove fd).clients
  packet : ∀ (state after : State ρ) (fd : Fd) (type : UInt16) (payload : Bytes), state.Open fd →
    Packet rules fd payload type state after → holds state.clients → holds after.clients
  done : ∀ (state after : State ρ) (fd : Fd) (type : UInt16) (payload : Bytes)
    (body : List (Obs ρ)), state.Open fd → Packet rules fd payload type state after →
    after.trace = state.trace ++ body → holds state.clients →
    does state.clients fd type payload body
  unread : ∀ (state : State ρ) (fd : Fd) (rest : Bytes) (type : UInt16) (payload : Bytes)
    (body : List (Obs ρ)), does (state.setInput fd rest).clients fd type payload body →
    does state.clients fd type payload body

namespace Packets

variable {does : Table ρ → Fd → UInt16 → Bytes → List (Obs ρ) → Prop} {trace more : List (Obs ρ)}

theorem grow (packets : Packets does trace) (outside : ∀ obs ∈ more, obs.Outside) :
    Packets does (trace ++ more) := by
  induction more generalizing trace with
  | nil => rwa [List.append_nil]
  | cons obs more ih =>
      rw [← List.singleton_append, ← List.append_assoc]
      exact ih (packets.aside (outside obs List.mem_cons_self))
        fun other member => outside other (List.mem_cons_of_mem _ member)

theorem sends {names : Prop} {types : UInt16 → Prop} {state after : State ρ}
    (packets : Packets does state.trace) (sends : Sends names types state after) :
    Packets does after.trace := by
  obtain ⟨more, grown, sending⟩ := sends.trace
  rw [grown]
  exact packets.grow fun obs member => (sending obs member).outside

end Packets

namespace PacketRule

variable {rules : Rules ρ} {holds : Table ρ → Prop}
  {does : Table ρ → Fd → UInt16 → Bytes → List (Obs ρ) → Prop} {fd : Fd} {state after : State ρ}

theorem parse (rule : PacketRule rules holds does) (parse : Parse rules fd state after)
    (before : holds state.clients ∧ Packets does state.trace) :
    holds after.clients ∧ Packets does after.trace := by
  induction parse with
  | closing _ | more _ _ _ => exact before
  | @oversize state _ _ _ _ =>
      have doomed : Sends True (fun _ => True) (state.emit (.oversize fd))
        ((state.emit (.oversize fd)).doom fd) := State.doom_sends
      have noted : Packets does (state.emit (.oversize fd)).trace := before.2.aside trivial
      exact ⟨rule.sends _ _ doomed before.1, noted.sends doomed⟩
  | @late state told _ client type payload rest found opened _ packet _ ih =>
      have open_ : (state.emit (.packet state.clients fd type payload)).Open fd :=
        ⟨client, found, opened⟩
      have every : Sends False (fun _ => True) _ told := packet.sends trivial fun _ => trivial
      obtain ⟨body, grown, sending⟩ := every.trace
      have done := rule.done _ _ fd type payload body open_ packet grown before.1
      have bracket := before.2.packet ((told.clients fd).elim false (·.closing)) sending done
      have handled : Packets does ((told.noteHandled fd).setInput fd rest).trace := by
        have same : ((told.noteHandled fd).setInput fd rest).trace =
            told.trace ++ [.handled fd ((told.clients fd).elim false (·.closing))] := rfl
        rw [same, grown]
        simpa using bracket
      have kept : holds told.clients := rule.packet _ _ fd type payload open_ packet before.1
      exact ih ⟨rule.input (told.noteHandled fd) fd rest kept, handled⟩
  | @early state told _ client type payload rest found opened _ packet _ ih =>
      have open_ : ((state.emit (.packet state.clients fd type payload)).setInput fd rest).Open fd :=
        ⟨{ client with input := rest }, by simp [State.setInput, found], opened⟩
      have moved := rule.input (state.emit (.packet state.clients fd type payload)) fd rest before.1
      have every : Sends False (fun _ => True) _ told := packet.sends trivial fun _ => trivial
      obtain ⟨body, grown, sending⟩ := every.trace
      have done := rule.unread _ fd rest type payload body
        (rule.done _ _ fd type payload body open_ packet grown moved)
      have bracket := before.2.packet ((told.clients fd).elim false (·.closing)) sending done
      have handled : Packets does (told.noteHandled fd).trace := by
        have same : (told.noteHandled fd).trace =
            told.trace ++ [.handled fd ((told.clients fd).elim false (·.closing))] := rfl
        rw [same, grown]
        simpa [State.setInput] using bracket
      have kept : holds told.clients := rule.packet _ _ fd type payload open_ packet moved
      exact ih ⟨kept, handled⟩

theorem departed (rule : PacketRule rules holds does) {client : Client ρ} {told : State ρ}
    (departs : Depart rules fd client (state.emit (.departs state.clients fd)) told)
    (before : holds state.clients) : holds (told.remove fd).clients := by
  have left := rule.leave (state.emit (.departs state.clients fd)) fd before
  refine rule.remove told fd ?_
  cases departs with
  | silent _ => exact left
  | notice _ _ tells => exact rule.sends _ _ (tells.sends trivial) left

theorem preserves (rule : PacketRule rules holds does) :
    PreservesTurns rules fun state => holds state.clients ∧ Packets does state.trace where
  sends state after sends before :=
    ⟨rule.sends state after (sends.weaken id fun _ _ => trivial) before.1, before.2.sends sends⟩
  wake _ before := ⟨before.1, before.2.aside trivial⟩
  refused _ _ before := ⟨before.1, before.2.aside trivial⟩
  nothing _ _ before := ⟨before.1, before.2.aside trivial⟩
  turn state told fd client chunk _ _ parse before := by
    have received : Packets does (state.receive fd client chunk).trace := before.2.aside trivial
    obtain ⟨kept, parsed⟩ := rule.parse parse
      ⟨rule.input (state.emit (.recv fd chunk)) fd (client.input ++ chunk) before.1, received⟩
    exact ⟨kept, parsed.aside trivial⟩
  backlog state fd _ taken _ _ _ before := by
    have noted : Packets does (state.emit (.recv fd taken)).trace := before.2.aside trivial
    have doomed : Sends True (fun _ => True) _ ((state.emit (.recv fd taken)).doom fd) :=
      State.doom_sends
    exact ⟨rule.sends _ _ doomed before.1, noted.sends doomed⟩
  insert state fd fresh before := ⟨rule.insert state fd fresh before.1, before.2.aside trivial⟩
  reaped state told fd client _ departs before := by
    have noted : Packets does (state.emit (.departs state.clients fd)).trace :=
      before.2.aside trivial
    have sends : Sends False (fun _ => True) _ told := departs.sends trivial
    exact ⟨rule.departed departs before.1, (noted.sends sends).aside trivial⟩
  lists _ _ _ _ before := before

end PacketRule

/-- In a run every packet does what the rule says. -/
theorem Runs.packets {rules : Rules ρ} {holds : Table ρ → Prop}
    {does : Table ρ → Fd → UInt16 → Bytes → List (Obs ρ) → Prop} {batches : List Batch}
    {after : State ρ} (rule : PacketRule rules holds does)
    (runs : Runs rules batches State.init after) :
    holds after.clients ∧ Packets does after.trace :=
  rule.preserves.runs runs ⟨rule.start, .nil⟩

end NetEngine.Epoll
