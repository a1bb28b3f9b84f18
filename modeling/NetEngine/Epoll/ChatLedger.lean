import NetEngine.Epoll.ChatInbound
import NetEngine.Epoll.ChatRule
import NetEngine.Library.Machine

/-! What was received on a connection and what of it was handed on, read from the
trace. However the bytes are cut, the packets are the parse of them all. -/

set_option autoImplicit false

namespace NetEngine.Epoll

open Socket Machine

variable {ρ : Type}

/-- One connection since it was accepted. It stops after a packet that leaves it marked to
close. -/
structure Inbound where
  received : Bytes := []
  handed : List (UInt16 × Bytes) := []
  stopped : Bool := false
  oversize : Bool := false

def Inbound.note (fd : Fd) (inbound : Inbound) : Obs ρ → Inbound
  | .accepted other => if other = fd then {} else inbound
  | .recv other bytes =>
      if other = fd then { inbound with received := inbound.received ++ bytes } else inbound
  | .packet _ other type payload =>
      if other = fd then { inbound with handed := inbound.handed ++ [(type, payload)] } else inbound
  | .handled other closing => if other = fd then { inbound with stopped := closing } else inbound
  | .oversize other => if other = fd then { inbound with oversize := true } else inbound
  | _ => inbound

def inbound (fd : Fd) (trace : List (Obs ρ)) : Inbound := trace.foldl (Inbound.note fd) {}

namespace Inbound

def parse (inbound : Inbound) : Framing.Parsed := Framing.parse maxPayload inbound.received

/-- The packets are the frames of the stream, each once and in order, up to the first header
over the limit or to a packet that stopped the connection. -/
structure Parsed (inbound : Inbound) : Prop where
  handed : inbound.handed <+: inbound.parse.frames
  whole : inbound.stopped = false → inbound.handed = inbound.parse.frames
  oversize : inbound.oversize = true ↔ inbound.stopped = false ∧ inbound.parse.oversize = true

theorem Parsed.start : Parsed {} := by
  have empty : Framing.parse maxPayload [] = ⟨[], [], false⟩ := Framing.parse_more rfl
  refine ⟨?_, fun _ => ?_, ?_⟩ <;> simp [parse, empty]

end Inbound

@[simp] theorem inbound_snoc (fd : Fd) (trace : List (Obs ρ)) (obs : Obs ρ) :
    inbound fd (trace ++ [obs]) = (inbound fd trace).note fd obs := by
  simp [inbound]

theorem inbound_sending {types : UInt16 → Prop} {fd : Fd} {trace more : List (Obs ρ)}
    (sending : ∀ obs ∈ more, obs.Sending types) :
    inbound fd (trace ++ more) = inbound fd trace := by
  induction more generalizing trace with
  | nil => rw [List.append_nil]
  | cons obs more ih =>
      rw [← List.singleton_append, ← List.append_assoc,
        ih fun obs member => sending obs (List.mem_cons_of_mem _ member), inbound_snoc]
      have quiet := sending obs List.mem_cons_self
      cases obs <;> first | rfl | exact quiet.elim

/-! ## Events -/

/-- What an event says of the bytes, behind the trace so far. -/
def Obs.Framed (trace : List (Obs ρ)) : Obs ρ → Prop
  | .parsed fd buffered closing =>
      (inbound fd trace).Parsed ∧
        (closing = true ↔ (inbound fd trace).stopped = true ∨ (inbound fd trace).oversize = true) ∧
        (closing = false → buffered = (inbound fd trace).parse.rest.length ∧ buffered < maxFrame)
  | .packet clients fd _ _ =>
      (∃ client, clients fd = some client ∧ client.closing = false) ∧
        (inbound fd trace).stopped = false ∧ (inbound fd trace).oversize = false
  | .closed fd => (inbound fd trace).Parsed
  | _ => True

def Framed (trace : List (Obs ρ)) : Prop :=
  ∀ before obs after, trace = before ++ obs :: after → obs.Framed before

namespace Framed

variable {trace more : List (Obs ρ)}

theorem nil : Framed ([] : List (Obs ρ)) := fun before _ _ same => by cases before <;> cases same

theorem snoc (framed : Framed trace) {obs : Obs ρ} (fits : obs.Framed trace) :
    Framed (trace ++ [obs]) := by
  intro before other after same
  rcases split_snoc same with ⟨rfl, rfl, _⟩ | ⟨shorter, _, earlier⟩
  · exact fits
  · exact framed before other shorter earlier

theorem grow {types : UInt16 → Prop} (framed : Framed trace)
    (sending : ∀ obs ∈ more, obs.Sending types) : Framed (trace ++ more) := by
  induction more generalizing trace with
  | nil => rwa [List.append_nil]
  | cons obs more ih =>
      rw [← List.singleton_append, ← List.append_assoc]
      refine ih (framed.snoc ?_) fun obs member => sending obs (List.mem_cons_of_mem _ member)
      have quiet := sending obs List.mem_cons_self
      cases obs <;> trivial

theorem sends {names : Prop} {types : UInt16 → Prop} {state after : State ρ}
    (framed : Framed state.trace) (sends : Sends names types state after) : Framed after.trace := by
  obtain ⟨more, grown, sending⟩ := sends.trace
  rw [grown]
  exact framed.grow sending

end Framed

theorem Sends.inbound {names : Prop} {types : UInt16 → Prop} {state after : State ρ}
    (sends : Sends names types state after) (fd : Fd) :
    inbound fd after.trace = inbound fd state.trace := by
  obtain ⟨more, grown, sending⟩ := sends.trace
  rw [grown, inbound_sending sending]

/-! ## Between chunks -/

/-- One connection between two chunks: while it is served, all that it received is parsed,
and it holds what the parse left. -/
structure LedgerAt (state : State ρ) (fd : Fd) : Prop where
  parsed : (inbound fd state.trace).Parsed
  serving : ∀ client, state.clients fd = some client → client.closing = false →
    Framing.Consumed maxPayload (inbound fd state.trace).received (inbound fd state.trace).handed
        client.input ∧
      Framing.next maxPayload client.input = .more ∧ (inbound fd state.trace).stopped = false ∧
      (inbound fd state.trace).oversize = false

structure Ledger (state : State ρ) : Prop where
  framed : Framed state.trace
  each : ∀ fd, LedgerAt state fd

namespace LedgerAt

variable {state after : State ρ} {fd : Fd}

theorem moves (ledger : LedgerAt state fd)
    (same : inbound fd after.trace = inbound fd state.trace)
    (back : ∀ later, after.clients fd = some later → later.closing = false →
      ∃ client, state.clients fd = some client ∧ client.closing = false ∧
        later.input = client.input) : LedgerAt after fd := by
  refine ⟨same ▸ ledger.parsed, fun later found opened => ?_⟩
  obtain ⟨client, before, closing, input⟩ := back later found opened
  rw [same, input]
  exact ledger.serving client before closing

theorem congr (ledger : LedgerAt state fd)
    (same : inbound fd after.trace = inbound fd state.trace)
    (clients : after.clients fd = state.clients fd) : LedgerAt after fd :=
  ledger.moves same fun later found opened => ⟨later, clients ▸ found, opened, rfl⟩

theorem sends {names : Prop} {types : UInt16 → Prop} (ledger : LedgerAt state fd)
    (sends : Sends names types state after) : LedgerAt after fd := by
  refine ledger.moves (sends.inbound fd) fun later found opened => ?_
  obtain ⟨client, before, carries⟩ := sends.back found
  refine ⟨client, before, ?_, carries.input⟩
  cases closing : client.closing with
  | false => rfl
  | true => rw [carries.closing closing] at opened; cases opened

theorem emit (ledger : LedgerAt state fd) {obs : Obs ρ}
    (quiet : (inbound fd state.trace).note fd obs = inbound fd state.trace) :
    LedgerAt (state.emit obs) fd :=
  ledger.congr (by rw [State.emit_trace, inbound_snoc, quiet]) rfl

theorem note {other : Fd} (ledger : LedgerAt state fd) {obs : Obs ρ} (notes : obs.Notes other)
    (apart : fd ≠ other) : LedgerAt (state.emit obs) fd := by
  refine ledger.emit ?_
  cases obs with
  | recv _ _ | packet _ _ _ _ | handled _ _ | oversize _ | parsed _ _ _ =>
      simp only [Obs.Notes] at notes
      simp [Inbound.note, notes, apart.symm]
  | _ => exact notes.elim

theorem update {other : Fd} (ledger : LedgerAt state fd) (change : Client ρ → Client ρ)
    (apart : fd ≠ other) : LedgerAt (state.update other change) fd :=
  ledger.congr rfl (State.update_clients_ne change apart)

end LedgerAt

/-! ## Within a chunk -/

/-- The parser at work on one connection. -/
structure Parsing (fd : Fd) (state : State ρ) : Prop where
  framed : Framed state.trace
  others : ∀ other, other ≠ fd → LedgerAt state other
  own : ∃ client, state.clients fd = some client ∧
    Framing.Consumed maxPayload (inbound fd state.trace).received (inbound fd state.trace).handed
      client.input ∧
    (inbound fd state.trace).oversize = false ∧ (inbound fd state.trace).stopped = client.closing

/-- The parser when it returns. -/
structure Returned (fd : Fd) (state : State ρ) : Prop extends Ledger state where
  own : ∃ client, state.clients fd = some client ∧
    (client.closing = true ↔
      (inbound fd state.trace).stopped = true ∨ (inbound fd state.trace).oversize = true) ∧
    (client.closing = false → client.input = (inbound fd state.trace).parse.rest ∧
      client.input.length < maxFrame)

namespace Parsing

variable {fd : Fd} {state after : State ρ}

theorem receive (ledger : Ledger state) {client : Client ρ} (found : state.clients fd = some client)
    (opened : client.closing = false) (chunk : Bytes) :
    Parsing fd (state.receive fd client chunk) := by
  obtain ⟨consumed, _, stopped, under⟩ := (ledger.each fd).serving client found opened
  refine ⟨ledger.framed.snoc trivial, fun other apart => ?_, { client with
    input := client.input ++ chunk }, ?_, ?_, ?_, ?_⟩
  · have noted : LedgerAt (state.emit (.recv fd chunk)) other :=
      (ledger.each other).note (show Obs.Notes fd (.recv fd chunk) from rfl) apart
    exact noted.update _ apart
  all_goals simp only [State.receive, State.setInput, State.update_trace, State.emit_trace,
    inbound_snoc, Inbound.note, if_true]
  · simp [found]
  · exact consumed.receive chunk
  · exact under
  · exact stopped.trans opened.symm

theorem hand (parsing : Parsing fd state) {client : Client ρ} {type : UInt16} {payload rest : Bytes}
    (found : state.clients fd = some client) (opened : client.closing = false)
    (next : Framing.next maxPayload client.input = .frame type payload rest) :
    Framed (state.emit (.packet state.clients fd type payload)).trace ∧
      (∀ other, other ≠ fd →
        LedgerAt (state.emit (.packet state.clients fd type payload)) other) ∧
      Framing.Consumed maxPayload
        (inbound fd (state.emit (.packet state.clients fd type payload)).trace).received
        (inbound fd (state.emit (.packet state.clients fd type payload)).trace).handed rest ∧
      (inbound fd (state.emit (.packet state.clients fd type payload)).trace).oversize = false := by
  obtain ⟨same, sameFound, consumed, under, stopped⟩ := parsing.own
  obtain rfl : client = same := Option.some.inj (found.symm.trans sameFound)
  refine ⟨parsing.framed.snoc ⟨⟨client, found, opened⟩, stopped.trans opened, under⟩,
    fun other apart => (parsing.others other apart).note
      (show Obs.Notes fd (.packet state.clients fd type payload) from rfl) apart, ?_, ?_⟩
  all_goals simp only [State.emit_trace, inbound_snoc, Inbound.note, if_true]
  · exact consumed.hand next
  · exact under

/-- Behind the handling of a packet, with the frame taken off the buffer. -/
theorem handled {before told : State ρ} {client : Client ρ} {rest : Bytes}
    (framed : Framed told.trace) (others : ∀ other, other ≠ fd → LedgerAt told other)
    (found : told.clients fd = some client)
    (consumed : Framing.Consumed maxPayload (inbound fd told.trace).received
      (inbound fd told.trace).handed rest)
    (under : (inbound fd told.trace).oversize = false)
    (same : before.trace = (told.noteHandled fd).trace)
    (clients : ∀ other, other ≠ fd → before.clients other = told.clients other)
    (own : before.clients fd = some { client with input := rest }) : Parsing fd before := by
  have noted : (told.noteHandled fd).trace = told.trace ++ [.handled fd client.closing] := by
    simp [State.noteHandled, found]
  rw [noted] at same
  refine ⟨same ▸ framed.snoc trivial, fun other apart => ?_, _, own, ?_, ?_, ?_⟩
  · refine (others other apart).congr ?_ (clients other apart)
    rw [same, inbound_snoc]
    simp [Inbound.note, apart.symm]
  all_goals simp only [same, inbound_snoc, Inbound.note, if_true]
  · exact consumed
  · exact under

theorem parse {rules : Rules ρ} (parse : Parse rules fd state after) (parsing : Parsing fd state) :
    Returned fd after := by
  induction parse with
  | @closing state shut =>
      obtain ⟨client, found, consumed, under, stopped⟩ := parsing.own
      have closing : client.closing = true := by simpa [State.open_iff found] using shut
      have parsed : (inbound fd state.trace).Parsed := by
        refine ⟨consumed.handed_prefix, fun going => ?_, ?_⟩
        · rw [stopped, closing] at going
          cases going
        · simp [under, stopped, closing]
      refine ⟨⟨parsing.framed, fun other => ?_⟩, client, found, ?_, fun opened => ?_⟩
      · by_cases own : other = fd
        · subst own
          exact ⟨parsed, fun same sameFound opened =>
            absurd ⟨same, sameFound, opened⟩ shut⟩
        · exact parsing.others other own
      · simp [stopped, closing]
      · rw [closing] at opened
        cases opened
  | @more state client found opened next =>
      obtain ⟨same, sameFound, consumed, under, stopped⟩ := parsing.own
      obtain rfl : client = same := Option.some.inj (found.symm.trans sameFound)
      have whole : (inbound fd state.trace).parse =
          ⟨(inbound fd state.trace).handed, client.input, false⟩ := consumed.parse_of_more next
      rw [opened] at stopped
      have parsed : (inbound fd state.trace).Parsed := by
        refine ⟨consumed.handed_prefix, fun _ => ?_, ?_⟩
        · rw [whole]
        · simp [whole, under]
      refine ⟨⟨parsing.framed, fun other => ?_⟩, client, found, ?_, fun _ => ?_⟩
      · by_cases own : other = fd
        · subst own
          refine ⟨parsed, fun again againFound _ => ?_⟩
          obtain rfl : client = again := Option.some.inj (found.symm.trans againFound)
          exact ⟨consumed, next, stopped, under⟩
        · exact parsing.others other own
      · simp [stopped, under, opened]
      · exact ⟨by rw [whole], Framing.next_more_short next⟩
  | @oversize state client found opened next =>
      obtain ⟨same, sameFound, consumed, _, stopped⟩ := parsing.own
      obtain rfl : client = same := Option.some.inj (found.symm.trans sameFound)
      have dooms : Sends True (fun _ => True) (state.emit (.oversize fd))
        ((state.emit (.oversize fd)).doom fd) := State.doom_sends
      have now : inbound fd ((state.emit (.oversize fd)).doom fd).trace =
          { inbound fd state.trace with oversize := true } := by
        rw [dooms.inbound, State.emit_trace, inbound_snoc]
        simp [Inbound.note]
      have whole : (inbound fd state.trace).parse =
          ⟨(inbound fd state.trace).handed, client.input, true⟩ := consumed.parse_of_oversize next
      have left : ((state.emit (.oversize fd)).doom fd).clients fd =
          some { client with closing := true } := by
        rw [State.doom_client, State.emit_clients, found]
        rfl
      have framed : Framed (state.emit (.oversize fd)).trace := parsing.framed.snoc trivial
      rw [opened] at stopped
      have parsed : (inbound fd ((state.emit (.oversize fd)).doom fd).trace).Parsed := by
        rw [now]
        refine ⟨consumed.handed_prefix, fun _ => ?_, ?_⟩
        · exact (congrArg Framing.Parsed.frames whole).symm
        · exact iff_of_true rfl ⟨stopped, congrArg Framing.Parsed.oversize whole⟩
      refine ⟨⟨framed.sends dooms, fun other => ?_⟩, _, left, ?_, fun serving => ?_⟩
      · by_cases own : other = fd
        · subst own
          refine ⟨parsed, fun again againFound serving => ?_⟩
          obtain rfl := Option.some.inj (left.symm.trans againFound)
          cases serving
        · have noted : LedgerAt (state.emit (.oversize fd)) other :=
            (parsing.others other own).note (show Obs.Notes fd (.oversize fd) from rfl) own
          exact noted.sends dooms
      · simp [now]
      · cases serving
  | @late state told _ client type payload rest found opened next packet _ ih =>
      obtain ⟨framed, others, consumed, under⟩ := parsing.hand found opened next
      have sends : Sends False (fun _ => True) _ told := packet.sends trivial fun _ => trivial
      obtain ⟨later, laterFound, _⟩ := sends.present fd client found
      rw [← sends.inbound fd] at consumed under
      refine ih (.handled (framed.sends sends) (fun other apart => (others other apart).sends sends)
        laterFound consumed under rfl (fun other apart => ?_) ?_)
      · exact State.update_clients_ne _ apart
      · simp [State.setInput, State.noteHandled, laterFound]
  | @early state told _ client type payload rest found opened next packet _ ih =>
      obtain ⟨framed, others, consumed, under⟩ := parsing.hand found opened next
      have sends : Sends False (fun _ => True) _ told := packet.sends trivial fun _ => trivial
      have taken : ((state.emit (.packet state.clients fd type payload)).setInput fd rest).clients fd =
          some { client with input := rest } := by
        simp [State.setInput, found]
      obtain ⟨later, laterFound, carries⟩ := sends.present fd _ taken
      have kept : Framed
          ((state.emit (.packet state.clients fd type payload)).setInput fd rest).trace := framed
      have same := sends.inbound fd
      rw [State.setInput, State.update_trace] at same
      rw [← same] at consumed under
      refine ih (.handled (kept.sends sends)
        (fun other apart => ((others other apart).update _ apart).sends sends)
        laterFound consumed under rfl (fun _ _ => rfl) ?_)
      have input : later.input = rest := carries.input
      rw [← input]
      exact laterFound

end Parsing

namespace Ledger

variable {fd : Fd} {state after : State ρ}

theorem init : Ledger (State.init : State ρ) :=
  ⟨.nil, fun _ => ⟨.start, fun _ found => by cases found⟩⟩

theorem sends {names : Prop} {types : UInt16 → Prop} (ledger : Ledger state)
    (sends : Sends names types state after) : Ledger after :=
  ⟨ledger.framed.sends sends, fun fd => (ledger.each fd).sends sends⟩

theorem quiet (ledger : Ledger state) {obs : Obs ρ} (fits : obs.Framed state.trace)
    (same : ∀ fd, (inbound fd state.trace).note fd obs = inbound fd state.trace) :
    Ledger (state.emit obs) :=
  ⟨ledger.framed.snoc fits, fun fd => (ledger.each fd).emit (same fd)⟩

theorem turn {rules : Rules ρ} (ledger : Ledger state) {client : Client ρ} {chunk : Bytes}
    (found : state.clients fd = some client) (opened : client.closing = false)
    (parse : Parse rules fd (state.receive fd client chunk) after) : Ledger (after.noteParsed fd) := by
  obtain ⟨ledger, own⟩ := Parsing.parse parse (.receive ledger found opened chunk)
  obtain ⟨later, laterFound, closing, rest⟩ := own
  refine ledger.quiet ?_ fun _ => rfl
  rw [laterFound]
  refine ⟨(ledger.each fd).parsed, closing, fun serving => ?_⟩
  obtain ⟨input, short⟩ := rest serving
  exact ⟨congrArg List.length input, short⟩

theorem insert (ledger : Ledger state) : Ledger (state.insert fd) := by
  have trace : (state.insert fd).trace = state.trace ++ [.accepted fd] := rfl
  refine ⟨trace ▸ ledger.framed.snoc trivial, fun other => ?_⟩
  by_cases own : other = fd
  · subst own
    have fresh : inbound other (state.insert other).trace = {} := by
      rw [trace, inbound_snoc]
      simp [Inbound.note]
    refine ⟨fresh ▸ .start, fun client found _ => ?_⟩
    simp only [State.insert, Function.update_self, Option.some.injEq] at found
    rw [fresh, ← found]
    exact ⟨.start, rfl, rfl, rfl⟩
  · refine (ledger.each other).congr ?_ ?_
    · rw [trace, inbound_snoc]
      simp [Inbound.note, Ne.symm own]
    · simp [State.insert, own]

theorem remove (ledger : Ledger state) : Ledger (state.remove fd) := by
  have trace : (state.remove fd).trace = state.trace ++ [.closed fd] := rfl
  refine ⟨trace ▸ ledger.framed.snoc (ledger.each fd).parsed, fun other => ?_⟩
  refine (ledger.each other).moves (by rw [trace, inbound_snoc]; rfl) fun later found opened => ?_
  by_cases own : other = fd
  · simp [State.remove, own] at found
  · simp only [State.remove, Function.update_of_ne own] at found
    exact ⟨later, found, opened, rfl⟩

end Ledger

theorem ledger_preserves (rules : Rules ρ) : PreservesTurns rules (Ledger : State ρ → Prop) where
  sends _ _ sends ledger := ledger.sends sends
  wake _ ledger := ledger.quiet trivial fun _ => rfl
  refused _ _ ledger := ledger.quiet trivial fun _ => rfl
  nothing state fd ledger := by
    refine ledger.quiet trivial fun other => ?_
    simp [Inbound.note]
  turn _ _ _ _ _ found opened parse ledger := ledger.turn found opened parse
  backlog state fd client taken found opened long ledger := by
    obtain ⟨_, next, _⟩ := (ledger.each fd).serving client found opened
    exact absurd (Framing.next_more_short next) (Nat.not_lt.mpr long)
  insert _ _ _ ledger := ledger.insert
  reaped state _ fd _ _ departs ledger := by
    have noted : Ledger (state.emit (.departs state.clients fd)) :=
      ledger.quiet trivial fun _ => rfl
    have sends : Sends False (fun _ => True) _ _ := departs.sends trivial
    exact (noted.sends sends).remove
  lists _ _ _ _ ledger := ⟨ledger.framed, fun fd => ⟨(ledger.each fd).parsed, (ledger.each fd).serving⟩⟩

theorem Runs.ledger {rules : Rules ρ} {batches : List Batch} {after : State ρ}
    (runs : Runs rules batches State.init after) : Ledger after :=
  (ledger_preserves rules).runs runs .init

end NetEngine.Epoll
