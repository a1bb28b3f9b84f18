import NetEngine.Epoll.ChatRule
import NetEngine.Epoll.ChatSettled

/-! Who is closed by the send cap. A meter reads from the trace what is queued
for a connection, whether its socket has refused bytes since the queue was last
empty, and what was queued since there was last a chance to send. -/

set_option autoImplicit false

namespace NetEngine.Epoll

open Socket

variable {ρ : Type}

structure Meter where
  pending : Nat := 0
  refused : Bool := false
  fresh : Nat := 0

/-- A send loop that ends blocked was refused bytes; any other end of one that
leaves the connection open leaves an empty queue. -/
def Meter.note (fd : Fd) (meter : Meter) : Obs ρ → Meter
  | .wake => { meter with fresh := 0 }
  | .accepted other => if other = fd then {} else meter
  | .append other _ payload =>
      if other = fd then
        { meter with
          pending := meter.pending + (headerSize + payload.length)
          fresh := meter.fresh + (headerSize + payload.length) }
      else meter
  | .send other sent how =>
      if other = fd then ⟨meter.pending - sent.length, decide (how = .blocked), 0⟩ else meter
  | _ => meter

def meter (fd : Fd) (trace : List (Obs ρ)) : Meter := trace.foldl (Meter.note fd) {}

/-- Every connection that the cap closed had refused bytes, or more than the cap
was queued for it since it last had a chance to send. -/
def CapJustified (trace : List (Obs ρ)) : Prop :=
  ∀ before fd frame after, trace = before ++ .overCap fd frame :: after →
    (meter fd before).refused = true ∨ sendCap < (meter fd before).fresh + frame

@[simp] theorem meter_snoc (fd : Fd) (trace : List (Obs ρ)) (obs : Obs ρ) :
    meter fd (trace ++ [obs]) = (meter fd trace).note fd obs := by
  simp [meter]

theorem meter_refused_append {fd : Fd} {trace more : List (Obs ρ)}
    (keeps : ∀ obs ∈ more, ¬ obs.Resets fd) :
    (meter fd (trace ++ more)).refused = (meter fd trace).refused := by
  induction more generalizing trace with
  | nil => rw [List.append_nil]
  | cons obs more ih =>
      rw [← List.singleton_append, ← List.append_assoc,
        ih fun other member => keeps other (List.mem_cons_of_mem _ member), meter_snoc]
      have kept := keeps obs List.mem_cons_self
      cases obs with
      | accepted other | send other sent how =>
          have apart : other ≠ fd := kept
          simp [Meter.note, apart]
      | append other type payload =>
          by_cases own : other = fd <;> simp [Meter.note, own]
      | _ => rfl

/-- Refusals are a fact that every flush which leaves bytes brings about. -/
def refusals : Watch ρ where
  busy state fd := (meter fd state.trace).refused = true
  calm _ _ := True

theorem refusals_fair (rules : Rules ρ) : (refusals : Watch ρ).Fair rules := by
  constructor
  · rintro state after fd client later - - - ⟨more, grown, keeps⟩
    refine ⟨fun refused => ?_, id⟩
    change (meter fd after.trace).refused = true
    rw [grown, meter_refused_append keeps]
    exact refused
  · rintro state _ fd later ⟨answers, done, _, rfl⟩ found opened
    refine ⟨fun waiting => ?_, fun _ => trivial⟩
    have masks : ∀ {state : State ρ} {later : Client ρ},
        (state.updateEpollMask done fd).clients fd = some later →
        (∃ client, state.clients fd = some client ∧ later.pending = client.pending) ∧
          (meter fd (state.updateEpollMask done fd).trace).refused =
            (meter fd state.trace).refused := by
      intro state later found
      cases before : state.clients fd with
      | none =>
          rw [State.updateEpollMask, before] at found
          simp only [before] at found
          cases found
      | some client =>
          rcases State.updateEpollMask_cases done before with ⟨_, same⟩ | ⟨_, same⟩
          · rw [same] at found ⊢
            exact ⟨⟨later, before ▸ found, rfl⟩, rfl⟩
          · rw [same] at found ⊢
            cases done with
            | false =>
                refine ⟨⟨later, before ▸ found, rfl⟩, ?_⟩
                simp [State.masked, Meter.note]
            | true =>
                simp only [State.masked, if_true, State.emit_clients, State.update_clients, before,
                  Option.map_some, Option.some.injEq] at found
                refine ⟨⟨client, rfl, found ▸ rfl⟩, ?_⟩
                simp [State.masked, Meter.note]
    cases before : state.clients fd with
    | none =>
        rw [State.flushSend_absent before, before] at found
        cases found
    | some client =>
        rcases State.flushSend_cases answers done before with
          ⟨empty, same⟩ | ⟨_, _, same⟩ | ⟨_, whole, same⟩
        · rw [same] at found
          obtain ⟨⟨other, otherFound, pending⟩, _⟩ := masks found
          rw [before, Option.some.injEq] at otherFound
          subst otherFound
          exact absurd (pending.trans empty) waiting
        · rw [same, State.doom_client, Option.map_eq_some_iff] at found
          obtain ⟨_, _, rfl⟩ := found
          cases opened
        · rw [same] at found
          obtain ⟨⟨other, otherFound, pending⟩, refused⟩ := masks found
          change (meter fd (state.flushSend answers done fd).trace).refused = true
          rw [same, refused]
          simp only [State.sent, State.emit_clients, State.update_clients, before, Option.map_some,
            Option.some.injEq] at otherFound
          have left : (sendLoop client.pending answers).rest ≠ [] := by
            rw [pending, ← otherFound] at waiting
            exact waiting
          have blocked : (sendLoop client.pending answers).how = .blocked := by
            cases how : (sendLoop client.pending answers).how with
            | blocked => rfl
            | broken => exact absurd how whole
            | drained => exact absurd ((sendLoop_drained_iff _ _).mp how) left
          simp [State.sent, Meter.note, blocked]
  · exact fun _ _ => trivial

/-- The meters read the queues, and what was not refused is fresh. -/
structure Accounts (state : State ρ) : Prop where
  pending : ∀ fd client, state.clients fd = some client →
    client.pending.length = (meter fd state.trace).pending
  fresh : ∀ fd client, state.clients fd = some client → client.closing = false →
    (meter fd state.trace).refused = false →
    (meter fd state.trace).pending ≤ (meter fd state.trace).fresh
  justified : CapJustified state.trace

theorem CapJustified.snoc {trace : List (Obs ρ)} (justified : CapJustified trace) {obs : Obs ρ}
    (due : ∀ fd frame, obs = .overCap fd frame →
      (meter fd trace).refused = true ∨ sendCap < (meter fd trace).fresh + frame) :
    CapJustified (trace ++ [obs]) := by
  intro before fd frame after same
  rcases List.eq_nil_or_concat after with rfl | ⟨early, last, rfl⟩
  · obtain ⟨rfl, rest⟩ := List.append_inj' same rfl
    exact due fd frame (by simpa using rest)
  · rw [List.concat_eq_append, ← List.cons_append, ← List.append_assoc] at same
    obtain ⟨trace_eq, _⟩ := List.append_inj' same rfl
    exact justified before fd frame early trace_eq

theorem CapJustified.append {trace more : List (Obs ρ)} (justified : CapJustified trace)
    (none : ∀ obs ∈ more, ∀ fd frame, obs ≠ .overCap fd frame) : CapJustified (trace ++ more) := by
  induction more generalizing trace with
  | nil => rwa [List.append_nil]
  | cons obs more ih =>
      rw [← List.singleton_append, ← List.append_assoc]
      refine ih (justified.snoc fun fd frame same => ?_)
        fun other member => none other (List.mem_cons_of_mem _ member)
      exact absurd same (none obs List.mem_cons_self fd frame)

theorem meter_append_about {fd other : Fd} {trace more : List (Obs ρ)}
    (about : ∀ obs ∈ more, obs.About fd) (apart : other ≠ fd) :
    meter other (trace ++ more) = meter other trace := by
  induction more generalizing trace with
  | nil => rw [List.append_nil]
  | cons obs more ih =>
      rw [← List.singleton_append, ← List.append_assoc,
        ih fun obs member => about obs (List.mem_cons_of_mem _ member), meter_snoc]
      have own := about obs List.mem_cons_self
      cases obs with
      | wake => exact own.elim
      | accepted another | append another _ _ | send another _ _ =>
          have same : another = fd := own
          simp [Meter.note, same, Ne.symm apart]
      | _ => rfl

namespace Accounts

variable {state after : State ρ} {fd : Fd}

/-- What is due to one connection. -/
def Balanced (state : State ρ) (fd : Fd) (client : Client ρ) : Prop :=
  client.pending.length = (meter fd state.trace).pending ∧
    (client.closing = false → (meter fd state.trace).refused = false →
      (meter fd state.trace).pending ≤ (meter fd state.trace).fresh)

theorem balanced (accounts : Accounts state) {client : Client ρ}
    (found : state.clients fd = some client) : Balanced state fd client :=
  ⟨accounts.pending fd client found, accounts.fresh fd client found⟩

theorem step (accounts : Accounts state) (only : Only fd state after)
    (justified : CapJustified after.trace)
    (own : ∀ later, after.clients fd = some later → Balanced after fd later) : Accounts after := by
  obtain ⟨more, grown, about⟩ := only.trace
  have every : ∀ other later, after.clients other = some later → Balanced after other later := by
    intro other later found
    by_cases same : other = fd
    · exact same ▸ own later (same ▸ found)
    · have kept := accounts.balanced ((only.clients other same).symm.trans found)
      unfold Balanced at kept ⊢
      rwa [grown, meter_append_about about same]
  exact ⟨fun other later found => (every other later found).1,
    fun other later found => (every other later found).2, justified⟩

theorem update (accounts : Accounts state) {change : Client ρ → Client ρ}
    (pending : ∀ client : Client ρ, (change client).pending = client.pending)
    (closing : ∀ client : Client ρ, (change client).closing = false → client.closing = false) :
    Accounts (state.update fd change) := by
  refine accounts.step (State.update_only change) accounts.justified fun later found => ?_
  rw [State.update_clients, Option.map_eq_some_iff] at found
  obtain ⟨client, before, rfl⟩ := found
  obtain ⟨sized, due⟩ := accounts.balanced before
  exact ⟨(congrArg List.length (pending client)).trans sized, fun opened => due (closing client opened)⟩

/-- An event that neither moves a meter nor reports the cap. -/
theorem emit (accounts : Accounts state) (obs : Obs ρ)
    (idle : ∀ fd, ∀ meter : Meter, meter.note fd obs = meter)
    (none : ∀ fd frame, obs ≠ .overCap fd frame) : Accounts (state.emit obs) := by
  have kept : ∀ fd, meter fd (state.emit obs).trace = meter fd state.trace := fun fd => by
    rw [State.emit_trace, meter_snoc, idle]
  refine ⟨fun fd client found => ?_, fun fd client found => ?_, ?_⟩
  · rw [kept]
    exact accounts.pending fd client found
  · rw [kept]
    exact accounts.fresh fd client found
  · exact accounts.justified.append (by simpa using none)

theorem doom (accounts : Accounts state) : Accounts (state.doom fd) := by
  by_cases opened : state.Open fd
  · obtain ⟨client, found, closing⟩ := opened
    rw [State.doom_open found closing]
    have marked : Accounts (state.update fd fun client => { client with closing := true }) :=
      accounts.update (fun _ => rfl) fun _ wrong => Bool.noConfusion wrong
    have noted := marked.emit (.doomed fd) (fun _ _ => rfl) (by simp)
    exact ⟨noted.pending, noted.fresh, noted.justified⟩
  · rwa [State.doom_not_open opened]

theorem append (accounts : Accounts state) (type : UInt16) (payload : Bytes) :
    Accounts (state.append fd type payload) := by
  refine accounts.step State.append_only ?_ fun later found => ?_
  · exact accounts.justified.append (by simp)
  · rw [State.append_client, Option.map_eq_some_iff] at found
    obtain ⟨client, before, rfl⟩ := found
    obtain ⟨sized, due⟩ := accounts.balanced before
    unfold Balanced
    simp only [State.append, State.emit_trace, State.update_trace, meter_snoc, Meter.note, if_true,
      List.length_append, Framing.encode_length]
    refine ⟨by rw [sized]; rfl, fun opened fine => ?_⟩
    exact Nat.add_le_add_right (due opened fine) _

theorem refuse (accounts : Accounts state) (payload : Bytes) (opened : state.Open fd)
    (refuses : ¬ state.Takes fd payload) : Accounts (state.refuse fd payload) := by
  obtain ⟨client, found, closing⟩ := opened
  obtain ⟨sized, due⟩ := accounts.balanced found
  have beyond : sendCap < client.pending.length + (headerSize + payload.length) := by
    by_contra fits
    exact refuses ⟨client, found, closing, by omega⟩
  have reported : Accounts (state.emit (.overCap fd (headerSize + payload.length))) := by
    refine accounts.step (State.emit_only _ rfl) ?_ fun later laterFound => ?_
    · refine accounts.justified.snoc fun other frame same => ?_
      cases same
      cases refused : (meter fd state.trace).refused with
      | true => exact .inl rfl
      | false =>
          have fresh := due closing refused
          exact .inr (by omega)
    · have same := accounts.balanced laterFound
      unfold Balanced at same ⊢
      rwa [State.emit_trace, meter_snoc]
  exact reported.doom

theorem masked (accounts : Accounts state) {done : Bool} :
    Accounts (state.updateEpollMask done fd) := by
  cases found : state.clients fd with
  | none => rwa [State.updateEpollMask, found]
  | some client =>
      rcases State.updateEpollMask_cases done found with ⟨_, same⟩ | ⟨_, same⟩
      · rwa [same]
      · rw [same]
        cases done with
        | false => exact accounts.emit (.mask fd _ false) (fun _ _ => rfl) (by simp)
        | true =>
            have armed : Accounts (state.update fd fun other =>
                { other with armed := decide (client.pending ≠ []) }) :=
              accounts.update (fun _ => rfl) fun _ => id
            exact armed.emit (.mask fd _ true) (fun _ _ => rfl) (by simp)

theorem flush (accounts : Accounts state) (answers : List SendAnswer) (done : Bool) :
    Accounts (state.flushSend answers done fd) := by
  cases found : state.clients fd with
  | none => rwa [State.flushSend_absent found]
  | some client =>
      obtain ⟨sized, _⟩ := accounts.balanced found
      have conserved := congrArg List.length (sendLoop_conserves client.pending answers)
      rw [List.length_append, sized] at conserved
      have left : (meter fd state.trace).pending - (sendLoop client.pending answers).sent.length =
          (sendLoop client.pending answers).rest.length := by omega
      have justified : CapJustified (state.sent fd (sendLoop client.pending answers)).trace :=
        accounts.justified.append (by simp)
      have sent : ∀ {later : Client ρ},
          (state.sent fd (sendLoop client.pending answers)).clients fd = some later →
          later = { client with pending := (sendLoop client.pending answers).rest } := by
        intro later laterFound
        simpa [State.sent, found, eq_comm] using laterFound
      rcases State.flushSend_cases answers done found with ⟨_, same⟩ | ⟨_, _, same⟩ | ⟨_, whole, same⟩
      · rw [same]
        exact accounts.masked
      · -- the send loop broke, so nothing is due any more to a connection that is closed
        rw [same]
        have balanced : ∀ later,
            ((state.sent fd (sendLoop client.pending answers)).doom fd).clients fd = some later →
            later.closing = true ∧ later.pending = (sendLoop client.pending answers).rest := by
          intro later laterFound
          rw [State.doom_client, Option.map_eq_some_iff] at laterFound
          obtain ⟨before, beforeFound, rfl⟩ := laterFound
          exact ⟨rfl, congrArg Client.pending (sent beforeFound)⟩
        refine accounts.step (State.sent_only.trans State.doom_only) ?_ fun later laterFound => ?_
        · unfold State.doom
          split
          · exact justified
          · split
            · exact justified
            · exact justified.append (by simp)
        · obtain ⟨closing, rest⟩ := balanced later laterFound
          refine ⟨?_, fun opened => by rw [closing] at opened; cases opened⟩
          have read : meter fd ((state.sent fd (sendLoop client.pending answers)).doom fd).trace =
              meter fd (state.sent fd (sendLoop client.pending answers)).trace := by
            unfold State.doom
            split
            · rfl
            · split
              · rfl
              · exact meter_snoc ..
          rw [read, rest]
          simp [State.sent, Meter.note, left]
      · rw [same]
        refine Accounts.masked (accounts.step State.sent_only justified fun later laterFound => ?_)
        rw [sent laterFound]
        unfold Balanced
        simp only [State.sent, State.emit_trace, State.update_trace, meter_snoc, Meter.note, if_true,
          left, true_and]
        intro opened fine
        cases how : (sendLoop client.pending answers).how with
        | blocked => simp [how] at fine
        | broken => exact absurd how whole
        | drained => simp [(sendLoop_drained_iff _ _).mp how]

theorem init : Accounts (State.init : State ρ) := by
  refine ⟨by simp [State.init], by simp [State.init], fun before fd frame after same => ?_⟩
  cases before <;> cases same

/-- At a wait nothing is fresh any more: what is still queued was refused. -/
theorem wake {rules : Rules ρ} (accounts : Accounts state) (rested : Rested refusals rules state) :
    Accounts (state.emit .wake) := by
  refine ⟨fun fd client found => ?_, fun fd client found opened fine => ?_, ?_⟩
  · rw [State.emit_trace, meter_snoc]
    exact accounts.pending fd client found
  · rw [State.emit_trace, meter_snoc] at fine ⊢
    have empty : client.pending = [] := by
      by_contra waiting
      have refused : (meter fd state.trace).refused = true :=
        rested.kept.busy fd client found opened (rested.clean fd client found) List.not_mem_nil
          waiting
      have fine : (meter fd state.trace).refused = false := fine
      rw [refused] at fine
      cases fine
    have sized := accounts.pending fd client found
    rw [empty] at sized
    exact Nat.le_of_eq sized.symm
  · exact accounts.justified.append (by simp)

end Accounts

theorem accounts_events (rules : Rules ρ) :
    PreservesEvents rules (Accounts : State ρ → Prop) where
  note state fd obs notes _ accounts := by
    cases obs <;>
      first
      | exact notes.elim
      | exact accounts.emit _ (fun _ _ => rfl) (by simp)
  refused state fd _ accounts := accounts.emit _ (fun _ _ => rfl) (by simp)
  doom _ _ accounts := accounts.doom
  append _ _ type payload _ accounts := accounts.append type payload
  refuse _ _ payload opened refuses accounts := accounts.refuse payload opened refuses
  flush := by
    rintro state _ fd ⟨answers, done, _, rfl⟩ accounts
    exact accounts.flush answers done
  mark state fd accounts := by
    rcases State.markDirty_cases state fd with ⟨client, _, _, _, same⟩ | ⟨_, same⟩
    · have marked : Accounts (state.update fd fun client => { client with dirty := true }) :=
        accounts.update (fun _ => rfl) fun _ => id
      rw [same]
      exact ⟨marked.pending, marked.fresh, marked.justified⟩
    · rwa [same]
  name _ _ _ _ accounts := accounts.update (fun _ => rfl) fun _ => id
  enter _ _ _ accounts := accounts.update (fun _ => rfl) fun _ => id
  input _ _ _ accounts := accounts.update (fun _ => rfl) fun _ => id
  insert state fd _ accounts := by
    refine accounts.step State.insert_only (accounts.justified.append (by simp))
      fun later found => ?_
    simp only [State.insert, Function.update_self, Option.some.injEq] at found
    subst found
    simp [Accounts.Balanced, State.insert, Meter.note]
  stop _ accounts := ⟨accounts.pending, accounts.fresh, accounts.justified⟩

theorem accounts_preserves (rules : Rules ρ) : Preserves rules (Accounts : State ρ → Prop) where
  toPreservesEvents := accounts_events rules
  clean _ _ accounts := accounts.update (fun _ => rfl) fun _ => id
  flushed _ accounts := ⟨accounts.pending, accounts.fresh, accounts.justified⟩
  departed _ _ _ _ found departs accounts := by
    refine (accounts_events rules).departed (fun _ _ _ accounts => ?_) (fun state fd _ accounts => ?_)
      found departs accounts
    · exact accounts.emit _ (fun _ _ => rfl) (by simp)
    · refine accounts.step State.remove_only (accounts.justified.append (by simp))
        fun later found => ?_
      simp [State.remove] at found
  reaped _ accounts := ⟨accounts.pending, accounts.fresh, accounts.justified⟩

theorem Runs.accounts {rules : Rules ρ} {batches : List Batch} {state after : State ρ}
    (runs : Runs rules batches state after) (rested : Rested refusals rules state)
    (accounts : Accounts state) : Accounts after := by
  induction runs with
  | nil | stop _ => exact accounts
  | cons _ iterates _ ih =>
      exact ih (iterates.rested (refusals_fair rules) rested.kept)
        ((accounts_preserves rules).iterates iterates (accounts.wake rested))

/-- In every run, whoever the cap closes was refused bytes or was queued more
than the cap within one iteration, with no chance to send in between. -/
theorem Runs.cap_justified {rules : Rules ρ} {batches : List Batch} {after : State ρ}
    (runs : Runs rules batches State.init after) : CapJustified after.trace :=
  (runs.accounts .init .init).justified

end NetEngine.Epoll
