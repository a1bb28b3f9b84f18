import NetEngine.Epoll.ChatRule

/-! The life of a connection, read from the trace: it is accepted, at most once
doomed and at most once closed, and nothing is done to it before or after. -/

set_option autoImplicit false

namespace NetEngine.Epoll

open Socket

variable {ρ : Type}

inductive Phase where
  | absent
  | serving
  | doomed
  deriving DecidableEq

/-- What an event means for the connection it is about; none where it must not happen. -/
def Phase.step : Phase → Obs ρ → Option Phase
  | phase, .wake => some phase
  | .absent, .accepted _ => some .serving
  | .absent, .refused _ => some .absent
  | .serving, .doomed _ => some .doomed
  | .serving, .closed _ | .doomed, .closed _ => some .absent
  | .absent, _ | _, .accepted _ | _, .refused _ | .doomed, .doomed _ => none
  | phase, .recv .. | phase, .packet .. | phase, .handled .. | phase, .oversize _
  | phase, .parsed .. | phase, .append .. | phase, .overCap .. | phase, .send .. | phase, .mask ..
  | phase, .departs .. => some phase

/-- Events that need a connection and leave its phase alone. -/
def Obs.Needs : Obs ρ → Prop
  | .recv .. | .packet .. | .handled .. | .oversize _ | .parsed .. | .append .. | .overCap ..
  | .send .. | .mask .. | .departs .. => True
  | _ => False

theorem Phase.step_needs {obs : Obs ρ} (needs : obs.Needs) {phase : Phase}
    (present : phase ≠ .absent) : phase.step obs = some phase := by
  cases phase with
  | absent => exact absurd rfl present
  | serving | doomed => cases obs <;> first | exact needs.elim | rfl

/-- The phase after one more event; events about other connections do not count. -/
def Phase.note (fd : Fd) (phase : Option Phase) (obs : Obs ρ) : Option Phase :=
  match obs with
  | .wake => phase
  | .accepted other | .refused other | .recv other _ | .packet _ other _ _ | .handled other _
  | .oversize other | .parsed other _ _ | .append other _ _ | .overCap other _ | .send other _ _
  | .mask other _ _ | .doomed other | .departs _ other | .closed other =>
      if other = fd then phase.bind (·.step obs) else phase

def life (fd : Fd) (trace : List (Obs ρ)) : Option Phase :=
  trace.foldl (Phase.note fd) (some .absent)

/-- No connection is done anything to out of its phase. -/
def Lawful (trace : List (Obs ρ)) : Prop := ∀ fd, (life fd trace).isSome

@[simp] theorem life_snoc (fd : Fd) (trace : List (Obs ρ)) (obs : Obs ρ) :
    life fd (trace ++ [obs]) = Phase.note fd (life fd trace) obs := by
  simp [life]

theorem Phase.note_own {fd : Fd} {obs : Obs ρ} (about : obs.About fd) (phase : Phase) :
    Phase.note fd (some phase) obs = phase.step obs := by
  cases obs with
  | wake => exact about.elim
  | _ =>
      have own := about
      simp only [Obs.About] at own
      simp [Phase.note, own]

theorem life_append_about {fd other : Fd} {trace more : List (Obs ρ)}
    (about : ∀ obs ∈ more, obs.About fd) (apart : other ≠ fd) :
    life other (trace ++ more) = life other trace := by
  induction more generalizing trace with
  | nil => rw [List.append_nil]
  | cons obs more ih =>
      rw [← List.singleton_append, ← List.append_assoc,
        ih fun obs member => about obs (List.mem_cons_of_mem _ member), life_snoc]
      have own := about obs List.mem_cons_self
      cases obs with
      | wake => exact own.elim
      | _ =>
          simp only [Obs.About] at own
          simp [Phase.note, own, Ne.symm apart]

/-- The phase that the table shows. -/
def State.phase (state : State ρ) (fd : Fd) : Phase :=
  match state.clients fd with
  | none => .absent
  | some client => if client.closing then .doomed else .serving

/-- The trace and the table tell the same lives. -/
def Lives (state : State ρ) : Prop := ∀ fd, life fd state.trace = some (state.phase fd)

theorem Lives.lawful {state : State ρ} (lives : Lives state) : Lawful state.trace := fun fd => by
  rw [lives fd]
  rfl

theorem State.phase_of {state : State ρ} {fd : Fd} {client : Client ρ}
    (found : state.clients fd = some client) :
    state.phase fd = if client.closing then .doomed else .serving := by
  rw [phase, found]

theorem State.phase_present {state : State ρ} {fd : Fd} (live : state.Live fd) :
    state.phase fd ≠ .absent := by
  obtain ⟨client, found⟩ := live
  rw [phase_of found]
  cases client.closing <;> simp

theorem State.phase_absent {state : State ρ} {fd : Fd} (fresh : ¬ state.Live fd) :
    state.phase fd = .absent := by
  unfold phase
  split
  · rfl
  next client found => exact absurd ⟨client, found⟩ fresh

namespace Lives

variable {state after : State ρ} {fd : Fd}

theorem init : Lives (State.init : State ρ) := fun _ => rfl

theorem step (lives : Lives state) (only : Only fd state after)
    (own : life fd after.trace = some (after.phase fd)) : Lives after := by
  intro other
  by_cases same : other = fd
  · exact same ▸ own
  · obtain ⟨more, grown, about⟩ := only.trace
    rw [grown, life_append_about about same, lives other, State.phase, State.phase,
      only.clients other same]

theorem update (lives : Lives state) {change : Client ρ → Client ρ}
    (same : ∀ client : Client ρ, (change client).closing = client.closing) :
    Lives (state.update fd change) := by
  refine lives.step (State.update_only change) ?_
  rw [State.update_trace, lives fd, State.phase, State.phase, State.update_clients]
  cases state.clients fd with
  | none => rfl
  | some client => simp only [Option.map_some, same]

theorem emit (lives : Lives state) (live : state.Live fd) (obs : Obs ρ) (about : obs.About fd)
    (needs : obs.Needs) : Lives (state.emit obs) := by
  refine lives.step (State.emit_only obs about) ?_
  rw [State.emit_trace, life_snoc, lives fd, Phase.note_own about]
  exact Phase.step_needs needs (State.phase_present live)

theorem update_emit (lives : Lives state) (live : state.Live fd) {change : Client ρ → Client ρ}
    (same : ∀ client : Client ρ, (change client).closing = client.closing) (obs : Obs ρ)
    (about : obs.About fd) (needs : obs.Needs) : Lives ((state.update fd change).emit obs) :=
  (lives.update same).emit (((State.update_sameFds state fd change).1 fd).mpr live) obs about needs

theorem doom (lives : Lives state) : Lives (state.doom fd) := by
  by_cases opened : state.Open fd
  · obtain ⟨client, found, closing⟩ := opened
    refine lives.step State.doom_only ?_
    have after : (state.doom fd).phase fd = .doomed := by
      rw [State.phase_of (by rw [State.doom_client, found]; rfl), if_pos rfl]
    rw [after, State.doom_open found closing]
    change life fd (state.trace ++ [.doomed fd]) = _
    rw [life_snoc, lives fd, State.phase_of found, closing]
    simp [Phase.note, Phase.step]
  · rwa [State.doom_not_open opened]

theorem masked (lives : Lives state) {done : Bool} : Lives (state.updateEpollMask done fd) := by
  cases found : state.clients fd with
  | none => rwa [State.updateEpollMask, found]
  | some client =>
      rcases State.updateEpollMask_cases done found with ⟨_, same⟩ | ⟨_, same⟩
      · rwa [same]
      · rw [same]
        generalize decide (client.pending ≠ []) = want
        cases done with
        | false => exact lives.emit ⟨client, found⟩ (.mask fd want false) rfl trivial
        | true =>
            have armed : Lives ((state.update fd fun other => { other with armed := want }).emit
                (.mask fd want true)) :=
              lives.update_emit ⟨client, found⟩ (by intro _; rfl) (.mask fd want true) rfl trivial
            exact armed

theorem flush (lives : Lives state) (answers : List SendAnswer) (done : Bool) :
    Lives (state.flushSend answers done fd) := by
  cases found : state.clients fd with
  | none => rwa [State.flushSend_absent found]
  | some client =>
      have sent : Lives (state.sent fd (sendLoop client.pending answers)) :=
        lives.update_emit ⟨client, found⟩ (by intro _; rfl) (.send fd _ _) rfl trivial
      rcases State.flushSend_cases answers done found with
        ⟨_, same⟩ | ⟨_, _, same⟩ | ⟨_, _, same⟩
      · rw [same]
        exact lives.masked
      · rw [same]
        exact sent.doom
      · rw [same]
        exact sent.masked

end Lives

theorem lives_events (rules : Rules ρ) : PreservesEvents rules (Lives : State ρ → Prop) where
  note state fd obs notes live lives := by
    have about : obs.About fd := by cases obs <;> first | exact notes.elim | exact notes
    exact lives.emit live obs about (by cases obs <;> first | exact notes.elim | trivial)
  refused state fd fresh lives := by
    refine lives.step (State.emit_only (.refused fd) rfl) ?_
    have absent : (state.emit (.refused fd)).phase fd = .absent := State.phase_absent fresh
    rw [State.emit_trace, life_snoc, lives fd, absent, State.phase_absent fresh]
    simp [Phase.note, Phase.step]
  doom _ _ lives := lives.doom
  append _ fd type payload takes lives := by
    obtain ⟨client, found, _⟩ := takes
    exact lives.update_emit ⟨client, found⟩ (by intro _; rfl) (.append fd type payload) rfl trivial
  refuse _ fd payload opened _ lives := by
    obtain ⟨client, found, _⟩ := opened
    exact (lives.emit ⟨client, found⟩ (.overCap fd _) rfl trivial).doom
  flush := by
    rintro state _ fd ⟨answers, done, _, rfl⟩ lives
    exact lives.flush answers done
  mark state fd lives := by
    rcases State.markDirty_cases state fd with ⟨client, _, _, _, same⟩ | ⟨_, same⟩
    · have marked : Lives (state.update fd fun client => { client with dirty := true }) :=
        lives.update fun _ => rfl
      rw [same]
      exact marked
    · rwa [same]
  name _ _ _ _ lives := lives.update fun _ => rfl
  enter _ _ _ lives := lives.update fun _ => rfl
  input _ _ _ lives := lives.update fun _ => rfl
  insert state fd fresh lives := by
    refine lives.step State.insert_only ?_
    have serving : (state.insert fd).phase fd = .serving := by simp [State.phase, State.insert]
    change life fd (state.trace ++ [.accepted fd]) = _
    rw [serving, life_snoc, lives fd, State.phase_absent fresh]
    simp [Phase.note, Phase.step]
  stop _ lives := lives

theorem lives_preserves (rules : Rules ρ) : Preserves rules (Lives : State ρ → Prop) where
  toPreservesEvents := lives_events rules
  clean _ _ lives := lives.update fun _ => rfl
  flushed _ lives := lives
  departed _ _ _ _ found departs lives := by
    refine (lives_events rules).departed (fun state fd live lives => ?_)
      (fun state fd live lives => ?_) found departs lives
    · exact lives.emit live (.departs state.clients fd) rfl trivial
    · refine lives.step State.remove_only ?_
      have absent : (state.remove fd).phase fd = .absent := by simp [State.phase, State.remove]
      change life fd (state.trace ++ [.closed fd]) = _
      rw [absent, life_snoc, lives fd]
      obtain ⟨client, found⟩ := live
      rw [State.phase_of found]
      cases client.closing <;> simp [Phase.note, Phase.step]
  reaped _ lives := lives

/-- In every run the trace tells lawful lives. -/
theorem Runs.lives {rules : Rules ρ} {batches : List Batch} {state after : State ρ}
    (runs : Runs rules batches state after) (lives : Lives state) : Lives after := by
  induction runs with
  | nil | stop _ => exact lives
  | @cons state _ _ _ _ _ iterates _ ih =>
      have woken : Lives (state.emit .wake) := fun fd => by
        rw [State.emit_trace, life_snoc]
        exact lives fd
      exact ih ((lives_preserves rules).iterates iterates woken)

/-! ## Events of one batch -/

/-- Still the connection that held the descriptor when the trace was `start`. -/
structure Continues (fd : Fd) (start : List (Obs ρ)) (state : State ρ) : Prop where
  live : state.Live fd
  trace : ∃ more, state.trace = start ++ more ∧
    ∀ obs ∈ more, obs ≠ .accepted fd ∧ obs ≠ .closed fd

namespace Continues

variable {fd : Fd} {start : List (Obs ρ)} {state after : State ρ}

theorem refl (live : state.Live fd) : Continues fd state.trace state :=
  ⟨live, [], (List.append_nil _).symm, by simp⟩

theorem emit (continues : Continues fd start state) {obs : Obs ρ}
    (other : obs ≠ .accepted fd ∧ obs ≠ .closed fd) : Continues fd start (state.emit obs) := by
  obtain ⟨live, more, grown, quiet⟩ := continues
  refine ⟨live, more ++ [obs], by rw [State.emit_trace, grown, List.append_assoc], ?_⟩
  intro each member
  rcases List.mem_append.mp member with before | last
  · exact quiet each before
  · exact List.mem_singleton.mp last ▸ other

theorem sends {names : Prop} {types : UInt16 → Prop} (continues : Continues fd start state)
    (sends : Sends names types state after) : Continues fd start after := by
  obtain ⟨live, more, grown, quiet⟩ := continues
  obtain ⟨late, lateGrown, sending⟩ := sends.trace
  refine ⟨(sends.live_iff fd).mpr live, more ++ late, ?_, ?_⟩
  · rw [lateGrown, grown, List.append_assoc]
  · intro obs member
    rcases List.mem_append.mp member with before | added
    · exact quiet obs before
    · have sent := sending obs added
      constructor
      · rintro rfl
        exact sent
      · rintro rfl
        exact sent

theorem update (continues : Continues fd start state) (other : Fd)
    (change : Client ρ → Client ρ) : Continues fd start (state.update other change) :=
  ⟨((State.update_sameFds state other change).1 fd).mpr continues.live, continues.trace⟩

end Continues

/-- Nothing but the tail of an iteration closes, so no event of a batch can meet a
connection that is younger than the batch. -/
theorem continues_events (rules : Rules ρ) (fd : Fd) (start : List (Obs ρ)) :
    PreservesEvents rules (Continues fd start) where
  note state other obs notes _ continues := by
    refine continues.emit ⟨?_, ?_⟩
    · rintro rfl
      exact notes
    · rintro rfl
      exact notes
  refused _ _ _ continues := continues.emit ⟨by simp, by simp⟩
  doom state other continues :=
    have sends : Sends True (fun _ => True) state (state.doom other) := State.doom_sends
    continues.sends sends
  append state other type payload _ continues :=
    have sends : Sends True (fun _ => True) state (state.append other type payload) :=
      State.append_sends trivial
    continues.sends sends
  refuse state other payload _ _ continues :=
    have sends : Sends True (fun _ => True) state (state.refuse other payload) :=
      State.refuse_sends
    continues.sends sends
  flush state after _ flushes continues :=
    have sends : Sends True (fun _ => True) state after := flushes.sends
    continues.sends sends
  mark state other continues :=
    have sends : Sends True (fun _ => True) state (state.markDirty other) := State.markDirty_sends
    continues.sends sends
  name _ other _ _ continues := continues.update other _
  enter _ other _ continues := continues.update other _
  input _ other _ continues := continues.update other _
  insert state other fresh continues := by
    have apart : fd ≠ other := by
      rintro rfl
      exact fresh continues.live
    have noted : Continues fd start (state.emit (.accepted other)) :=
      continues.emit ⟨by simp [Ne.symm apart], by simp⟩
    refine ⟨?_, noted.trace⟩
    obtain ⟨client, found⟩ := continues.live
    exact ⟨client, by simp [State.insert, apart, found]⟩
  stop _ continues := ⟨continues.live, continues.trace⟩

end NetEngine.Epoll
