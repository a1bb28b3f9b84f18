import NetEngine.Epoll.ChatRule

/-! The outbound stream of a connection: the frames queued for it since it was
accepted, of which the kernel has taken a prefix and the queue holds the rest. -/

set_option autoImplicit false

namespace NetEngine.Epoll

open Socket

variable {ρ : Type}

structure Stream where
  queued : Bytes := []
  sent : Bytes := []

def Stream.note (fd : Fd) (stream : Stream) : Obs ρ → Stream
  | .accepted other => if other = fd then {} else stream
  | .append other type payload =>
      if other = fd then { stream with queued := stream.queued ++ Framing.encode type payload }
      else stream
  | .send other sent _ =>
      if other = fd then { stream with sent := stream.sent ++ sent } else stream
  | _ => stream

/-- The stream of the connection that was last accepted under a descriptor. -/
def stream (fd : Fd) (trace : List (Obs ρ)) : Stream := trace.foldl (Stream.note fd) {}

@[simp] theorem stream_snoc (fd : Fd) (trace : List (Obs ρ)) (obs : Obs ρ) :
    stream fd (trace ++ [obs]) = (stream fd trace).note fd obs := by
  simp [stream]

theorem stream_append_about {fd other : Fd} {trace more : List (Obs ρ)}
    (about : ∀ obs ∈ more, obs.About fd) (apart : other ≠ fd) :
    stream other (trace ++ more) = stream other trace := by
  induction more generalizing trace with
  | nil => rw [List.append_nil]
  | cons obs more ih =>
      rw [← List.singleton_append, ← List.append_assoc,
        ih fun obs member => about obs (List.mem_cons_of_mem _ member), stream_snoc]
      have own := about obs List.mem_cons_self
      cases obs with
      | accepted another | append another _ _ | send another _ _ =>
          have same : another = fd := own
          simp [Stream.note, same, Ne.symm apart]
      | _ => rfl

/-- What was queued was sent, or it is still in the queue. -/
def Streamed (state : State ρ) (fd : Fd) : Prop :=
  ∃ rest, (stream fd state.trace).queued = (stream fd state.trace).sent ++ rest ∧
    ∀ client, state.clients fd = some client → client.pending = rest

def Streams (state : State ρ) : Prop := ∀ fd, Streamed state fd

namespace Streams

variable {state after : State ρ} {fd : Fd}

theorem step (streams : Streams state) (only : Only fd state after) (own : Streamed after fd) :
    Streams after := by
  obtain ⟨more, grown, about⟩ := only.trace
  intro other
  by_cases same : other = fd
  · exact same ▸ own
  · unfold Streamed
    rw [grown, stream_append_about about same, only.clients other same]
    exact streams other

theorem update (streams : Streams state) {change : Client ρ → Client ρ}
    (pending : ∀ client : Client ρ, (change client).pending = client.pending) :
    Streams (state.update fd change) := by
  refine streams.step (State.update_only change) ?_
  obtain ⟨rest, whole, left⟩ := streams fd
  refine ⟨rest, whole, fun later found => ?_⟩
  rw [State.update_clients, Option.map_eq_some_iff] at found
  obtain ⟨client, before, rfl⟩ := found
  exact (pending client).trans (left client before)

theorem emit (streams : Streams state) (obs : Obs ρ)
    (idle : ∀ fd, ∀ stream : Stream, stream.note fd obs = stream) : Streams (state.emit obs) := by
  intro fd
  unfold Streamed
  rw [State.emit_trace, stream_snoc, idle]
  exact streams fd

theorem doom (streams : Streams state) : Streams (state.doom fd) := by
  by_cases opened : state.Open fd
  · obtain ⟨client, found, closing⟩ := opened
    rw [State.doom_open found closing]
    have marked : Streams (state.update fd fun client => { client with closing := true }) :=
      streams.update fun _ => rfl
    exact marked.emit (.doomed fd) fun _ _ => rfl
  · rwa [State.doom_not_open opened]

theorem append (streams : Streams state) (type : UInt16) (payload : Bytes) :
    Streams (state.append fd type payload) := by
  refine streams.step State.append_only ?_
  obtain ⟨rest, whole, left⟩ := streams fd
  refine ⟨rest ++ Framing.encode type payload, ?_, fun later found => ?_⟩
  · simp [State.append, Stream.note, whole]
  · rw [State.append_client, Option.map_eq_some_iff] at found
    obtain ⟨client, before, rfl⟩ := found
    rw [left client before]

theorem masked (streams : Streams state) {done : Bool} :
    Streams (state.updateEpollMask done fd) := by
  cases found : state.clients fd with
  | none => rwa [State.updateEpollMask, found]
  | some client =>
      rcases State.updateEpollMask_cases done found with ⟨_, same⟩ | ⟨_, same⟩
      · rwa [same]
      · rw [same]
        cases done with
        | false => exact streams.emit (.mask fd _ false) fun _ _ => rfl
        | true =>
            have armed : Streams (state.update fd fun other =>
                { other with armed := decide (client.pending ≠ []) }) :=
              streams.update fun _ => rfl
            exact armed.emit (.mask fd _ true) fun _ _ => rfl

theorem sent (streams : Streams state) {client : Client ρ} (found : state.clients fd = some client)
    (answers : List SendAnswer) : Streams (state.sent fd (sendLoop client.pending answers)) := by
  refine streams.step State.sent_only ?_
  obtain ⟨rest, whole, left⟩ := streams fd
  refine ⟨(sendLoop client.pending answers).rest, ?_, fun later laterFound => ?_⟩
  · simp only [State.sent, State.emit_trace, State.update_trace, stream_snoc, Stream.note,
      if_true, List.append_assoc, sendLoop_conserves, whole, left client found]
  · simp only [State.sent, State.emit_clients, State.update_clients, found, Option.map_some,
      Option.some.injEq] at laterFound
    exact laterFound ▸ rfl

theorem flush (streams : Streams state) (answers : List SendAnswer) (done : Bool) :
    Streams (state.flushSend answers done fd) := by
  cases found : state.clients fd with
  | none => rwa [State.flushSend_absent found]
  | some client =>
      have sent := streams.sent found answers
      rcases State.flushSend_cases answers done found with ⟨_, same⟩ | ⟨_, _, same⟩ | ⟨_, _, same⟩
      · rw [same]
        exact streams.masked
      · rw [same]
        exact sent.doom
      · rw [same]
        exact sent.masked

theorem remove (streams : Streams state) : Streams (state.remove fd) := by
  obtain ⟨rest, whole, _⟩ := streams fd
  exact streams.step State.remove_only
    ⟨rest, by simpa [State.remove, Stream.note] using whole, by simp [State.remove]⟩

theorem init : Streams (State.init : State ρ) := fun _ => ⟨[], rfl, by simp [State.init]⟩

end Streams

theorem streams_events (rules : Rules ρ) : PreservesEvents rules (Streams : State ρ → Prop) where
  note state fd obs notes _ streams := by
    cases obs <;> first | exact notes.elim | exact streams.emit _ fun _ _ => rfl
  refused _ _ _ streams := streams.emit _ fun _ _ => rfl
  doom _ _ streams := streams.doom
  append _ _ type payload _ streams := streams.append type payload
  refuse _ fd payload _ _ streams :=
    (streams.emit (.overCap fd (headerSize + payload.length)) fun _ _ => rfl).doom
  flush := by
    rintro state _ fd ⟨answers, done, _, rfl⟩ streams
    exact streams.flush answers done
  mark state fd streams := by
    rcases State.markDirty_cases state fd with ⟨client, _, _, _, same⟩ | ⟨_, same⟩
    · have marked : Streams (state.update fd fun client => { client with dirty := true }) :=
        streams.update fun _ => rfl
      rw [same]
      exact marked
    · rwa [same]
  name _ _ _ _ streams := streams.update fun _ => rfl
  enter _ _ _ streams := streams.update fun _ => rfl
  input _ _ _ streams := streams.update fun _ => rfl
  insert state fd _ streams := by
    refine streams.step State.insert_only
      ⟨[], by simp [State.insert, Stream.note], fun client found => ?_⟩
    simp only [State.insert, Function.update_self, Option.some.injEq] at found
    exact found ▸ rfl
  stop _ streams := streams

theorem streams_preserves (rules : Rules ρ) : Preserves rules (Streams : State ρ → Prop) where
  toPreservesEvents := streams_events rules
  clean _ _ streams := streams.update fun _ => rfl
  flushed _ streams := streams
  departed _ _ _ _ found departs streams := by
    refine (streams_events rules).departed (fun _ _ _ streams => ?_) (fun _ _ _ streams => ?_)
      found departs streams
    · exact streams.emit _ fun _ _ => rfl
    · exact streams.remove
  reaped _ streams := streams

/-- In every run the kernel has taken a prefix of each stream, and the queue holds the rest. -/
theorem Runs.streams {rules : Rules ρ} {batches : List Batch} {state after : State ρ}
    (runs : Runs rules batches state after) (streams : Streams state) : Streams after := by
  induction runs with
  | nil | stop _ => exact streams
  | @cons state _ _ _ _ _ iterates _ ih =>
      have woken : Streams (state.emit .wake) := streams.emit .wake fun _ _ => rfl
      exact ih ((streams_preserves rules).iterates iterates woken)

/-! ## At any time -/

/-- Whatever has happened so far, the kernel has taken a prefix of each stream. -/
def Prefixed (trace : List (Obs ρ)) : Prop :=
  ∀ seen, seen <+: trace → ∀ fd, (stream fd seen).sent <+: (stream fd seen).queued

structure Throughout (state : State ρ) : Prop where
  streams : Streams state
  prefixed : Prefixed state.trace

theorem Streams.prefixed {state : State ρ} (streams : Streams state) (fd : Fd) :
    (stream fd state.trace).sent <+: (stream fd state.trace).queued := by
  obtain ⟨rest, whole, _⟩ := streams fd
  exact ⟨rest, whole.symm⟩

namespace Throughout

variable {state after : State ρ} {fd : Fd}

theorem init : Throughout (State.init : State ρ) := by
  refine ⟨.init, fun seen begins fd => ?_⟩
  rw [List.prefix_nil.mp begins]
  exact List.prefix_refl _

theorem still (always : Throughout state) (streams : Streams after)
    (same : after.trace = state.trace) : Throughout after :=
  ⟨streams, same ▸ always.prefixed⟩

theorem next (always : Throughout state) (streams : Streams after) {obs : Obs ρ}
    (grown : after.trace = state.trace ++ [obs]) : Throughout after := by
  refine ⟨streams, fun seen begins fd => ?_⟩
  rw [grown, List.prefix_concat_iff] at begins
  rcases begins with rfl | earlier
  · exact grown ▸ streams.prefixed fd
  · exact always.prefixed seen earlier fd

theorem doom (always : Throughout state) : Throughout (state.doom fd) := by
  by_cases opened : state.Open fd
  · obtain ⟨client, found, closing⟩ := opened
    exact always.next always.streams.doom (by rw [State.doom_open found closing]; rfl)
  · rwa [State.doom_not_open opened]

theorem masked (always : Throughout state) {done : Bool} :
    Throughout (state.updateEpollMask done fd) := by
  cases found : state.clients fd with
  | none => rwa [State.updateEpollMask, found]
  | some client =>
      rcases State.updateEpollMask_cases done found with ⟨_, same⟩ | ⟨_, same⟩
      · rwa [same]
      · have noted : (state.updateEpollMask done fd).trace =
            state.trace ++ [.mask fd (decide (client.pending ≠ [])) done] := by
          rw [same]
          cases done <;> rfl
        exact always.next always.streams.masked noted

theorem flush (always : Throughout state) (answers : List SendAnswer) (done : Bool) :
    Throughout (state.flushSend answers done fd) := by
  cases found : state.clients fd with
  | none => rwa [State.flushSend_absent found]
  | some client =>
      have sent : Throughout (state.sent fd (sendLoop client.pending answers)) :=
        always.next (always.streams.sent found answers) rfl
      rcases State.flushSend_cases answers done found with ⟨_, same⟩ | ⟨_, _, same⟩ | ⟨_, _, same⟩
      · rw [same]
        exact always.masked
      · rw [same]
        exact sent.doom
      · rw [same]
        exact sent.masked

end Throughout

theorem throughout_events (rules : Rules ρ) :
    PreservesEvents rules (Throughout : State ρ → Prop) where
  note state fd obs notes live always :=
    always.next ((streams_events rules).note state fd obs notes live always.streams) rfl
  refused state fd fresh always :=
    always.next ((streams_events rules).refused state fd fresh always.streams) rfl
  doom _ _ always := always.doom
  append _ _ type payload _ always := always.next (always.streams.append type payload) rfl
  refuse state fd payload _ _ always := by
    have noted : Throughout (state.emit (.overCap fd (headerSize + payload.length))) :=
      always.next (always.streams.emit _ fun _ _ => rfl) rfl
    exact noted.doom
  flush := by
    rintro state _ fd ⟨answers, done, _, rfl⟩ always
    exact always.flush answers done
  mark state fd always := by
    refine always.still ((streams_events rules).mark state fd always.streams) ?_
    rcases State.markDirty_cases state fd with ⟨_, _, _, _, same⟩ | ⟨_, same⟩
    · rw [same]
      rfl
    · rw [same]
  name state fd nick short always :=
    always.still ((streams_events rules).name state fd nick short always.streams) rfl
  enter state fd room always :=
    always.still ((streams_events rules).enter state fd room always.streams) rfl
  input state fd input always :=
    always.still ((streams_events rules).input state fd input always.streams) rfl
  insert state fd fresh always :=
    always.next ((streams_events rules).insert state fd fresh always.streams) rfl
  stop state always := always.still ((streams_events rules).stop state always.streams) rfl

theorem throughout_preserves (rules : Rules ρ) : Preserves rules (Throughout : State ρ → Prop) where
  toPreservesEvents := throughout_events rules
  clean state fd always :=
    always.still ((streams_preserves rules).clean state fd always.streams) rfl
  flushed state always := always.still ((streams_preserves rules).flushed state always.streams) rfl
  departed _ _ _ _ found departs always := by
    refine (throughout_events rules).departed (fun _ _ _ always => ?_) (fun _ fd _ always => ?_)
      found departs always
    · exact always.next (always.streams.emit _ fun _ _ => rfl) rfl
    · exact always.next always.streams.remove rfl
  reaped state always := always.still ((streams_preserves rules).reaped state always.streams) rfl

theorem Runs.throughout {rules : Rules ρ} {batches : List Batch} {state after : State ρ}
    (runs : Runs rules batches state after) (always : Throughout state) : Throughout after := by
  induction runs with
  | nil | stop _ => exact always
  | @cons state _ _ _ _ _ iterates _ ih =>
      have woken : Throughout (state.emit .wake) :=
        always.next (always.streams.emit .wake fun _ _ => rfl) rfl
      exact ih ((throughout_preserves rules).iterates iterates woken)

end NetEngine.Epoll
