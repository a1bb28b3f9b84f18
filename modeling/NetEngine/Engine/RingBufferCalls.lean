import NetEngine.Engine.RingBufferSpsc

/-! What the calls on a shared ring achieve: a call that reports so many bytes has published them,
or has released them to its caller, and a call that is refused leaves no trace. -/

set_option autoImplicit false

namespace NetEngine.RingBuffer.Spsc

open Region

/-! ## Refused calls -/

def Event.OfConsumer : Event → Prop
  | .receive _ | .consume => True
  | .call _ | .produce => False

/-- The consumer's steps do not look at the producer's program counter. -/
theorem step_with_producer (cap : Capacity) (config : Config) (producer : Producer)
    {event : Event} (reads : event.OfConsumer) :
    ({ config with producer } : Config).step cap event =
      { config.step cap event with producer } := by
  cases event with
  | receive op =>
      simp only [Config.step, Config.startConsumer]
      split <;> rfl
  | consume =>
      simp only [Config.step, Config.consumerStep]
      split <;> rfl
  | call | produce => exact absurd reads id

theorem run_with_producer (cap : Capacity) (config : Config) (producer : Producer)
    {schedule : List Event} (reads : ∀ event ∈ schedule, event.OfConsumer) :
    ({ config with producer } : Config).run cap schedule =
      { config.run cap schedule with producer } := by
  induction schedule generalizing config with
  | nil => rfl
  | cons event schedule ih =>
      simp only [Config.run, List.foldl_cons]
      rw [step_with_producer cap config producer (reads event List.mem_cons_self)]
      exact ih _ fun other member => reads other (List.mem_cons_of_mem _ member)

theorem run_producer_kept (cap : Capacity) (config : Config) {schedule : List Event}
    (reads : ∀ event ∈ schedule, event.OfConsumer) :
    (config.run cap schedule).producer = config.producer := by
  have same := run_with_producer cap config config.producer reads
  rw [show ({ config with producer := config.producer } : Config) = config from rfl] at same
  rw [same]

/-- The producer writes nothing of the consumer's. -/
theorem producerStep_consumer (cap : Capacity) (config : Config) :
    (config.producerStep cap).consumer = config.consumer := by
  simp only [Config.producerStep]
  split
  all_goals first | rfl | (split <;> rfl)

theorem producerStep_taken (cap : Capacity) (config : Config) :
    (config.producerStep cap).taken = config.taken := by
  simp only [Config.producerStep]
  split
  all_goals first | rfl | (split <;> rfl)

theorem consumerStep_producer (cap : Capacity) (config : Config) :
    (config.consumerStep cap).producer = config.producer := by
  simp only [Config.consumerStep]
  split <;> rfl

theorem consumerStep_committed (cap : Capacity) (config : Config) :
    (config.consumerStep cap).committed = config.committed := by
  simp only [Config.consumerStep]
  split <;> rfl

/-- A producer step that ends in a refusal changes the program counter only. -/
theorem producerStep_refused {cap : Capacity} {config : Config} {op : ProducerOp} {own : Cursor}
    (running : config.producer = .loaded op own)
    (refused : (config.producerStep cap).producer = .idle (some 0)) :
    config.producerStep cap = { config with producer := .idle (some 0) } := by
  cases op with
  | enqueue | enqueue2 =>
      simp only [Config.producerStep, running] at refused ⊢
      split at refused
      · cases refused
      · next full => rw [if_neg full]
  | direct => simp only [Config.producerStep, running, reduceCtorEq] at refused

theorem refused_call_invisible {cap : Capacity} {config : Config} {returned : Option Nat}
    (quiet : config.producer = .idle returned) (op : ProducerOp) {schedule : List Event}
    (reads : ∀ event ∈ schedule, event.OfConsumer)
    (refused : (config.run cap (.call op :: schedule ++ [.produce])).producer = .idle (some 0)) :
    { config.run cap (.call op :: schedule ++ [.produce]) with producer := config.producer } =
      config.run cap schedule := by
  have started : config.step cap (.call op) =
      { config with producer := .loaded op config.ring.enqueue } := by
    simp only [Config.step, Config.startProducer, quiet]
  have before : config.run cap (.call op :: schedule) =
      { config.run cap schedule with producer := .loaded op config.ring.enqueue } := by
    rw [← run_with_producer cap config _ reads, ← started]
    rfl
  rw [Config.run_append] at refused ⊢
  have last := producerStep_refused (by rw [before]) refused
  change { (config.run cap (.call op :: schedule)).producerStep cap with
    producer := config.producer } = _
  rw [last, before, ← run_producer_kept cap config reads]

theorem run_accepted_kept (cap : Capacity) (config : Config) {schedule : List Event}
    (reads : ∀ event ∈ schedule, event.OfConsumer) :
    (config.run cap schedule).accepted = config.accepted := by
  induction schedule generalizing config with
  | nil => rfl
  | cons event schedule ih =>
      refine (ih _ fun other member => reads other (List.mem_cons_of_mem _ member)).trans ?_
      cases event with
      | receive op =>
          simp only [Config.step, Config.startConsumer]
          split <;> rfl
      | consume =>
          simp only [Config.step, Config.consumerStep]
          split <;> rfl
      | call | produce => exact absurd (reads _ List.mem_cons_self) id

theorem run_committed_kept (cap : Capacity) (config : Config) {schedule : List Event}
    (reads : ∀ event ∈ schedule, event.OfConsumer) :
    (config.run cap schedule).committed = config.committed := by
  induction schedule generalizing config with
  | nil => rfl
  | cons event schedule ih =>
      refine (ih _ fun other member => reads other (List.mem_cons_of_mem _ member)).trans ?_
      cases event with
      | receive op =>
          simp only [Config.step, Config.startConsumer]
          split <;> rfl
      | consume => exact consumerStep_committed cap config
      | call | produce => exact absurd (reads _ List.mem_cons_self) id

/-- The bytes that a call offers. -/
def ProducerOp.data : ProducerOp → Bytes
  | .enqueue src => src
  | .enqueue2 a b => a ++ b
  | .direct fill => fill

/-- What a call may take of its bytes: `enqueue` and `enqueue2` all or none. -/
def ProducerOp.Takes : ProducerOp → Nat → Prop
  | .enqueue src, n => n = 0 ∨ n = src.length
  | .enqueue2 a b, n => n = 0 ∨ n = (a ++ b).length
  | .direct fill, n => n ≤ fill.length

/-- `enqueue` and `enqueue2` are refused exactly where the ring has no room for all their bytes
when they look at the consumer's cursor. -/
theorem loaded_refused_iff {cap : Capacity} {config : Config} (inv : Inv cap config)
    {op : ProducerOp} {own : Cursor} (running : config.producer = .loaded op own)
    (whole : ∀ fill, op ≠ .direct fill) (small : op.data.length < 2 ^ 63) :
    (config.producerStep cap).producer = .idle (some 0) ↔
      config.taken.length + cap.size < config.published.length + op.data.length := by
  have loaded : own = BitVec.ofNat 64 config.published.length := by
    simpa [ProducerOk, running] using inv.producer
  have room := fits_iff inv.taken_le inv.bounded small
  cases op with
  | direct fill => exact absurd rfl (whole fill)
  | enqueue src =>
      simp only [Config.producerStep, running, loaded, inv.dequeueCursor]
      simp only [ProducerOp.data] at room ⊢
      split
      next fit =>
        have free := room.mp fit
        exact ⟨fun answered => by simp at answered, fun full => by omega⟩
      next full =>
        have none := mt room.mpr full
        exact ⟨fun _ => by omega, fun _ => rfl⟩
  | enqueue2 a b =>
      simp only [Config.producerStep, running, loaded, inv.dequeueCursor]
      rw [cursor_add, ← List.length_append]
      simp only [ProducerOp.data] at room ⊢
      split
      next fit =>
        have free := room.mp fit
        exact ⟨fun answered => by simp at answered, fun full => by omega⟩
      next full =>
        have none := mt room.mpr full
        exact ⟨fun _ => by omega, fun _ => rfl⟩

theorem refused_iff_full {cap : Capacity} {config : Config} (inv : Inv cap config)
    (short : ∀ data ∈ config.accepted, data.length < 2 ^ 63) {returned : Option Nat}
    (quiet : config.producer = .idle returned) {op : ProducerOp}
    (whole : ∀ fill, op ≠ .direct fill) (small : op.data.length < 2 ^ 63) {schedule : List Event}
    (reads : ∀ event ∈ schedule, event.OfConsumer) :
    (config.run cap (.call op :: schedule ++ [.produce])).producer = .idle (some 0) ↔
      (config.run cap schedule).taken.length + cap.size <
        config.published.length + op.data.length := by
  have started : config.step cap (.call op) =
      { config with producer := .loaded op config.ring.enqueue } := by
    simp only [Config.step, Config.startProducer, quiet]
  have before : config.run cap (.call op :: schedule) =
      { config.run cap schedule with producer := .loaded op config.ring.enqueue } := by
    rw [← run_with_producer cap config _ reads, ← started]
    rfl
  have inv' : Inv cap (config.run cap (.call op :: schedule)) := by
    refine inv.run _ ?_
    rw [before]
    exact fun data member => short data (run_accepted_kept cap config reads ▸ member)
  have published : (config.run cap schedule).published = config.published :=
    congrArg List.flatten (run_committed_kept cap config reads)
  have refused := loaded_refused_iff inv' (congrArg Config.producer before) whole small
  rw [Config.run_append]
  refine refused.trans ?_
  rw [before, ← published]
  rfl

/-! ## Calls of the producer -/

/-- Where a call of the producer stands: nothing of its bytes is published before its last step,
and all that it reports after. -/
def CallProgress (op : ProducerOp) (before : List Bytes) (config : Config) : Prop :=
  match config.producer with
  | .loaded running _ => running = op ∧ config.committed = before
  | .pointing data | .copying _ data none | .committing data _ =>
      (∃ fill, op = .direct fill ∧ data <+: fill) ∧ config.committed = before
  | .copying _ data (some _) =>
      data = op.data ∧ op.Takes data.length ∧ config.committed = before
  | .idle (some n) =>
      op.Takes n ∧ config.committed.flatten = before.flatten ++ op.data.take n ∧
        (config.committed = before ∨ config.committed = before ++ [op.data.take n])
  | .idle none => False

theorem CallProgress.refused {op : ProducerOp} {before : List Bytes} {config : Config}
    (whole : ∀ fill, op ≠ .direct fill) (same : config.committed = before) :
    CallProgress op before { config with producer := .idle (some 0) } := by
  refine ⟨?_, by simp [same], .inl same⟩
  cases op with
  | enqueue | enqueue2 => exact .inl rfl
  | direct fill => exact absurd rfl (whole fill)

theorem CallProgress.published {op : ProducerOp} {before : List Bytes} {config : Config}
    {data : Bytes} (takes : op.Takes data.length) (first : data = op.data.take data.length)
    (same : config.committed = before) (ring : Ring) :
    CallProgress op before
      { config with ring, producer := .idle (some data.length), committed := config.committed ++ [data] } := by
  refine ⟨takes, ?_, .inr ?_⟩
  · rw [← first]
    simp [same]
  · rw [← first, same]

theorem CallProgress.step {cap : Capacity} {op : ProducerOp} {before : List Bytes} {config : Config}
    (progress : CallProgress op before config) {event : Event}
    (noCall : ∀ other, event ≠ .call other) : CallProgress op before (config.step cap event) := by
  cases event with
  | call other => exact absurd rfl (noCall other)
  | receive other =>
      simp only [Config.step, Config.startConsumer]
      split <;> exact progress
  | consume =>
      simp only [Config.step, Config.consumerStep]
      split <;> exact progress
  | produce =>
      unfold CallProgress at progress
      cases running : config.producer with
      | idle returned => simpa [Config.step, Config.producerStep, CallProgress, running] using progress
      | loaded current own =>
          obtain ⟨rfl, same⟩ : _ ∧ _ := by simpa [running] using progress
          cases current with
          | enqueue src =>
              simp only [Config.step, Config.producerStep, running]
              split
              · exact ⟨rfl, .inr rfl, same⟩
              · exact .refused (fun _ => by simp) same
          | enqueue2 a b =>
              simp only [Config.step, Config.producerStep, running]
              split
              · exact ⟨rfl, .inr rfl, same⟩
              · exact .refused (fun _ => by simp) same
          | direct fill =>
              simp only [Config.step, Config.producerStep, running]
              exact ⟨⟨fill, rfl, List.take_prefix ..⟩, same⟩
      | pointing data =>
          simp only [Config.step, Config.producerStep, running]
          simpa [running, CallProgress] using progress
      | copying copies data target =>
          cases target with
          | none =>
              cases copies with
              | nil =>
                  simp only [Config.step, Config.producerStep, running]
                  simpa [running, CallProgress] using progress
              | cons copy copies =>
                  simp only [Config.step, Config.producerStep, running]
                  simpa [running, CallProgress] using progress
          | some target =>
              obtain ⟨all, takes, same⟩ : _ ∧ _ ∧ _ := by simpa [running] using progress
              cases copies with
              | nil =>
                  simp only [Config.step, Config.producerStep, running]
                  exact .published takes (by rw [← all, List.take_length]) same _
              | cons copy copies =>
                  simp only [Config.step, Config.producerStep, running]
                  exact ⟨all, takes, same⟩
      | committing data own =>
          obtain ⟨⟨fill, rfl, first⟩, same⟩ : (∃ fill, _ ∧ _) ∧ _ := by simpa [running] using progress
          simp only [Config.step, Config.producerStep, running]
          have takes : (ProducerOp.direct fill).Takes data.length := first.length_le
          exact .published takes (List.prefix_iff_eq_take.mp first) same _

theorem CallProgress.run {cap : Capacity} {op : ProducerOp} {before : List Bytes} {config : Config}
    (progress : CallProgress op before config) {schedule : List Event}
    (noCall : ∀ event ∈ schedule, ∀ other, event ≠ .call other) :
    CallProgress op before (config.run cap schedule) := by
  induction schedule generalizing config with
  | nil => exact progress
  | cons event schedule ih =>
      exact ih (progress.step (noCall event List.mem_cons_self))
        fun other member => noCall other (List.mem_cons_of_mem _ member)

theorem CallProgress.start {cap : Capacity} {config : Config} {returned : Option Nat}
    (quiet : config.producer = .idle returned) (op : ProducerOp) :
    CallProgress op config.committed (config.step cap (.call op)) := by
  simp only [Config.step, Config.startProducer, quiet]
  exact ⟨rfl, rfl⟩

/-- A call that reports `n` bytes has published them behind what there was, and no others. -/
theorem call_publishes {cap : Capacity} {config : Config} {returned : Option Nat}
    (quiet : config.producer = .idle returned) (op : ProducerOp) {schedule : List Event}
    (noCall : ∀ event ∈ schedule, ∀ other, event ≠ .call other) {n : Nat}
    (reported : (config.run cap (.call op :: schedule)).producer = .idle (some n)) :
    op.Takes n ∧ (config.run cap (.call op :: schedule)).published =
      config.published ++ op.data.take n := by
  have progress : CallProgress op config.committed (config.run cap (.call op :: schedule)) :=
    (CallProgress.start quiet op).run noCall
  unfold CallProgress at progress
  rw [reported] at progress
  exact ⟨progress.1, progress.2.1⟩

theorem enqueue2_all_at_once {cap : Capacity} {config : Config} {returned : Option Nat}
    (quiet : config.producer = .idle returned) (a b : Bytes) {schedule : List Event}
    (noCall : ∀ event ∈ schedule, ∀ op, event ≠ .call op) :
    (config.run cap (.call (.enqueue2 a b) :: schedule)).published = config.published ∨
      (config.run cap (.call (.enqueue2 a b) :: schedule)).published =
        config.published ++ (a ++ b) := by
  have progress : CallProgress (.enqueue2 a b) config.committed
      (config.run cap (.call (.enqueue2 a b) :: schedule)) :=
    (CallProgress.start quiet _).run noCall
  unfold CallProgress at progress
  unfold Config.published
  split at progress
  · exact .inl (by rw [progress.2])
  · obtain ⟨⟨fill, wrong, _⟩, _⟩ := progress
    cases wrong
  · obtain ⟨⟨fill, wrong, _⟩, _⟩ := progress
    cases wrong
  · obtain ⟨⟨fill, wrong, _⟩, _⟩ := progress
    cases wrong
  · exact .inl (by rw [progress.2.2])
  · obtain ⟨takes, joined, _⟩ := progress
    rcases takes with none | all
    · exact .inl (by rw [joined, none]; simp)
    · exact .inr (by rw [joined, all]; exact congrArg _ (List.take_length ..))
  · exact absurd progress id

/-! ## Calls of the consumer -/

/-- The bytes that an answer takes out of the ring. -/
def Result.taken : Result → Bytes
  | .released data => data
  | .size _ | .peeked _ => []

/-- What a call may answer if so many bytes waited when it was made, and so many of them up to the
end of the storage. -/
def ConsumerOp.Answers (op : ConsumerOp) (waiting run : Nat) : Result → Prop
  | .size n => op = .usedSize ∧ waiting ≤ n
  | .peeked data => ∃ n, op = .peek n ∧ min n waiting ≤ data.length ∧ data.length ≤ n
  | .released data => ∃ n, (op = .dequeue n ∧ min n waiting ≤ data.length ∨
      op = .direct n ∧ min n (min waiting run) ≤ data.length) ∧ data.length ≤ n

/-- The answer that a call which copies `n` bytes is about to give. -/
def Release.answers (op : ConsumerOp) (waiting run : Nat) (n : Nat) : Release → Prop
  | .keep => ∃ limit, op = .peek limit ∧ min limit waiting ≤ n ∧ n ≤ limit
  | .publish _ => ∃ limit, op = .dequeue limit ∧ min limit waiting ≤ n ∧ n ≤ limit
  | .commit => ∃ limit, op = .direct limit ∧ min limit (min waiting run) ≤ n ∧ n ≤ limit

/-- Where a call of the consumer stands: nothing is taken before its last step, and all that it
hands over after. -/
def ReceiveProgress (cap : Capacity) (op : ConsumerOp) (taken : Bytes) (waiting : Nat)
    (config : Config) : Prop :=
  let run := cap.size - taken.length % cap.size
  match config.consumer with
  | .loaded running _ => running = op ∧ waiting ≤ config.waiting.length ∧ config.taken = taken
  | .pointing k => Release.commit.answers op waiting run k ∧ config.taken = taken
  | .copying n _ _ release => release.answers op waiting run n ∧ config.taken = taken
  | .committing got _ => Release.commit.answers op waiting run got.length ∧ config.taken = taken
  | .idle (some result) => op.Answers waiting run result ∧ config.taken = taken ++ result.taken
  | .idle none => False

theorem waiting_producer {cap : Capacity} {config : Config} :
    config.waiting.length ≤ (config.producerStep cap).waiting.length := by
  simp only [Config.waiting, producerStep_taken, List.length_drop]
  have grown : config.published.length ≤ (config.producerStep cap).published.length := by
    simp only [Config.published, Config.producerStep]
    split
    all_goals first
      | exact Nat.le_refl _
      | (split <;> exact Nat.le_refl _)
      | simp
  omega

theorem ReceiveProgress.step {cap : Capacity} {op : ConsumerOp} {taken : Bytes} {waiting : Nat}
    {config : Config} (progress : ReceiveProgress cap op taken waiting config)
    (inv : Inv cap config) {event : Event} (noCall : ∀ other, event ≠ .receive other) :
    ReceiveProgress cap op taken waiting (config.step cap event) := by
  cases event with
  | receive other => exact absurd rfl (noCall other)
  | call other =>
      simp only [Config.step, Config.startProducer]
      split <;> exact progress
  | produce =>
      unfold ReceiveProgress at progress ⊢
      simp only [Config.step, producerStep_consumer, producerStep_taken]
      cases running : config.consumer with
      | loaded current own =>
          obtain ⟨same, enough, kept⟩ : _ ∧ _ ∧ _ := by simpa [running] using progress
          exact ⟨same, enough.trans waiting_producer, kept⟩
      | idle result =>
          cases result with
          | none => simp only [running] at progress
          | some answer => simpa only [running] using progress
      | _ => simpa only [running] using progress
  | consume =>
      unfold ReceiveProgress at progress
      have valid := inv.consumer
      cases running : config.consumer with
      | idle result => simpa [Config.step, Config.consumerStep, ReceiveProgress, running] using progress
      | loaded current own =>
          obtain ⟨rfl, enough, rfl⟩ : _ ∧ _ ∧ _ := by simpa [running] using progress
          have loaded : own = BitVec.ofNat 64 config.taken.length := by
            simpa [ConsumerOk, running] using valid
          have visible := inv.visible
          subst loaded
          cases current with
          | usedSize =>
              simp only [Config.step, Config.consumerStep, running, visible]
              exact ⟨⟨rfl, enough⟩, (List.append_nil _).symm⟩
          | peek n =>
              simp only [Config.step, Config.consumerStep, running, visible]
              exact ⟨⟨n, rfl, by omega, by omega⟩, rfl⟩
          | dequeue n =>
              simp only [Config.step, Config.consumerStep, running, visible]
              exact ⟨⟨n, rfl, by omega, by omega⟩, rfl⟩
          | direct n =>
              simp only [Config.step, Config.consumerStep, running, directDequeueSize, visible,
                cellOf_ofNat]
              exact ⟨⟨n, rfl, by omega, by omega⟩, rfl⟩
      | pointing k =>
          simp only [Config.step, Config.consumerStep, running]
          simpa [running, ReceiveProgress] using progress
      | copying n regions got release =>
          obtain ⟨within, reads, aimed⟩ : _ ∧ _ ∧ _ := by simpa [ConsumerOk, running] using valid
          obtain ⟨answers, kept⟩ : _ ∧ _ := by simpa [running] using progress
          cases regions with
          | cons region regions =>
              simp only [Config.step, Config.consumerStep, running]
              exact ⟨answers, kept⟩
          | nil =>
              have length : got.length = n := by
                rw [reads.done, List.length_take, Nat.min_eq_left within]
              subst length
              cases release with
              | keep =>
                  simp only [Config.step, Config.consumerStep, running]
                  exact ⟨answers, kept.trans (List.append_nil _).symm⟩
              | publish target =>
                  obtain ⟨limit, asked, least, most⟩ := answers
                  simp only [Config.step, Config.consumerStep, running]
                  exact ⟨⟨limit, .inl ⟨asked, least⟩, most⟩, congrArg (· ++ got) kept⟩
              | commit =>
                  simp only [Config.step, Config.consumerStep, running]
                  exact ⟨answers, kept⟩
      | committing got own =>
          obtain ⟨answers, kept⟩ : _ ∧ _ := by simpa [running] using progress
          obtain ⟨limit, asked, least, most⟩ := answers
          simp only [Config.step, Config.consumerStep, running]
          exact ⟨⟨limit, .inr ⟨asked, least⟩, most⟩, congrArg (· ++ got) kept⟩

theorem Config.accepted_run (cap : Capacity) (config : Config) (schedule : List Event) :
    config.accepted <+: (config.run cap schedule).accepted := by
  induction schedule generalizing config with
  | nil => exact List.prefix_refl _
  | cons event schedule ih => exact (Config.accepted_step cap config event).trans (ih _)

theorem ReceiveProgress.run {cap : Capacity} {op : ConsumerOp} {taken : Bytes} {waiting : Nat}
    {config : Config} (progress : ReceiveProgress cap op taken waiting config)
    (inv : Inv cap config) {schedule : List Event}
    (short : ∀ data ∈ (config.run cap schedule).accepted, data.length < 2 ^ 63)
    (noCall : ∀ event ∈ schedule, ∀ other, event ≠ .receive other) :
    ReceiveProgress cap op taken waiting (config.run cap schedule) := by
  induction schedule generalizing config with
  | nil => exact progress
  | cons event schedule ih =>
      have later := Config.accepted_run cap (config.step cap event) schedule
      refine ih (progress.step inv (noCall event List.mem_cons_self))
        (inv.step event fun data member => short data (later.subset member)) short
        fun other member => noCall other (List.mem_cons_of_mem _ member)

/-- A call that hands bytes over has taken them out of the ring, and one that does not takes none. -/
theorem receive_takes {cap : Capacity} {config : Config} (inv : Inv cap config)
    {result : Option Result} (quiet : config.consumer = .idle result) (op : ConsumerOp)
    {schedule : List Event} (noCall : ∀ event ∈ schedule, ∀ other, event ≠ .receive other)
    (short : ∀ data ∈ (config.run cap (.receive op :: schedule)).accepted, data.length < 2 ^ 63)
    {answer : Result}
    (answered : (config.run cap (.receive op :: schedule)).consumer = .idle (some answer)) :
    op.Answers config.waiting.length (cap.size - config.taken.length % cap.size) answer ∧
      (config.run cap (.receive op :: schedule)).taken = config.taken ++ answer.taken := by
  have started : config.step cap (.receive op) =
      { config with consumer := .loaded op config.ring.dequeue } := by
    simp only [Config.step, Config.startConsumer, quiet]
  have start : ReceiveProgress cap op config.taken config.waiting.length
      (config.step cap (.receive op)) := by
    rw [started]
    exact ⟨rfl, Nat.le_refl _, rfl⟩
  have inv' : Inv cap (config.step cap (.receive op)) := by
    have later := Config.accepted_run cap (config.step cap (.receive op)) schedule
    exact inv.step _ fun data member => short data (later.subset member)
  have progress := start.run inv' short noCall
  unfold ReceiveProgress at progress
  change (Config.run cap (config.step cap (.receive op)) schedule).consumer = _ at answered
  rw [answered] at progress
  exact progress

/-- The ring is a bounded FIFO byte queue in every state of every schedule. The conjuncts are the
occupancy bounds, the order of what was taken, the integrity of what waits, what a `peek` shows,
what a call of the producer that reports `n` bytes has published, which calls are refused, the
invisibility of a refused call, the message boundaries that the published cursor keeps, and what a
call of the consumer hands over. -/
theorem ring_buffer_spsc_fifo (cap : Capacity) (schedule : List Event)
    (bounded : (Config.init.run cap schedule).transferred < 2 ^ 63) :
    let config := Config.init.run cap schedule
    (config.taken.length ≤ config.published.length ∧
      config.published.length ≤ config.taken.length + cap.size) ∧
    config.taken <+: config.published ∧
    (∀ position (bound : position < config.published.length), config.taken.length ≤ position →
      config.ring.buffer (position % cap.size) = config.published[position]) ∧
    (∀ data, config.consumer = .idle (some (.peeked data)) → data <+: config.waiting) ∧
    (∀ returned op rest n, config.producer = .idle returned →
      (∀ event ∈ rest, ∀ other, event ≠ .call other) →
      (config.run cap (.call op :: rest)).producer = .idle (some n) →
      op.Takes n ∧
        (config.run cap (.call op :: rest)).published = config.published ++ op.data.take n) ∧
    (∀ returned op receives, config.producer = .idle returned →
      (∀ fill, op ≠ .direct fill) → op.data.length < 2 ^ 63 →
      (∀ event ∈ receives, event.OfConsumer) →
      ((config.run cap (.call op :: receives ++ [.produce])).producer = .idle (some 0) ↔
        (config.run cap receives).taken.length + cap.size <
          config.published.length + op.data.length)) ∧
    (∀ returned op receives, config.producer = .idle returned →
      (∀ event ∈ receives, event.OfConsumer) →
      (config.run cap (.call op :: receives ++ [.produce])).producer = .idle (some 0) →
      { config.run cap (.call op :: receives ++ [.produce]) with producer := config.producer } =
        config.run cap receives) ∧
    (config.committed <+: config.accepted ∧
      config.ring.enqueue = BitVec.ofNat 64 config.committed.flatten.length) ∧
    (∀ returned a b rest, config.producer = .idle returned →
      (∀ event ∈ rest, ∀ op, event ≠ .call op) →
      (config.run cap (.call (.enqueue2 a b) :: rest)).published = config.published ∨
      (config.run cap (.call (.enqueue2 a b) :: rest)).published =
        config.published ++ (a ++ b)) ∧
    (∀ result op rest answer, config.consumer = .idle result →
      (∀ event ∈ rest, ∀ other, event ≠ .receive other) →
      (config.run cap (.receive op :: rest)).transferred < 2 ^ 63 →
      (config.run cap (.receive op :: rest)).consumer = .idle (some answer) →
      op.Answers config.waiting.length (cap.size - config.taken.length % cap.size) answer ∧
        (config.run cap (.receive op :: rest)).taken = config.taken ++ answer.taken) := by
  intro config
  have inv : Inv cap config := inv_of_bounded bounded
  refine ⟨⟨inv.taken_le, inv.bounded⟩, inv.ordered, fun _ bound => inv.intact bound, ?_, ?_, ?_, ?_,
    ⟨⟨_, inv.accepted.symm⟩, inv.enqueueCursor⟩, ?_, ?_⟩
  · intro data idle
    simpa [ConsumerOk, idle] using inv.consumer
  · intro returned op rest n quiet noCall reported
    exact call_publishes quiet op noCall reported
  · intro returned op receives quiet whole small reads
    exact refused_iff_full inv (short_of_transferred bounded) quiet whole small reads
  · intro returned op receives quiet reads refused
    exact refused_call_invisible quiet op reads refused
  · intro returned a b rest quiet noCall
    exact enqueue2_all_at_once quiet a b noCall
  · intro result op rest answer quiet noCall later answered
    exact receive_takes inv quiet op noCall (short_of_transferred later) answered

/-- Two bytes go in by one call, and one comes out. -/
theorem ring_buffer_spsc_fifo_two_bytes :
    let config := Config.init.run ⟨1, by decide, by decide⟩
      [.call (.enqueue [7, 8]), .produce, .produce, .produce, .produce, .receive (.dequeue 1),
        .consume, .consume, .consume, .consume]
    config.published = [7, 8] ∧ config.taken = [7] ∧ config.taken <+: config.published :=
  ⟨by decide, by decide, (ring_buffer_spsc_fifo ⟨1, by decide, by decide⟩ _ (by decide)).2.1⟩

end NetEngine.RingBuffer.Spsc
