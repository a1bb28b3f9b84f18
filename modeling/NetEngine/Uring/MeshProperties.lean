import NetEngine.Engine.RingBufferCalls
import NetEngine.Uring.Mesh

/-! The mesh edge delivers whole frames in order. The ring's own invariant says
which bytes a call reads; here the bytes are cut into frames. -/

set_option autoImplicit false

namespace NetEngine.Mesh

open RingBuffer

/-! ## One ring call of the consumer -/

/-- How many waiting bytes a call was started on. -/
def wants : Spsc.ConsumerOp → Nat
  | .usedSize => 0
  | .peek n | .dequeue n | .direct n => n

def Stands (config : Spsc.Config) (op : Spsc.ConsumerOp) (base : Bytes) (floor : Nat) : Prop :=
  match config.consumer with
  | .loaded running _ => running = op ∧ config.taken = base
  | .copying n regions _ .keep => op = .peek n ∧ config.taken = base ∧ regions.length ≤ 2
  | .copying n regions _ (.publish _) =>
      op = .dequeue n ∧ config.taken = base ∧ regions.length ≤ 2
  | .idle (some (.size used)) =>
      op = .usedSize ∧ config.taken = base ∧ floor ≤ base.length + used ∧
        base.length + used ≤ config.published.length
  | .idle (some (.peeked data)) =>
      ∃ n, op = .peek n ∧ config.taken = base ∧
        data = (config.published.drop base.length).take n
  | .idle (some (.released data)) =>
      ∃ n, op = .dequeue n ∧ config.taken = base ++ data ∧
        data = (config.published.drop base.length).take n
  | _ => False

/-- The call `op` started with `base` released and at least `floor` bytes published. -/
structure Calling (config : Spsc.Config) (op : Spsc.ConsumerOp) (base : Bytes) (floor : Nat) :
    Prop where
  copied : ∀ n, op ≠ .direct n
  reached : floor ≤ config.published.length
  enough : base.length + wants op ≤ config.published.length
  stands : Stands config op base floor

theorem Calling.start {config : Spsc.Config} {result : Option Spsc.Result}
    (quiet : config.consumer = .idle result) {op : Spsc.ConsumerOp} (copied : ∀ n, op ≠ .direct n)
    {floor : Nat} (reached : floor ≤ config.published.length)
    (enough : config.taken.length + wants op ≤ config.published.length) :
    Calling (config.startConsumer op) op config.taken floor := by
  simp only [Spsc.Config.startConsumer, quiet]
  exact ⟨copied, reached, enough, rfl, rfl⟩

/-- What the producer publishes meanwhile does not disturb the call. -/
theorem Calling.produce {config next : Spsc.Config} {op : Spsc.ConsumerOp} {base : Bytes}
    {floor : Nat} (calling : Calling config op base floor) (same : next.consumer = config.consumer)
    (released : next.taken = config.taken) (grown : config.published <+: next.published) :
    Calling next op base floor := by
  have longer := grown.length_le
  have reached := calling.reached
  have enough := calling.enough
  refine ⟨calling.copied, by omega, by omega, ?_⟩
  have stands := calling.stands
  obtain ⟨more, published⟩ := grown
  have kept : ∀ n, base.length + n ≤ config.published.length →
      (next.published.drop base.length).take n = (config.published.drop base.length).take n := by
    intro n within
    rw [← published, List.drop_append_of_le_length (by omega),
      List.take_append_of_le_length (by rw [List.length_drop]; omega)]
  unfold Stands at stands ⊢
  rw [same, released]
  split at stands
  · exact stands
  · exact stands
  · exact stands
  · obtain ⟨sized, taken, low, high⟩ := stands
    exact ⟨sized, taken, low, by omega⟩
  · obtain ⟨n, rfl, taken, seen⟩ := stands
    exact ⟨n, rfl, taken, seen.trans (kept n enough).symm⟩
  · obtain ⟨n, rfl, taken, seen⟩ := stands
    exact ⟨n, rfl, taken, seen.trans (kept n enough).symm⟩
  · exact absurd stands id

theorem Calling.consume {cap : Capacity} {config : Spsc.Config} (inv : Spsc.Inv cap config)
    {op : Spsc.ConsumerOp} {base : Bytes} {floor : Nat} (calling : Calling config op base floor) :
    Calling (config.consumerStep cap) op base floor := by
  have reached := calling.reached
  have enough := calling.enough
  have published : (config.consumerStep cap).published = config.published := by
    simp only [Spsc.Config.published, Spsc.Config.consumerStep]
    split <;> rfl
  refine ⟨calling.copied, published ▸ reached, published ▸ enough, ?_⟩
  have stands := calling.stands
  have valid := inv.consumer
  have ordered := inv.taken_le
  unfold Stands
  rw [published]
  cases running : config.consumer with
  | idle result =>
      simpa only [Spsc.Config.consumerStep, running, Stands] using stands
  | loaded started own =>
      obtain ⟨rfl, rfl⟩ : started = op ∧ config.taken = base := by
        simpa [Stands, running] using stands
      have loaded : own = BitVec.ofNat 64 config.taken.length := by
        simpa [Spsc.ConsumerOk, running] using valid
      have visible := inv.visible
      rw [← loaded, Spsc.Config.waiting_length] at visible
      cases started with
      | usedSize =>
          simp only [Spsc.Config.consumerStep, running, visible]
          exact ⟨trivial, trivial, by omega, by omega⟩
      | peek n | dequeue n =>
          simp only [wants] at enough
          simp only [Spsc.Config.consumerStep, running, visible]
          exact ⟨by rw [Nat.min_eq_left (by omega)], trivial, by simp [readAt]⟩
      | direct n => exact absurd rfl (calling.copied n)
  | pointing k => simp [Stands, running] at stands
  | committing got own => simp [Stands, running] at stands
  | copying n regions got release =>
      obtain ⟨within, reads, aimed⟩ : _ ∧ _ ∧ _ := by
        simpa [Spsc.ConsumerOk, running] using valid
      cases release with
      | keep =>
          obtain ⟨rfl, rfl, two⟩ : op = .peek n ∧ config.taken = base ∧ regions.length ≤ 2 := by
            simpa [Stands, running] using stands
          cases regions with
          | cons region regions =>
              rw [List.length_cons] at two
              simp only [Spsc.Config.consumerStep, running]
              exact ⟨trivial, trivial, by omega⟩
          | nil =>
              simp only [Spsc.Config.consumerStep, running]
              exact ⟨n, rfl, trivial, reads.done⟩
      | publish target =>
          obtain ⟨rfl, rfl, two⟩ : op = .dequeue n ∧ config.taken = base ∧ regions.length ≤ 2 := by
            simpa [Stands, running] using stands
          cases regions with
          | cons region regions =>
              rw [List.length_cons] at two
              simp only [Spsc.Config.consumerStep, running]
              exact ⟨trivial, trivial, by omega⟩
          | nil =>
              simp only [Spsc.Config.consumerStep, running]
              exact ⟨n, rfl, trivial, reads.done⟩
      | commit => simp [Stands, running] at stands

theorem Calling.size {config : Spsc.Config} {base : Bytes} {floor used : Nat}
    (calling : Calling config .usedSize base floor)
    (returned : config.consumer = .idle (some (.size used))) :
    config.taken = base ∧ floor ≤ base.length + used ∧
      base.length + used ≤ config.published.length := by
  simpa [Stands, returned] using calling.stands

theorem Calling.peeked {config : Spsc.Config} {base data : Bytes} {floor n : Nat}
    (calling : Calling config (.peek n) base floor)
    (returned : config.consumer = .idle (some (.peeked data))) :
    config.taken = base ∧ data = (config.published.drop base.length).take n := by
  simpa [Stands, returned] using calling.stands

theorem Calling.released {config : Spsc.Config} {base data : Bytes} {floor n : Nat}
    (calling : Calling config (.dequeue n) base floor)
    (returned : config.consumer = .idle (some (.released data))) :
    config.taken = base ++ data ∧ data = (config.published.drop base.length).take n := by
  simpa [Stands, returned] using calling.stands

/-- A call that returned did so with its own kind of result. -/
theorem Calling.result {config : Spsc.Config} {op : Spsc.ConsumerOp} {base : Bytes} {floor : Nat}
    (calling : Calling config op base floor) {result : Option Spsc.Result}
    (returned : config.consumer = .idle result) :
    (op = .usedSize ∧ ∃ used, result = some (.size used)) ∨
      (∃ n, op = .peek n ∧ ∃ data, result = some (.peeked data)) ∨
      ∃ n, op = .dequeue n ∧ ∃ data, result = some (.released data) := by
  have stands := calling.stands
  unfold Stands at stands
  rw [returned] at stands
  cases result with
  | none => exact absurd stands id
  | some value =>
      cases value with
      | size used => exact .inl ⟨stands.1, used, rfl⟩
      | peeked data =>
          obtain ⟨n, asked, _⟩ := stands
          exact .inr (.inl ⟨n, asked, data, rfl⟩)
      | released data =>
          obtain ⟨n, asked, _⟩ := stands
          exact .inr (.inr ⟨n, asked, data, rfl⟩)

/-! ## Invariant -/

/-- Bytes of the frames delivered so far. -/
def Edge.base (edge : Edge) : Bytes := frames (edge.accepted.take edge.received.length)

def Edge.remaining (edge : Edge) : List Message := edge.accepted.drop edge.received.length

def Posting (edge : Edge) : Prop :=
  match edge.posting with
  | none => ∃ returned, edge.pipe.producer = .idle returned
  | some message =>
      (∃ own, edge.pipe.producer = .loaded (.enqueue2 message.header.encode message.body) own) ∨
        ∃ copies target, edge.pipe.producer = .copying copies message.frame (some target)

/-- A call that is past its first test works on the first remaining message. -/
def Receiving (edge : Edge) : Prop :=
  match edge.stage with
  | .returned _ => (∃ result, edge.pipe.consumer = .idle result) ∧ edge.pipe.taken = edge.base
  | .sizing => Calling edge.pipe .usedSize edge.base edge.recv.published
  | .peeking => edge.remaining ≠ [] ∧ Calling edge.pipe (.peek headerSize) edge.base 0
  | .confirming header =>
      ∃ message rest, edge.remaining = message :: rest ∧ header = message.header ∧
        Calling edge.pipe .usedSize edge.base (edge.base.length + message.frame.length)
  | .dropping header =>
      ∃ message rest, edge.remaining = message :: rest ∧ header = message.header ∧
        Calling edge.pipe (.dequeue headerSize) edge.base 0
  | .draining header =>
      ∃ message rest, edge.remaining = message :: rest ∧ header = message.header ∧
        Calling edge.pipe (.dequeue message.body.length) (edge.base ++ header.encode) 0
  | .trapped => False

/-- What the running call started from: whole frames were published by then. -/
structure Opened (limit : Nat) (recv : Recv) (base : Bytes) (remaining : List Message)
    (received : Nat) : Prop where
  released : recv.taken = base
  unread : received = recv.received
  aligned : ∃ early, early <+: remaining ∧ recv.published = base.length + (frames early).length
  roomy : limit ≤ recv.bodyCap

/-- What the last call did, or what the running one started from. -/
def Recorded (limit : Nat) (edge : Edge) : Prop :=
  match edge.stage with
  | .returned none => True
  | .returned (some false) =>
      edge.recv.published = edge.recv.taken.length ∧ edge.pipe.taken = edge.recv.taken ∧
        edge.received.length = edge.recv.received
  | .returned (some true) => edge.received.length = edge.recv.received + 1
  | _ => Opened limit edge.recv edge.base edge.remaining edge.received.length

structure Inv (cap : Capacity) (limit : Nat) (edge : Edge) : Prop where
  pipe : Spsc.Inv cap edge.pipe
  posting : Posting edge
  committed : edge.pipe.committed = edge.accepted.map Message.frame
  delivered : edge.received = (edge.accepted.take edge.received.length).map Message.delivery
  small : ∀ message ∈ edge.accepted, message.body.length ≤ limit
  offered : ∀ message, edge.posting = some message → message.body.length ≤ limit
  receiving : Receiving edge
  recorded : Recorded limit edge

theorem Inv.init (cap : Capacity) (limit : Nat) : Inv cap limit .init where
  pipe := .init cap
  posting := ⟨none, rfl⟩
  committed := rfl
  delivered := rfl
  small := by simp [Edge.init]
  offered := by simp [Edge.init]
  receiving := ⟨⟨none, rfl⟩, rfl⟩
  recorded := trivial

theorem Inv.received_le {cap : Capacity} {limit : Nat} {edge : Edge} (inv : Inv cap limit edge) :
    edge.received.length ≤ edge.accepted.length := by
  have length := congrArg List.length inv.delivered
  rw [List.length_map, List.length_take] at length
  omega

theorem Inv.published {cap : Capacity} {limit : Nat} {edge : Edge} (inv : Inv cap limit edge) :
    edge.pipe.published = edge.base ++ frames edge.remaining := by
  rw [Spsc.Config.published, inv.committed, Edge.base, Edge.remaining, frames_take_drop]
  rfl

/-! ## Producer steps -/

theorem Receiving.produce {edge next : Edge} (receiving : Receiving edge)
    (behind : edge.received.length ≤ edge.accepted.length) {more : List Message}
    (accepted : next.accepted = edge.accepted ++ more) (stage : next.stage = edge.stage)
    (recv : next.recv = edge.recv) (received : next.received = edge.received)
    (consumer : next.pipe.consumer = edge.pipe.consumer) (taken : next.pipe.taken = edge.pipe.taken)
    (grown : edge.pipe.published <+: next.pipe.published) : Receiving next := by
  have base : next.base = edge.base := by
    rw [Edge.base, Edge.base, received, accepted, List.take_append_of_le_length behind]
  have remaining : next.remaining = edge.remaining ++ more := by
    rw [Edge.remaining, Edge.remaining, received, accepted, List.drop_append_of_le_length behind]
  unfold Receiving at receiving ⊢
  rw [stage, base, remaining, recv]
  split at receiving
  · obtain ⟨quiet, released⟩ := receiving
    rw [consumer, taken]
    exact ⟨quiet, released⟩
  · exact receiving.produce consumer taken grown
  · obtain ⟨more, calling⟩ := receiving
    exact ⟨by simp [more], calling.produce consumer taken grown⟩
  · obtain ⟨message, rest, first, known, calling⟩ := receiving
    exact ⟨message, rest ++ more, by simp [first], known, calling.produce consumer taken grown⟩
  · obtain ⟨message, rest, first, known, calling⟩ := receiving
    exact ⟨message, rest ++ more, by simp [first], known, calling.produce consumer taken grown⟩
  · obtain ⟨message, rest, first, known, calling⟩ := receiving
    exact ⟨message, rest ++ more, by simp [first], known, calling.produce consumer taken grown⟩
  · exact receiving

theorem Recorded.produce {limit : Nat} {edge next : Edge} (recorded : Recorded limit edge)
    (behind : edge.received.length ≤ edge.accepted.length) {more : List Message}
    (accepted : next.accepted = edge.accepted ++ more) (stage : next.stage = edge.stage)
    (recv : next.recv = edge.recv) (received : next.received = edge.received)
    (taken : next.pipe.taken = edge.pipe.taken) : Recorded limit next := by
  have base : next.base = edge.base := by
    rw [Edge.base, Edge.base, received, accepted, List.take_append_of_le_length behind]
  have remaining : next.remaining = edge.remaining ++ more := by
    rw [Edge.remaining, Edge.remaining, received, accepted, List.drop_append_of_le_length behind]
  unfold Recorded at recorded ⊢
  rw [stage, base, remaining, recv, received, taken]
  split at recorded
  · exact recorded
  · exact recorded
  · exact recorded
  · obtain ⟨released, unread, ⟨early, seen, aligned⟩, roomy⟩ := recorded
    exact ⟨released, unread, ⟨early, seen.trans (List.prefix_append _ _), aligned⟩, roomy⟩

private theorem Inv.offered_step {cap : Capacity} {limit : Nat} {edge next : Edge}
    (inv : Inv cap limit edge) (pipe : Spsc.Inv cap next.pipe) (posting : Posting next)
    (more : List Message) (accepted : next.accepted = edge.accepted ++ more)
    (committed : next.pipe.committed = edge.pipe.committed ++ more.map Message.frame)
    (stage : next.stage = edge.stage) (recv : next.recv = edge.recv)
    (received : next.received = edge.received)
    (consumer : next.pipe.consumer = edge.pipe.consumer)
    (taken : next.pipe.taken = edge.pipe.taken)
    (small : ∀ message ∈ more, message.body.length ≤ limit)
    (offered : ∀ message, next.posting = some message → message.body.length ≤ limit) :
    Inv cap limit next := by
  have behind := inv.received_le
  have grown : edge.pipe.published <+: next.pipe.published := by
    rw [Spsc.Config.published, Spsc.Config.published, committed, List.flatten_append]
    exact List.prefix_append _ _
  exact {
    pipe
    posting
    committed := by rw [committed, accepted, inv.committed, List.map_append]
    delivered := by
      rw [received, accepted, List.take_append_of_le_length behind]
      exact inv.delivered
    small := by
      intro message member
      rw [accepted] at member
      rcases List.mem_append.mp member with old | new
      · exact inv.small message old
      · exact small message new
    offered
    receiving := inv.receiving.produce behind accepted stage recv received consumer taken grown
    recorded := inv.recorded.produce behind accepted stage recv received taken }

/-- The pipe only ever takes in whole frames, which are short. -/
theorem Inv.short {cap : Capacity} {limit : Nat} {edge : Edge} (inv : Inv cap limit edge) :
    ∀ data ∈ edge.pipe.accepted, data.length < 2 ^ 63 := by
  intro data member
  rw [inv.pipe.accepted, inv.committed, List.mem_append] at member
  rcases member with done | running
  · obtain ⟨message, _, rfl⟩ := List.mem_map.mp done
    exact message.frame_short
  · have posting := inv.posting
    unfold Posting at posting
    split at posting
    · obtain ⟨returned, quiet⟩ := posting
      simp [quiet, Spsc.inFlight] at running
    · next message _ =>
      rcases posting with ⟨own, loaded⟩ | ⟨copies, target, copying⟩
      · simp [loaded, Spsc.inFlight] at running
      · obtain rfl : data = message.frame := by simpa [copying, Spsc.inFlight] using running
        exact message.frame_short

theorem Inv.startPost {cap : Capacity} {limit : Nat} {edge : Edge} (inv : Inv cap limit edge)
    {message : Message} (small : message.body.length ≤ limit) :
    Inv cap limit (edge.startPost message) := by
  cases busy : edge.posting with
  | some other => simpa only [Edge.startPost, busy] using inv
  | none =>
      obtain ⟨returned, quiet⟩ : ∃ returned, edge.pipe.producer = .idle returned := by
        simpa [Posting, busy] using inv.posting
      have started : edge.pipe.startProducer (.enqueue2 message.header.encode message.body) =
          { edge.pipe with
            producer := .loaded (.enqueue2 message.header.encode message.body)
              edge.pipe.ring.enqueue } := by
        simp only [Spsc.Config.startProducer, quiet]
      have pipe := inv.pipe.step (.call (.enqueue2 message.header.encode message.body))
        (by simpa only [Spsc.Config.step, started] using inv.short)
      simp only [Edge.startPost, busy]
      refine inv.offered_step pipe ?_ [] (by simp) ?_ rfl rfl rfl ?_ ?_ (by simp) ?_
      · exact .inl ⟨_, by rw [started]⟩
      · simp [started]
      · simp [started]
      · simp [started]
      · intro other same
        cases same
        exact small

/-- A step inside `mesh_post`: it goes on, is refused, or publishes its frame. -/
theorem posting_step (cap : Capacity) {pipe : Spsc.Config} {message : Message}
    (posting : (∃ own, pipe.producer =
        .loaded (.enqueue2 message.header.encode message.body) own) ∨
      ∃ copies target, pipe.producer = .copying copies message.frame (some target)) :
    ((∃ copies target, (pipe.producerStep cap).producer =
        .copying copies message.frame (some target)) ∧
      (pipe.producerStep cap).committed = pipe.committed ∧
      (pipe.producerStep cap).accepted ⊆ pipe.accepted ++ [message.frame]) ∨
    ((pipe.producerStep cap).producer = .idle (some 0) ∧
      (pipe.producerStep cap).committed = pipe.committed ∧
      (pipe.producerStep cap).accepted = pipe.accepted) ∨
    ((pipe.producerStep cap).producer = .idle (some message.frame.length) ∧
      (pipe.producerStep cap).committed = pipe.committed ++ [message.frame] ∧
      (pipe.producerStep cap).accepted = pipe.accepted) := by
  rcases posting with ⟨own, loaded⟩ | ⟨copies, target, copying⟩
  · by_cases room : fits cap own pipe.ring.dequeue
        (BitVec.ofNat 64 message.header.encode.length + BitVec.ofNat 64 message.body.length)
    · left
      simp only [Spsc.Config.producerStep, loaded, if_pos room]
      exact ⟨⟨_, _, rfl⟩, trivial, List.Subset.refl _⟩
    · right; left
      simp only [Spsc.Config.producerStep, loaded, if_neg room]
      exact ⟨trivial, trivial, trivial⟩
  · cases copies with
    | cons copy copies =>
        left
        simp only [Spsc.Config.producerStep, copying]
        exact ⟨⟨copies, target, rfl⟩, trivial, List.subset_append_left _ _⟩
    | nil =>
        right; right
        simp only [Spsc.Config.producerStep, copying]
        exact ⟨trivial, trivial, trivial⟩

theorem Inv.postStep {cap : Capacity} {limit : Nat} {edge : Edge} (inv : Inv cap limit edge) :
    Inv cap limit (edge.postStep cap) := by
  have posting := inv.posting
  have consumer := Spsc.producerStep_consumer cap edge.pipe
  have taken := Spsc.producerStep_taken cap edge.pipe
  unfold Posting at posting
  cases busy : edge.posting with
  | none =>
      obtain ⟨returned, quiet⟩ : ∃ returned, edge.pipe.producer = .idle returned := by
        simpa [busy] using posting
      have same : edge.postStep cap = edge := by
        simp only [Edge.postStep, Spsc.Config.producerStep, quiet]
        split
        · next message _ offered _ => rw [busy] at offered; cases offered
        · rfl
      rwa [same]
  | some message =>
      have offered := inv.offered message busy
      simp only [busy] at posting
      simp only [Edge.postStep, busy]
      have outcome := posting_step cap posting
      have pipe : Spsc.Inv cap (edge.pipe.producerStep cap) := by
        apply inv.pipe.producerStep
        intro data member
        rcases outcome with ⟨_, _, subset⟩ | ⟨_, _, same⟩ | ⟨_, _, same⟩
        · rcases List.mem_append.mp (subset member) with old | new
          · exact inv.short data old
          · obtain rfl := List.mem_singleton.mp new
            exact message.frame_short
        · exact inv.short data (same ▸ member)
        · exact inv.short data (same ▸ member)
      rcases outcome with ⟨⟨copies, target, copying⟩, committed, _⟩ | ⟨refused, committed, _⟩ |
        ⟨stored, committed, _⟩
      · rw [copying]
        exact inv.offered_step pipe (.inr ⟨copies, target, copying⟩) [] (by simp)
          (by simpa using committed) rfl rfl rfl consumer taken (by simp) (by simpa using offered)
      · rw [refused]
        have short : (0 == frameSize message.body.length) = false := by
          simp only [frameSize, headerSize, beq_eq_false_iff_ne]
          omega
        exact inv.offered_step pipe ⟨_, refused⟩ [] (by simp [short]) (by simpa using committed)
          rfl rfl rfl consumer taken (by simp) (by simp)
      · rw [stored]
        exact inv.offered_step pipe ⟨_, stored⟩ [message] (by simp [message.frame_length])
          (by simpa using committed) rfl rfl rfl consumer taken (by simpa using offered) (by simp)

theorem Stands.taken {config : Spsc.Config} {op : Spsc.ConsumerOp} {base : Bytes} {floor : Nat}
    (stands : Stands config op base floor) : base.length ≤ config.taken.length := by
  unfold Stands at stands
  split at stands
  · rw [stands.2]
  · rw [stands.2.1]
  · rw [stands.2.1]
  · rw [stands.2.1]
  · obtain ⟨_, _, taken, _⟩ := stands
    rw [taken]
  · obtain ⟨_, _, taken, _⟩ := stands
    rw [taken, List.length_append]
    exact Nat.le_add_right _ _
  · exact stands.elim

theorem Inv.base_le {cap : Capacity} {limit : Nat} {edge : Edge} (inv : Inv cap limit edge) :
    edge.base.length ≤ edge.pipe.taken.length := by
  have receiving := inv.receiving
  unfold Receiving at receiving
  split at receiving
  · rw [receiving.2]
  · exact receiving.stands.taken
  · exact receiving.2.stands.taken
  · obtain ⟨_, _, _, _, calling⟩ := receiving
    exact calling.stands.taken
  · obtain ⟨_, _, _, _, calling⟩ := receiving
    exact calling.stands.taken
  · obtain ⟨_, _, _, _, calling⟩ := receiving
    have taken := calling.stands.taken
    rw [List.length_append] at taken
    omega
  · exact receiving.elim

theorem postStep_idle (cap : Capacity) {edge : Edge} (free : edge.posting = none) :
    edge.postStep cap = { edge with pipe := edge.pipe.producerStep cap } := by
  simp only [Edge.postStep, free]

/-- With room for all the frames that were not read yet, a post is not refused. -/
theorem Inv.postStep_roomy {cap : Capacity} {limit : Nat} {edge : Edge} (inv : Inv cap limit edge)
    {message : Message} (busy : edge.posting = some message)
    (room : (frames edge.remaining).length + message.frame.length ≤ cap.size) :
    let next := edge.postStep cap
    next.received = edge.received ∧
      (next.posting = some message ∧ next.accepted = edge.accepted ∧ next.posted = edge.posted ∨
        next.posting = none ∧ next.posted = some true ∧ next.accepted = edge.accepted ++ [message]) := by
  intro next
  have posting := inv.posting
  simp only [Posting, busy] at posting
  have fitting : ∀ own, edge.pipe.producer =
      .loaded (.enqueue2 message.header.encode message.body) own →
      fits cap own edge.pipe.ring.dequeue
        (BitVec.ofNat 64 message.header.encode.length + BitVec.ofNat 64 message.body.length) = true := by
    intro own loaded
    have cursor : own = BitVec.ofNat 64 edge.pipe.published.length := by
      have ok := inv.pipe.producer
      rwa [loaded] at ok
    have published := congrArg List.length inv.published
    have length := message.frame_length
    have short := message.frame_short
    have released := inv.base_le
    rw [List.length_append] at published
    rw [frameSize] at length
    rw [cursor, inv.pipe.dequeueCursor, cursor_add, Header.encode_length,
      fits_iff inv.pipe.taken_le inv.pipe.bounded (by omega)]
    omega
  have outcome := posting_step cap posting
  rcases outcome with ⟨⟨copies, target, copying⟩, _, _⟩ | ⟨refused, _, _⟩ | ⟨stored, _, _⟩
  · have same : next = { edge with pipe := edge.pipe.producerStep cap } := by
      change edge.postStep cap = _
      simp only [Edge.postStep, busy, copying]
    rw [same]
    exact ⟨rfl, .inl ⟨busy, rfl, rfl⟩⟩
  · rcases posting with ⟨own, loaded⟩ | ⟨copies, target, copying⟩
    · simp only [Spsc.Config.producerStep, loaded, if_pos (fitting own loaded)] at refused
      cases refused
    · have whole := message.headerSize_le
      cases copies with
      | cons copy copies =>
          simp only [Spsc.Config.producerStep, copying] at refused
          cases refused
      | nil =>
          simp only [Spsc.Config.producerStep, copying, Spsc.Producer.idle.injEq,
            Option.some.injEq] at refused
          rw [refused] at whole
          cases whole
  · have done : (message.frame.length == frameSize message.body.length) = true := by
      rw [message.frame_length]
      exact beq_self_eq_true _
    have ended : next = { edge with
        pipe := edge.pipe.producerStep cap, posting := none, posted := some true
        accepted := edge.accepted ++ [message] } := by
      change edge.postStep cap = _
      simp only [Edge.postStep, busy, stored, done, if_true]
    rw [ended]
    exact ⟨rfl, .inr ⟨rfl, rfl, rfl⟩⟩

/-! ## Consumer steps -/

private theorem Inv.receive_step {cap : Capacity} {limit : Nat} {edge next : Edge}
    (inv : Inv cap limit edge) (pipe : Spsc.Inv cap next.pipe)
    (posting : next.posting = edge.posting) (producer : next.pipe.producer = edge.pipe.producer)
    (committed : next.pipe.committed = edge.pipe.committed)
    (accepted : next.accepted = edge.accepted)
    (delivered : next.received = (edge.accepted.take next.received.length).map Message.delivery)
    (receiving : Receiving next) (recorded : Recorded limit next) : Inv cap limit next where
  pipe
  posting := by
    have posted := inv.posting
    unfold Posting at posted ⊢
    rwa [posting, producer]
  committed := by rw [committed, accepted, inv.committed]
  delivered := accepted ▸ delivered
  small := accepted ▸ inv.small
  offered := posting ▸ inv.offered
  receiving
  recorded

theorem Inv.startRecv {cap : Capacity} {limit : Nat} {edge : Edge} (inv : Inv cap limit edge)
    {bodyCap : Nat} (roomy : limit ≤ bodyCap) : Inv cap limit (edge.startRecv bodyCap) := by
  cases stage : edge.stage with
  | returned value =>
      obtain ⟨⟨result, quiet⟩, taken⟩ :
          (∃ result, edge.pipe.consumer = .idle result) ∧ edge.pipe.taken = edge.base := by
        simpa [Receiving, stage] using inv.receiving
      have pipe := inv.pipe.step (.receive .usedSize) (by
        simpa [Spsc.Config.step, Spsc.Config.startConsumer, quiet] using inv.short)
      have calling : Calling (edge.pipe.startConsumer .usedSize) .usedSize edge.base
          edge.pipe.published.length := by
        rw [← taken]
        exact .start quiet (by simp) (Nat.le_refl _) inv.pipe.taken_le
      simp only [Edge.startRecv, stage]
      refine inv.receive_step pipe rfl ?_ ?_ rfl inv.delivered calling ?_
      · simp [Spsc.Config.startConsumer, quiet]
      · simp [Spsc.Config.startConsumer, quiet]
      · refine ⟨taken, rfl, ⟨edge.remaining, List.prefix_refl _, ?_⟩, roomy⟩
        change edge.pipe.published.length = _
        rw [inv.published, List.length_append]
        rfl
  | _ => simpa only [Edge.startRecv, stage] using inv

/-- Starting the next ring call within `mesh_try_recv`. -/
private theorem Inv.ask {cap : Capacity} {limit : Nat} {edge : Edge} (inv : Inv cap limit edge)
    {result : Option Spsc.Result} (quiet : edge.pipe.consumer = .idle result) {stage : Stage}
    {op : Spsc.ConsumerOp} (receiving : Receiving (edge.ask stage op))
    (recorded : Recorded limit (edge.ask stage op)) : Inv cap limit (edge.ask stage op) := by
  have pipe := inv.pipe.step (.receive op) (by
    simpa [Spsc.Config.step, Spsc.Config.startConsumer, quiet] using inv.short)
  refine inv.receive_step pipe rfl ?_ ?_ rfl inv.delivered receiving recorded
  · simp [Edge.ask, Spsc.Config.startConsumer, quiet]
  · simp [Edge.ask, Spsc.Config.startConsumer, quiet]

private theorem Calling.ask {edge : Edge} {result : Option Spsc.Result}
    (quiet : edge.pipe.consumer = .idle result) {base : Bytes} (taken : edge.pipe.taken = base)
    (stage : Stage) {op : Spsc.ConsumerOp} (copied : ∀ n, op ≠ .direct n) {floor : Nat}
    (reached : floor ≤ edge.pipe.published.length)
    (enough : base.length + wants op ≤ edge.pipe.published.length) :
    Calling (edge.ask stage op).pipe op base floor := by
  subst taken
  exact .start quiet copied reached enough

theorem Edge.take_next {edge : Edge} {message : Message} {rest : List Message}
    (first : edge.remaining = message :: rest) :
    edge.accepted.take (edge.received.length + 1) =
      edge.accepted.take edge.received.length ++ [message] := by
  have found : edge.accepted[edge.received.length]? = some message := by
    have head := congrArg (fun messages => messages[0]?) first
    simpa [Edge.remaining, List.getElem?_drop] using head
  rw [List.take_add_one, found]
  rfl

/-- The call that hands out the first remaining message. -/
private theorem Inv.deliver {cap : Capacity} {limit : Nat} {edge : Edge} (inv : Inv cap limit edge)
    {result : Option Spsc.Result} (quiet : edge.pipe.consumer = .idle result)
    {message : Message} {rest : List Message} (first : edge.remaining = message :: rest)
    (taken : edge.pipe.taken = edge.base ++ message.frame)
    (unread : edge.received.length = edge.recv.received) :
    Inv cap limit { edge with
      stage := .returned (some true), received := edge.received ++ [message.delivery] } := by
  have more := Edge.take_next first
  refine inv.receive_step inv.pipe rfl rfl rfl rfl ?_ ⟨⟨result, quiet⟩, ?_⟩ ?_
  · simp only [List.length_append, List.length_singleton]
    rw [more, List.map_append, ← inv.delivered]
    rfl
  · simp only [Edge.base, List.length_append, List.length_singleton] at taken ⊢
    rw [more, frames_append, taken]
    simp
  · simp [Recorded, unread]

theorem Message.frame_take (message : Message) (rest : Bytes) :
    (message.frame ++ rest).take headerSize = message.header.encode := by
  rw [Message.frame, List.append_assoc, ← message.header.encode_length, List.take_left]

theorem Message.frame_drop (message : Message) (rest : Bytes) :
    ((message.frame ++ rest).drop headerSize).take message.body.length = message.body := by
  rw [Message.frame, List.append_assoc, ← message.header.encode_length, List.drop_left,
    List.take_left]

/-- Every value that a ring call of `mesh_try_recv` returns leads to a good state. -/
theorem Inv.advance {cap : Capacity} {limit : Nat} {edge : Edge} (inv : Inv cap limit edge)
    {result : Spsc.Result} (quiet : edge.pipe.consumer = .idle (some result)) :
    Inv cap limit (edge.advance result) := by
  have receiving := inv.receiving
  have recorded := inv.recorded
  have published := inv.published
  have length := congrArg List.length published
  rw [List.length_append] at length
  have after : edge.pipe.published.drop edge.base.length = frames edge.remaining := by
    rw [published, List.drop_left]
  cases stage : edge.stage with
  | returned value => cases result <;> simpa only [Edge.advance, stage] using inv
  | trapped => exact absurd receiving (by simp [Receiving, stage])
  | sizing =>
      have calling : Calling edge.pipe .usedSize edge.base edge.recv.published := by
        simpa [Receiving, stage] using receiving
      have opened : Opened limit edge.recv edge.base edge.remaining edge.received.length := by
        simpa [Recorded, stage] using recorded
      obtain ⟨early, seen, aligned⟩ := opened.aligned
      rcases calling.result quiet with ⟨_, used, same⟩ | ⟨n, other, _⟩ | ⟨n, other, _⟩
      · obtain rfl := Option.some.inj same
        obtain ⟨taken, low, high⟩ := calling.size quiet
        simp only [Edge.advance, stage]
        split
        · next few =>
          refine inv.receive_step inv.pipe rfl rfl rfl rfl inv.delivered ⟨⟨_, quiet⟩, taken⟩ ?_
          -- fewer bytes than a header: no frame was published when the call began
          have none : early = [] := by
            cases early with
            | nil => rfl
            | cons message rest =>
                have whole := message.headerSize_le
                rw [frames_cons, List.length_append] at aligned
                omega
          subst none
          refine ⟨?_, taken.trans opened.released.symm, opened.unread⟩
          rw [opened.released]
          simpa using aligned
        · next enough =>
          have more : edge.remaining ≠ [] := by
            intro none
            rw [none, frames_nil, List.length_nil] at length
            simp only [headerSize] at enough
            omega
          refine inv.ask quiet ⟨more, ?_⟩ opened
          exact .ask quiet taken _ (by simp) (Nat.zero_le _) (by simp only [wants]; omega)
      · cases other
      · cases other
  | peeking =>
      have opened : Opened limit edge.recv edge.base edge.remaining edge.received.length := by
        simpa [Recorded, stage] using recorded
      obtain ⟨more, calling⟩ :
          edge.remaining ≠ [] ∧ Calling edge.pipe (.peek headerSize) edge.base 0 := by
        simpa [Receiving, stage] using receiving
      obtain ⟨message, rest, first⟩ := List.exists_cons_of_ne_nil more
      rw [first, frames_cons] at after
      rw [first, frames_cons, List.length_append] at length
      rcases calling.result quiet with ⟨other, _⟩ | ⟨n, _, data, same⟩ | ⟨n, other, _⟩
      · cases other
      · obtain rfl := Option.some.inj same
        obtain ⟨taken, seen⟩ := calling.peeked quiet
        obtain rfl : data = message.header.encode := by rw [seen, after, message.frame_take]
        simp only [Edge.advance, stage, Header.encode_length, if_true, Header.decode_encode]
        have asked : Calling (edge.ask (.confirming message.header) .usedSize).pipe .usedSize
            edge.base (edge.base.length + message.frame.length) :=
          .ask quiet taken _ (by simp) (by omega) (by simp only [wants]; omega)
        exact inv.ask quiet ⟨message, rest, first, rfl, asked⟩ opened
      · cases other
  | confirming header =>
      have opened : Opened limit edge.recv edge.base edge.remaining edge.received.length := by
        simpa [Recorded, stage] using recorded
      obtain ⟨message, rest, first, rfl, calling⟩ :
          ∃ message rest, edge.remaining = message :: rest ∧ header = message.header ∧
            Calling edge.pipe .usedSize edge.base (edge.base.length + message.frame.length) := by
        simpa [Receiving, stage] using receiving
      have roomy := opened.roomy
      have small : message.body.length ≤ limit := by
        apply inv.small
        apply List.mem_of_mem_drop
        rw [← Edge.remaining, first]
        exact List.mem_cons_self
      have whole := message.headerSize_le
      rcases calling.result quiet with ⟨_, used, same⟩ | ⟨n, other, _⟩ | ⟨n, other, _⟩
      · obtain rfl := Option.some.inj same
        obtain ⟨taken, low, high⟩ := calling.size quiet
        have present : ¬ used < frameSize message.header.size.toNat := by
          rw [message.header_size, ← message.frame_length]
          omega
        have fits : message.header.size.toNat ≤ edge.recv.bodyCap := by
          rw [message.header_size]
          omega
        simp only [Edge.advance, stage, if_neg present, if_pos fits]
        refine inv.ask quiet ⟨message, rest, first, rfl, ?_⟩ opened
        exact .ask quiet taken _ (by simp) (Nat.zero_le _) (by simp only [wants]; omega)
      · cases other
      · cases other
  | dropping header =>
      have opened : Opened limit edge.recv edge.base edge.remaining edge.received.length := by
        simpa [Recorded, stage] using recorded
      obtain ⟨message, rest, first, rfl, calling⟩ :
          ∃ message rest, edge.remaining = message :: rest ∧ header = message.header ∧
            Calling edge.pipe (.dequeue headerSize) edge.base 0 := by
        simpa [Receiving, stage] using receiving
      rw [first, frames_cons] at after
      rw [first, frames_cons, List.length_append, message.frame_length, frameSize] at length
      rcases calling.result quiet with ⟨other, _⟩ | ⟨n, other, _⟩ | ⟨n, _, data, same⟩
      · cases other
      · cases other
      · obtain rfl := Option.some.inj same
        obtain ⟨taken, seen⟩ := calling.released quiet
        obtain rfl : data = message.header.encode := by rw [seen, after, message.frame_take]
        simp only [Edge.advance, stage, message.header_size]
        split
        · next empty =>
          have bare : message.body = [] := List.eq_nil_of_length_eq_zero empty
          have whole : message.frame = message.header.encode := by
            rw [Message.frame, bare, List.append_nil]
          have handed : message.delivery = ⟨message.header, []⟩ := by rw [Message.delivery, bare]
          rw [← handed]
          exact inv.deliver quiet first (whole ▸ taken) opened.unread
        · refine inv.ask quiet ⟨message, rest, first, rfl, ?_⟩ opened
          refine .ask quiet taken _ (by simp) (Nat.zero_le _) ?_
          simp only [wants, List.length_append, Header.encode_length]
          omega
  | draining header =>
      have opened : Opened limit edge.recv edge.base edge.remaining edge.received.length := by
        simpa [Recorded, stage] using recorded
      obtain ⟨message, rest, first, rfl, calling⟩ :
          ∃ message rest, edge.remaining = message :: rest ∧ header = message.header ∧
            Calling edge.pipe (.dequeue message.body.length) (edge.base ++ header.encode) 0 := by
        simpa [Receiving, stage] using receiving
      rw [first, frames_cons] at after
      rcases calling.result quiet with ⟨other, _⟩ | ⟨n, other, _⟩ | ⟨n, _, body, same⟩
      · cases other
      · cases other
      · obtain rfl := Option.some.inj same
        obtain ⟨taken, seen⟩ := calling.released quiet
        obtain rfl : body = message.body := by
          rw [seen, List.length_append, Header.encode_length, ← List.drop_drop, after,
            message.frame_drop]
        simp only [Edge.advance, stage]
        refine inv.deliver quiet first ?_ opened.unread
        rw [taken, Message.frame, List.append_assoc]

/-- A step inside the running ring call. -/
private theorem Inv.consume {cap : Capacity} {limit : Nat} {edge : Edge} (inv : Inv cap limit edge)
    (running : ∀ value, edge.stage ≠ .returned value) :
    Inv cap limit { edge with pipe := edge.pipe.consumerStep cap } := by
  have receiving := inv.receiving
  have recorded := inv.recorded
  refine inv.receive_step inv.pipe.consumerStep rfl (Spsc.consumerStep_producer cap _)
    (Spsc.consumerStep_committed cap _) rfl inv.delivered ?_ ?_
  · simp only [Receiving] at receiving ⊢
    cases stage : edge.stage with
    | returned value => exact absurd stage (running value)
    | sizing =>
        simp only [stage] at receiving
        exact receiving.consume inv.pipe
    | peeking =>
        simp only [stage] at receiving
        exact ⟨receiving.1, receiving.2.consume inv.pipe⟩
    | confirming header | dropping header | draining header =>
        simp only [stage] at receiving
        obtain ⟨message, rest, first, known, calling⟩ := receiving
        exact ⟨message, rest, first, known, calling.consume inv.pipe⟩
    | trapped => simp only [stage] at receiving
  · simp only [Recorded] at recorded ⊢
    cases stage : edge.stage with
    | returned value => exact absurd stage (running value)
    | _ =>
        simp only [stage] at recorded
        exact recorded

theorem Inv.recvStep {cap : Capacity} {limit : Nat} {edge : Edge} (inv : Inv cap limit edge) :
    Inv cap limit (edge.recvStep cap) := by
  unfold Edge.recvStep
  split
  · exact inv
  · next result quiet _ => exact inv.advance quiet
  · next running _ => exact inv.consume fun value stage => running value stage

/-! ## Runs -/

/-- Posts stay within `limit`, and every `mesh_try_recv` has room for as much. -/
def Event.Within (limit : Nat) : Event → Prop
  | .post message => message.body.length ≤ limit
  | .recv bodyCap => limit ≤ bodyCap
  | .produce | .consume => True

theorem Inv.step {cap : Capacity} {limit : Nat} {edge : Edge} (inv : Inv cap limit edge)
    {event : Event} (within : event.Within limit) : Inv cap limit (edge.step cap event) := by
  cases event with
  | post message => exact inv.startPost within
  | produce => exact inv.postStep
  | recv bodyCap => exact inv.startRecv within
  | consume => exact inv.recvStep

theorem Inv.run {cap : Capacity} {limit : Nat} {edge : Edge} (inv : Inv cap limit edge)
    {schedule : List Event} (within : ∀ event ∈ schedule, event.Within limit) :
    Inv cap limit (edge.run cap schedule) := by
  induction schedule generalizing edge with
  | nil => exact inv
  | cons event schedule ih =>
      exact ih (inv.step (within event List.mem_cons_self))
        fun other member => within other (List.mem_cons_of_mem _ member)

/-! ## Draining the pipe -/

/-- Accesses left in the running ring call. -/
def ringRank : Spsc.Consumer → Nat
  | .idle _ => 0
  | .loaded .usedSize _ => 1
  | .loaded (.peek _) _ | .loaded (.dequeue _) _ => 4
  | .loaded (.direct _) _ => 5
  | .pointing _ => 4
  | .copying _ regions _ .commit => regions.length + 2
  | .copying _ regions _ _ => regions.length + 1
  | .committing _ _ => 1

/-- Steps left after the running ring call, on the longest way. -/
def stageRank : Stage → Nat
  | .returned _ | .trapped => 0
  | .sizing => 18
  | .peeking => 13
  | .confirming _ => 11
  | .dropping _ => 6
  | .draining _ => 1

def Edge.rank (edge : Edge) : Nat :=
  match edge.stage with
  | .returned _ => 0
  | stage => stageRank stage + ringRank edge.pipe.consumer

theorem consumerStep_rank (cap : Capacity) {config : Spsc.Config}
    (busy : ∀ result, config.consumer ≠ .idle result) :
    ringRank (config.consumerStep cap).consumer < ringRank config.consumer := by
  cases running : config.consumer with
  | idle result => exact absurd running (busy result)
  | loaded op own =>
      cases op <;> simp [Spsc.Config.consumerStep, running, ringRank, readAt]
  | pointing k => simp [Spsc.Config.consumerStep, running, ringRank]
  | copying n regions got release =>
      cases regions <;> cases release <;> simp [Spsc.Config.consumerStep, running, ringRank]
  | committing got own => simp [Spsc.Config.consumerStep, running, ringRank]

def longest : Spsc.ConsumerOp → Nat
  | .usedSize => 1
  | _ => 4

theorem Calling.rank {config : Spsc.Config} {op : Spsc.ConsumerOp} {base : Bytes} {floor : Nat}
    (calling : Calling config op base floor) :
    ringRank config.consumer ≤ longest op := by
  have stands := calling.stands
  unfold Stands at stands
  split at stands
  · next running own busy =>
    obtain ⟨rfl, _⟩ := stands
    rw [busy]
    cases running with
    | direct n => exact absurd rfl (calling.copied n)
    | _ => simp [ringRank, longest]
  · next n regions got busy =>
    obtain ⟨rfl, _, two⟩ := stands
    simp only [busy, ringRank, longest]
    omega
  · next n regions got target busy =>
    obtain ⟨rfl, _, two⟩ := stands
    simp only [busy, ringRank, longest]
    omega
  · next used quiet => simp [quiet, ringRank]
  · next data quiet => simp [quiet, ringRank]
  · next data quiet => simp [quiet, ringRank]
  · exact absurd stands id

theorem Inv.rank_le {cap : Capacity} {limit : Nat} {edge : Edge} (inv : Inv cap limit edge) :
    edge.rank ≤ 19 := by
  have receiving := inv.receiving
  simp only [Receiving] at receiving
  unfold Edge.rank
  cases stage : edge.stage with
  | returned value => simp
  | trapped => simp only [stage] at receiving
  | sizing =>
      simp only [stage] at receiving
      have rank := receiving.rank
      simp only [longest] at rank
      simp only [stageRank]
      omega
  | peeking =>
      simp only [stage] at receiving
      have rank := receiving.2.rank
      simp only [longest] at rank
      simp only [stageRank]
      omega
  | confirming header | dropping header | draining header =>
      simp only [stage] at receiving
      obtain ⟨message, rest, first, known, calling⟩ := receiving
      have rank := calling.rank
      simp only [longest] at rank
      simp only [stageRank]
      omega

private theorem Inv.advance_rank {cap : Capacity} {limit : Nat} {edge : Edge}
    (inv : Inv cap limit edge) (running : ∀ value, edge.stage ≠ .returned value)
    {result : Option Spsc.Result} (quiet : edge.pipe.consumer = .idle result) :
    ∃ value, result = some value ∧ (edge.advance value).rank < edge.rank := by
  have receiving := inv.receiving
  simp only [Receiving] at receiving
  cases stage : edge.stage with
  | returned value => exact absurd stage (running value)
  | trapped => simp only [stage] at receiving
  | sizing =>
      simp only [stage] at receiving
      rcases receiving.result quiet with ⟨_, used, same⟩ | ⟨n, other, _⟩ | ⟨n, other, _⟩
      · refine ⟨.size used, same, ?_⟩
        simp only [Edge.advance, stage]
        split <;> simp [Edge.rank, Edge.ask, Spsc.Config.startConsumer, quiet, stage, ringRank, stageRank]
      · cases other
      · cases other
  | peeking =>
      simp only [stage] at receiving
      rcases receiving.2.result quiet with ⟨other, _⟩ | ⟨n, _, data, same⟩ | ⟨n, other, _⟩
      · cases other
      · refine ⟨.peeked data, same, ?_⟩
        simp only [Edge.advance, stage]
        split <;> simp [Edge.rank, Edge.ask, Spsc.Config.startConsumer, quiet, stage, ringRank, stageRank]
      · cases other
  | confirming header =>
      simp only [stage] at receiving
      obtain ⟨message, rest, first, known, calling⟩ := receiving
      rcases calling.result quiet with ⟨_, used, same⟩ | ⟨n, other, _⟩ | ⟨n, other, _⟩
      · refine ⟨.size used, same, ?_⟩
        simp only [Edge.advance, stage]
        split
        · simp [Edge.rank, stage, stageRank]
        · split <;> simp [Edge.rank, Edge.ask, Spsc.Config.startConsumer, quiet, stage, ringRank, stageRank]
      · cases other
      · cases other
  | dropping header =>
      simp only [stage] at receiving
      obtain ⟨message, rest, first, known, calling⟩ := receiving
      rcases calling.result quiet with ⟨other, _⟩ | ⟨n, other, _⟩ | ⟨n, _, data, same⟩
      · cases other
      · cases other
      · refine ⟨.released data, same, ?_⟩
        simp only [Edge.advance, stage]
        split <;> simp [Edge.rank, Edge.ask, Spsc.Config.startConsumer, quiet, stage, ringRank, stageRank]
  | draining header =>
      simp only [stage] at receiving
      obtain ⟨message, rest, first, known, calling⟩ := receiving
      rcases calling.result quiet with ⟨other, _⟩ | ⟨n, other, _⟩ | ⟨n, _, data, same⟩
      · cases other
      · cases other
      · refine ⟨.released data, same, ?_⟩
        simp [Edge.advance, stage, Edge.rank, stageRank]

theorem Inv.recvStep_rank {cap : Capacity} {limit : Nat} {edge : Edge} (inv : Inv cap limit edge)
    (running : ∀ value, edge.stage ≠ .returned value) :
    (edge.recvStep cap).rank < edge.rank := by
  have inside : (∀ result, edge.pipe.consumer ≠ .idle result) →
      ({ edge with pipe := edge.pipe.consumerStep cap } : Edge).rank < edge.rank := by
    intro busy
    have less := consumerStep_rank cap busy
    unfold Edge.rank
    cases stage : edge.stage with
    | returned value => exact absurd stage (running value)
    | _ => exact Nat.add_lt_add_left less _
  unfold Edge.recvStep
  split
  · next value stage => exact absurd stage (running value)
  · next result quiet _ =>
    obtain ⟨value, same, less⟩ := inv.advance_rank running quiet
    obtain rfl := Option.some.inj same
    exact less
  · next busy =>
    refine inside fun result quiet => ?_
    obtain ⟨value, rfl, _⟩ := inv.advance_rank running quiet
    exact busy value quiet

/-- What a consumer step leaves alone. -/
structure Kept (before after : Edge) : Prop where
  posting : after.posting = before.posting
  accepted : after.accepted = before.accepted
  recv : after.recv = before.recv
  decided : after.stage = .returned none → before.stage = .returned none

theorem Kept.refl (edge : Edge) : Kept edge edge := ⟨rfl, rfl, rfl, id⟩

theorem Kept.trans {before middle after : Edge} (first : Kept before middle)
    (last : Kept middle after) : Kept before after :=
  ⟨last.posting.trans first.posting, last.accepted.trans first.accepted,
    last.recv.trans first.recv, fun stage => first.decided (last.decided stage)⟩

theorem advance_kept (edge : Edge) (result : Spsc.Result) : Kept edge (edge.advance result) := by
  unfold Edge.advance
  split
  · split <;> exact ⟨rfl, rfl, rfl, by simp [Edge.ask]⟩
  · split <;> exact ⟨rfl, rfl, rfl, by simp [Edge.ask]⟩
  · split
    · exact ⟨rfl, rfl, rfl, by simp⟩
    · split <;> exact ⟨rfl, rfl, rfl, by simp [Edge.ask]⟩
  · split <;> exact ⟨rfl, rfl, rfl, by simp [Edge.ask]⟩
  · exact ⟨rfl, rfl, rfl, by simp⟩
  · exact .refl edge

theorem recvStep_kept (cap : Capacity) (edge : Edge) : Kept edge (edge.recvStep cap) := by
  unfold Edge.recvStep
  split
  · exact .refl edge
  · exact advance_kept edge _
  · exact ⟨rfl, rfl, rfl, id⟩

theorem consume_within (limit n : Nat) :
    ∀ event ∈ List.replicate n Event.consume, event.Within limit := by
  intro event member
  rw [List.eq_of_mem_replicate member]
  trivial

/-- A consumer step hands out one frame or none. -/
theorem Inv.recvStep_received {cap : Capacity} {limit : Nat} {edge : Edge}
    (inv : Inv cap limit edge) :
    let next := edge.recvStep cap
    next.received = edge.received ∧ next.remaining = edge.remaining ∨
      ∃ message, edge.remaining = message :: next.remaining ∧
        next.received = edge.received ++ [message.delivery] := by
  intro next
  have accepted : next.accepted = edge.accepted := (recvStep_kept cap edge).accepted
  have grown : next.received = edge.received ∨
      ∃ delivery, next.received = edge.received ++ [delivery] := by
    change (edge.recvStep cap).received = _ ∨ ∃ delivery, (edge.recvStep cap).received = _
    unfold Edge.recvStep
    split
    · exact .inl rfl
    next result _ _ =>
      unfold Edge.advance
      repeat' split
      all_goals first | exact .inl rfl | exact .inr ⟨_, rfl⟩
    · exact .inl rfl
  cases grown with
  | inl same => exact .inl ⟨same, by rw [Edge.remaining, accepted, same]; rfl⟩
  | inr more =>
      obtain ⟨delivery, more⟩ := more
      have delivered : next.received = _ := inv.recvStep.delivered
      have within : next.received.length ≤ edge.accepted.length := accepted ▸ inv.recvStep.received_le
      have length : next.received.length = edge.received.length + 1 := by
        rw [more, List.length_append, List.length_singleton]
      have inside : edge.received.length < edge.accepted.length := by omega
      refine .inr ⟨edge.accepted[edge.received.length], ?_, ?_⟩
      · rw [Edge.remaining, Edge.remaining, accepted, length]
        exact List.drop_eq_getElem_cons inside
      · rw [accepted, length, List.take_add_one, List.map_append, ← inv.delivered,
          List.getElem?_eq_getElem inside] at delivered
        exact delivered

theorem recvStep_posted (cap : Capacity) (edge : Edge) :
    (edge.recvStep cap).posted = edge.posted := by
  unfold Edge.recvStep
  split
  · rfl
  · unfold Edge.advance Edge.ask
    repeat' split
    all_goals rfl
  · rfl

/-- Enough consumer steps end the running `mesh_try_recv`. -/
theorem Inv.settle {cap : Capacity} {limit : Nat} {edge : Edge} (inv : Inv cap limit edge)
    {n : Nat} (enough : edge.rank ≤ n) :
    (∃ value, (edge.run cap (.replicate n .consume)).stage = .returned value) ∧
      Kept edge (edge.run cap (.replicate n .consume)) := by
  induction n generalizing edge with
  | zero =>
      refine ⟨?_, .refl edge⟩
      by_contra running
      have less := inv.recvStep_rank fun value stage => running ⟨value, stage⟩
      omega
  | succ n ih =>
      have next : (edge.step cap .consume).rank ≤ n := by
        cases stage : edge.stage with
        | returned value =>
            simp [Edge.step, Edge.recvStep, Edge.rank, stage]
        | _ =>
            have less := inv.recvStep_rank fun value other => by
              rw [stage] at other
              cases other
            exact Nat.le_of_lt_succ (Nat.lt_of_lt_of_le less enough)
      have rest := ih inv.recvStep next
      exact ⟨rest.1, (recvStep_kept cap edge).trans rest.2⟩

/-- One `mesh_try_recv`, run to its return while the producer is idle. -/
def tryRecv (bodyCap : Nat) : List Event := .recv bodyCap :: .replicate 19 .consume

theorem Inv.returns {cap : Capacity} {limit : Nat} {edge : Edge} (inv : Inv cap limit edge)
    {value : Option Bool} (stage : edge.stage = .returned value) {bodyCap : Nat}
    (roomy : limit ≤ bodyCap) :
    let next := edge.run cap (tryRecv bodyCap)
    Inv cap limit next ∧ next.posting = edge.posting ∧ next.accepted = edge.accepted ∧
      ((next.stage = .returned (some true) ∧ next.received.length = edge.received.length + 1) ∨
        (next.stage = .returned (some false) ∧ next.received.length = edge.received.length ∧
          edge.remaining = [])) := by
  intro next
  have started := inv.startRecv roomy
  have running : (edge.startRecv bodyCap).stage = .sizing := by simp [Edge.startRecv, stage]
  have low : (edge.startRecv bodyCap).rank ≤ 19 := by
    obtain ⟨⟨result, quiet⟩, _⟩ :
        (∃ result, edge.pipe.consumer = .idle result) ∧ edge.pipe.taken = edge.base := by
      simpa [Receiving, stage] using inv.receiving
    simp [Edge.rank, Edge.startRecv, stage, Spsc.Config.startConsumer, quiet, ringRank, stageRank]
  obtain ⟨⟨returned, ended⟩, kept⟩ := started.settle low
  have after : Inv cap limit next := started.run (consume_within limit 19)
  change next.stage = _ at ended
  change Kept _ next at kept
  have recv : next.recv = ⟨bodyCap, edge.pipe.taken, edge.pipe.published.length,
      edge.received.length⟩ := by
    rw [kept.recv]
    simp [Edge.startRecv, stage]
  have posting : next.posting = edge.posting := by
    rw [kept.posting]
    simp [Edge.startRecv, stage]
  have accepted : next.accepted = edge.accepted := by
    rw [kept.accepted]
    simp [Edge.startRecv, stage]
  refine ⟨after, posting, accepted, ?_⟩
  have recorded := after.recorded
  simp only [Recorded, ended, recv] at recorded
  cases returned with
  | none =>
      have never := kept.decided ended
      rw [running] at never
      cases never
  | some found =>
      cases found with
      | true => exact .inl ⟨ended, recorded⟩
      | false =>
          refine .inr ⟨ended, recorded.2.2, ?_⟩
          have released : edge.pipe.taken = edge.base := by
            have receiving := inv.receiving
            simp only [Receiving, stage] at receiving
            exact receiving.2
          have published := congrArg List.length inv.published
          rw [List.length_append, ← released] at published
          cases rest : edge.remaining with
          | nil => rfl
          | cons message rest' =>
              have whole := message.headerSize_le
              simp only [headerSize] at whole
              rw [rest, frames_cons, List.length_append] at published
              omega

theorem Edge.run_append (cap : Capacity) (edge : Edge) (first rest : List Event) :
    edge.run cap (first ++ rest) = (edge.run cap first).run cap rest := List.foldl_append

/-- As many calls as frames remain hand all of them out and leave nothing behind. -/
theorem Inv.drain {cap : Capacity} {limit : Nat} {edge : Edge} (inv : Inv cap limit edge)
    {value : Option Bool} (stage : edge.stage = .returned value) {bodyCaps : List Nat}
    (roomy : ∀ bodyCap ∈ bodyCaps, limit ≤ bodyCap)
    (enough : edge.remaining.length ≤ bodyCaps.length) :
    let drained := edge.run cap (bodyCaps.flatMap tryRecv)
    Inv cap limit drained ∧ drained.accepted = edge.accepted ∧ drained.remaining = [] ∧
      ∃ last, drained.stage = .returned last := by
  induction bodyCaps generalizing edge value with
  | nil =>
      have none : edge.remaining = [] := List.eq_nil_of_length_eq_zero (Nat.le_zero.mp enough)
      exact ⟨inv, rfl, none, value, stage⟩
  | cons bodyCap bodyCaps ih =>
      rw [List.flatMap_cons]
      simp only [Edge.run_append]
      obtain ⟨after, _, accepted, outcome⟩ := inv.returns stage (roomy bodyCap List.mem_cons_self)
      have left : (edge.run cap (tryRecv bodyCap)).remaining.length ≤ bodyCaps.length := by
        simp only [Edge.remaining, List.length_drop, List.length_cons, accepted] at enough ⊢
        rcases outcome with ⟨_, more⟩ | ⟨_, same, none⟩
        · omega
        · have length := congrArg List.length none
          simp only [Edge.remaining, List.length_drop, List.length_nil] at length
          omega
      obtain ⟨last, ended⟩ : ∃ last, (edge.run cap (tryRecv bodyCap)).stage = .returned last := by
        rcases outcome with ⟨ended, _⟩ | ⟨ended, _⟩
        · exact ⟨_, ended⟩
        · exact ⟨_, ended⟩
      have rest := ih after ended (fun other member => roomy other (List.mem_cons_of_mem _ member)) left
      exact ⟨rest.1, rest.2.1.trans accepted, rest.2.2⟩

theorem Inv.received_all {cap : Capacity} {limit : Nat} {edge : Edge} (inv : Inv cap limit edge)
    (none : edge.remaining = []) : edge.received = edge.accepted.map Message.delivery := by
  have all : edge.accepted.length ≤ edge.received.length := List.drop_eq_nil_iff.mp none
  have delivered := inv.delivered
  rwa [List.take_of_length_le all] at delivered

theorem Inv.nothing_waits {cap : Capacity} {limit : Nat} {edge : Edge} (inv : Inv cap limit edge)
    (none : edge.remaining = []) {value : Option Bool} (stage : edge.stage = .returned value) :
    edge.pipe.waiting = [] := by
  have receiving := inv.receiving
  simp only [Receiving, stage] at receiving
  have published := inv.published
  rw [none, frames_nil, List.append_nil, ← receiving.2] at published
  rw [Spsc.Config.waiting, published, List.drop_length]

theorem received_grows (cap : Capacity) (edge : Edge) (n : Nat) :
    edge.received <+: (edge.run cap (.replicate n .consume)).received := by
  induction n generalizing edge with
  | zero => exact List.prefix_refl _
  | succ n ih =>
      refine List.IsPrefix.trans ?_ (ih (edge.recvStep cap))
      unfold Edge.recvStep
      split
      · exact List.prefix_refl _
      · next result _ _ =>
        unfold Edge.advance
        split
        · split <;> exact List.prefix_refl _
        · split <;> exact List.prefix_refl _
        · split
          · exact List.prefix_refl _
          · split <;> exact List.prefix_refl _
        · split <;> first | exact List.prefix_append _ _ | exact List.prefix_refl _
        · exact List.prefix_append _ _
        · exact List.prefix_refl _
      · exact List.prefix_refl _

/-! ## Refused posts -/

/-- The consumer's steps do not look at what the producer is doing. -/
def Edge.withPost (edge : Edge) (producer : Spsc.Producer) (posting : Option Message)
    (posted : Option Bool) : Edge :=
  { edge with pipe := { edge.pipe with producer }, posting, posted }

def Event.OfConsumer : Event → Prop
  | .recv _ | .consume => True
  | .post _ | .produce => False

theorem ask_withPost (edge : Edge) (producer : Spsc.Producer) (posting : Option Message)
    (posted : Option Bool) (stage : Stage) (op : Spsc.ConsumerOp) :
    (edge.withPost producer posting posted).ask stage op =
      (edge.ask stage op).withPost producer posting posted := by
  simp only [Edge.ask, Edge.withPost, Spsc.Config.startConsumer]
  split <;> rfl

theorem advance_withPost (edge : Edge) (producer : Spsc.Producer) (posting : Option Message)
    (posted : Option Bool) (result : Spsc.Result) :
    (edge.withPost producer posting posted).advance result =
      (edge.advance result).withPost producer posting posted := by
  unfold Edge.advance
  simp only [ask_withPost]
  rw [show (edge.withPost producer posting posted).stage = edge.stage from rfl]
  split
  · split <;> rfl
  · split <;> rfl
  · split
    · rfl
    · rw [show (edge.withPost producer posting posted).recv = edge.recv from rfl]
      split <;> rfl
  · split <;> rfl
  · rfl
  · rfl

theorem step_withPost (cap : Capacity) (edge : Edge) (producer : Spsc.Producer)
    (posting : Option Message) (posted : Option Bool) {event : Event} (reads : event.OfConsumer) :
    (edge.withPost producer posting posted).step cap event =
      (edge.step cap event).withPost producer posting posted := by
  cases event with
  | recv bodyCap =>
      simp only [Edge.step, Edge.startRecv, Edge.withPost, Spsc.Config.startConsumer]
      split
      · split <;> rfl
      · rfl
  | consume =>
      simp only [Edge.step, Edge.recvStep]
      rw [show (edge.withPost producer posting posted).stage = edge.stage from rfl,
        show (edge.withPost producer posting posted).pipe.consumer = edge.pipe.consumer from rfl]
      split
      · rfl
      · exact advance_withPost edge producer posting posted _
      · have same := Spsc.step_with_producer cap edge.pipe producer
          (show Spsc.Event.consume.OfConsumer from trivial)
        simp only [Spsc.Config.step] at same
        simp only [Edge.withPost, same]
  | post | produce => exact absurd reads id

theorem run_withPost (cap : Capacity) (edge : Edge) (producer : Spsc.Producer)
    (posting : Option Message) (posted : Option Bool) {schedule : List Event}
    (reads : ∀ event ∈ schedule, event.OfConsumer) :
    (edge.withPost producer posting posted).run cap schedule =
      (edge.run cap schedule).withPost producer posting posted := by
  induction schedule generalizing edge with
  | nil => rfl
  | cons event schedule ih =>
      simp only [Edge.run, List.foldl_cons]
      rw [step_withPost cap edge producer posting posted (reads event List.mem_cons_self)]
      exact ih _ fun other member => reads other (List.mem_cons_of_mem _ member)

/-- A refused `mesh_post` leaves what the same schedule without it leaves. -/
theorem refused_post_invisible {cap : Capacity} {limit : Nat} {edge : Edge}
    (inv : Inv cap limit edge) (free : edge.posting = none) (message : Message)
    {receives : List Event} (reads : ∀ event ∈ receives, event.OfConsumer)
    (refused : (edge.run cap (.post message :: receives ++ [.produce])).posted = some false) :
    (edge.run cap (.post message :: receives ++ [.produce])).withPost edge.pipe.producer none
      edge.posted = edge.run cap receives := by
  obtain ⟨returned, quiet⟩ : ∃ returned, edge.pipe.producer = .idle returned := by
    simpa [Posting, free] using inv.posting
  have started : edge.step cap (.post message) =
      edge.withPost (.loaded (.enqueue2 message.header.encode message.body) edge.pipe.ring.enqueue)
        (some message) none := by
    simp only [Edge.step, Edge.startPost, free, Spsc.Config.startProducer, quiet, Edge.withPost]
  have before : edge.run cap (.post message :: receives) =
      (edge.run cap receives).withPost
        (.loaded (.enqueue2 message.header.encode message.body) edge.pipe.ring.enqueue)
        (some message) none := by
    rw [← run_withPost cap edge _ _ _ reads, ← started]
    rfl
  have same : (edge.run cap receives).withPost edge.pipe.producer none edge.posted =
      edge.run cap receives := by
    rw [← run_withPost cap edge _ _ _ reads]
    rw [show edge.withPost edge.pipe.producer none edge.posted = edge by rw [← free]; rfl]
  rw [Edge.run_append] at refused ⊢
  rw [before] at refused ⊢
  generalize edge.run cap receives = after at refused same ⊢
  change (Edge.postStep cap _).posted = _ at refused
  change (Edge.postStep cap _).withPost _ _ _ = _
  rw [← same]
  by_cases room : fits cap edge.pipe.ring.enqueue after.pipe.ring.dequeue
      (BitVec.ofNat 64 headerSize + BitVec.ofNat 64 message.body.length)
  · simp [Edge.postStep, Edge.withPost, Spsc.Config.producerStep, room] at refused
  · have short : 0 ≠ frameSize message.body.length := by
      simp only [frameSize, headerSize]
      omega
    simp [Edge.postStep, Edge.withPost, Spsc.Config.producerStep, room, short]

/-! ## Mesh framing -/

/-- The largest body that a schedule posts. -/
def largest (schedule : List Event) : Nat :=
  schedule.foldr (fun event most => match event with
    | .post message => max message.body.length most
    | _ => most) 0

theorem largest_le {schedule : List Event} {bound : Nat}
    (below : ∀ message, Event.post message ∈ schedule → message.body.length ≤ bound) :
    largest schedule ≤ bound := by
  induction schedule with
  | nil => exact Nat.zero_le _
  | cons event schedule ih =>
      have rest := ih fun message member => below message (List.mem_cons_of_mem _ member)
      cases event with
      | post message => exact Nat.max_le.mpr ⟨below message List.mem_cons_self, rest⟩
      | _ => exact rest

theorem le_largest {schedule : List Event} {message : Message}
    (member : Event.post message ∈ schedule) : message.body.length ≤ largest schedule := by
  induction schedule with
  | nil => cases member
  | cons event schedule ih =>
      rcases List.mem_cons.mp member with rfl | later
      · exact Nat.le_max_left _ _
      · cases event with
        | post other => exact Nat.le_trans (ih later) (Nat.le_max_right _ _)
        | _ => exact ih later

/-- Whole frames in order, whatever the two threads do. The conjuncts: what was
received is a prefix of what was accepted; a refused post leaves no trace; a
false `mesh_try_recv` consumed nothing; no check fires; and with the producer
idle the remaining frames all come out and the pipe ends empty. -/
theorem mesh_framing (cap : Capacity) (schedule : List Event)
    (roomy : ∀ message bodyCap, Event.post message ∈ schedule → Event.recv bodyCap ∈ schedule →
      message.body.length ≤ bodyCap) :
    let edge := Edge.init.run cap schedule
    edge.received <+: edge.accepted.map Message.delivery ∧
    (∀ message receives, edge.posting = none → (∀ event ∈ receives, event.OfConsumer) →
      (edge.run cap (.post message :: receives ++ [.produce])).posted = some false →
      (edge.run cap (.post message :: receives ++ [.produce])).withPost edge.pipe.producer none
        edge.posted = edge.run cap receives) ∧
    (edge.stage = .returned (some false) → edge.pipe.taken = edge.recv.taken) ∧
    edge.stage ≠ .trapped ∧
    (∀ bodyCaps : List Nat, edge.posting = none →
      (∀ message bodyCap, Event.post message ∈ schedule → bodyCap ∈ bodyCaps →
        message.body.length ≤ bodyCap) →
      edge.accepted.length ≤ edge.received.length + bodyCaps.length →
      let drained := edge.run cap (.replicate 19 .consume ++ bodyCaps.flatMap tryRecv)
      drained.received = edge.accepted.map Message.delivery ∧ drained.pipe.waiting = [] ∧
        ∃ last, drained.stage = .returned last) := by
  intro edge
  have within : ∀ event ∈ schedule, event.Within (largest schedule) := by
    intro event member
    cases event with
    | post message => exact le_largest member
    | recv bodyCap => exact largest_le fun message posted => roomy message bodyCap posted member
    | produce | consume => trivial
  have inv : Inv cap (largest schedule) edge := (Inv.init cap _).run within
  refine ⟨?_, ?_, ?_, ?_, ?_⟩
  · rw [inv.delivered, List.map_take]
    exact List.take_prefix _ _
  · intro message receives free reads refused
    exact refused_post_invisible inv free message reads refused
  · intro stage
    have recorded := inv.recorded
    simp only [Recorded, stage] at recorded
    exact recorded.2.1
  · intro stage
    have receiving := inv.receiving
    simp only [Receiving, stage] at receiving
  · intro bodyCaps _ wide enough drained
    obtain ⟨⟨value, stage⟩, kept⟩ := inv.settle inv.rank_le
    have settled : Inv cap (largest schedule) (edge.run cap (.replicate 19 .consume)) :=
      inv.run (consume_within _ 19)
    have read := (received_grows cap edge 19).length_le
    have drain := settled.drain stage
      (fun bodyCap member => largest_le fun message posted => wide message bodyCap posted member)
      (by simp only [Edge.remaining, List.length_drop, kept.accepted]; omega)
    simp only [← Edge.run_append] at drain
    obtain ⟨after, accepted, none, last, ended⟩ := drain
    exact ⟨after.received_all none ▸ (accepted.trans kept.accepted) ▸ rfl,
      after.nothing_waits none ended, last, ended⟩

theorem mesh_framing_one_post :
    (Edge.init.run ⟨3, by decide, by decide⟩
      (.post ⟨1, [7], by decide⟩ :: List.replicate 6 .produce ++ tryRecv 1)).received <+:
    (Edge.init.run ⟨3, by decide, by decide⟩
      (.post ⟨1, [7], by decide⟩ :: List.replicate 6 .produce ++ tryRecv 1)).accepted.map
        Message.delivery :=
  (mesh_framing ⟨3, by decide, by decide⟩ _ (by simp [tryRecv])).1

example : (Edge.init.run ⟨3, by decide, by decide⟩
    (.post ⟨1, [7], by decide⟩ :: List.replicate 6 .produce ++ tryRecv 1)).received =
      [⟨⟨1, 1⟩, [7]⟩] := by decide

end NetEngine.Mesh
