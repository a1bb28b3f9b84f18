import NetEngine.Engine.RingBuffer

/-! `sds::ring_buffer` shared by one producer and one consumer. Every cursor
load, region copy and cursor publish is a step of its own; a schedule lists
which side moves next and with which call. The configuration also records the
history that the steps build up: the messages whose room test succeeded, the
messages published so far, and the bytes the consumer released. -/

set_option autoImplicit false

namespace NetEngine.RingBuffer.Spsc

open Region

inductive ProducerOp where
  | enqueue (src : Bytes)
  | enqueue2 (a b : Bytes)
  | direct (fill : Bytes)

inductive Producer where
  | idle (returned : Option Nat)
  | loaded (op : ProducerOp) (own : Cursor)
  | pointing (data : Bytes)
  | copying (copies : List (Copy UInt8)) (data : Bytes) (target : Option Cursor)
  | committing (data : Bytes) (own : Cursor)

inductive ConsumerOp where
  | usedSize
  | peek (n : Nat)
  | dequeue (n : Nat)
  | direct (n : Nat)

inductive Result where
  | size (n : Nat)
  | peeked (data : Bytes)
  | released (data : Bytes)
  deriving DecidableEq

inductive Release where
  | keep
  | publish (target : Cursor)
  | commit

inductive Consumer where
  | idle (result : Option Result)
  | loaded (op : ConsumerOp) (own : Cursor)
  | pointing (k : Nat)
  | copying (n : Nat) (regions : List (Nat × Nat)) (got : Bytes) (release : Release)
  | committing (got : Bytes) (own : Cursor)

structure Config where
  ring : Ring
  producer : Producer
  consumer : Consumer
  accepted : List Bytes
  committed : List Bytes
  taken : Bytes

def Config.init : Config := ⟨.empty, .idle none, .idle none, [], [], []⟩

def Config.published (config : Config) : Bytes := config.committed.flatten

/-- Bytes the ring took in, those still being copied included. -/
def Config.transferred (config : Config) : Nat := config.accepted.flatten.length

namespace Config

/-- The producer's next shared access. -/
def producerStep (cap : Capacity) (config : Config) : Config :=
  let ring := config.ring
  match config.producer with
  | .idle _ => config
  | .loaded (.enqueue src) own =>
      if fits cap own ring.dequeue (BitVec.ofNat 64 src.length) then
        { config with
          producer := .copying (writeAt cap own src) src (some (own + BitVec.ofNat 64 src.length))
          accepted := config.accepted ++ [src] }
      else { config with producer := .idle (some 0) }
  | .loaded (.enqueue2 a b) own =>
      let n := BitVec.ofNat 64 a.length + BitVec.ofNat 64 b.length
      if fits cap own ring.dequeue n then
        { config with
          producer := .copying (writeAt cap own a ++ writeAt cap (own + BitVec.ofNat 64 a.length) b)
            (a ++ b) (some (own + n))
          accepted := config.accepted ++ [a ++ b] }
      else { config with producer := .idle (some 0) }
  | .loaded (.direct fill) own =>
      let data := fill.take (directEnqueueSize cap own ring.dequeue)
      { config with producer := .pointing data, accepted := config.accepted ++ [data] }
  | .pointing data =>
      { config with producer := .copying [⟨cellOf cap ring.enqueue, data⟩] data none }
  | .copying (copy :: copies) data target =>
      { config with
        ring := { ring with buffer := copy.apply ring.buffer }
        producer := .copying copies data target }
  | .copying [] data (some target) =>
      { config with
        ring := { ring with enqueue := target }
        producer := .idle (some data.length)
        committed := config.committed ++ [data] }
  | .copying [] data none => { config with producer := .committing data ring.enqueue }
  | .committing data own =>
      { config with
        ring := { ring with enqueue := own + BitVec.ofNat 64 data.length }
        producer := .idle (some data.length)
        committed := config.committed ++ [data] }

/-- The consumer's next shared access. -/
def consumerStep (cap : Capacity) (config : Config) : Config :=
  let ring := config.ring
  match config.consumer with
  | .idle _ => config
  | .loaded .usedSize own =>
      { config with consumer := .idle (some (.size (ring.enqueue - own).toNat)) }
  | .loaded (.peek n) own =>
      let n := min n (ring.enqueue - own).toNat
      { config with consumer := .copying n (readAt cap own n) [] .keep }
  | .loaded (.dequeue n) own =>
      let n := min n (ring.enqueue - own).toNat
      { config with
        consumer := .copying n (readAt cap own n) [] (.publish (own + BitVec.ofNat 64 n)) }
  | .loaded (.direct n) own =>
      { config with consumer := .pointing (min n (directDequeueSize cap own ring.enqueue)) }
  | .pointing k =>
      { config with consumer := .copying k [(cellOf cap ring.dequeue, k)] [] .commit }
  | .copying n (region :: regions) got release =>
      { config with
        consumer := .copying n regions (got ++ read ring.buffer region.1 region.2) release }
  | .copying _ [] got .keep => { config with consumer := .idle (some (.peeked got)) }
  | .copying _ [] got (.publish target) =>
      { config with
        ring := { ring with dequeue := target }
        consumer := .idle (some (.released got))
        taken := config.taken ++ got }
  | .copying _ [] got .commit => { config with consumer := .committing got ring.dequeue }
  | .committing got own =>
      { config with
        ring := { ring with dequeue := own + BitVec.ofNat 64 got.length }
        consumer := .idle (some (.released got))
        taken := config.taken ++ got }

def startProducer (config : Config) (op : ProducerOp) : Config :=
  match config.producer with
  | .idle _ => { config with producer := .loaded op config.ring.enqueue }
  | _ => config

def startConsumer (config : Config) (op : ConsumerOp) : Config :=
  match config.consumer with
  | .idle _ => { config with consumer := .loaded op config.ring.dequeue }
  | _ => config

end Config

inductive Event where
  | call (op : ProducerOp)
  | produce
  | receive (op : ConsumerOp)
  | consume

/-- A call event also performs the call's first load, of the side's own cursor;
a call made while the previous one runs does not happen. -/
def Config.step (cap : Capacity) (config : Config) : Event → Config
  | .call op => config.startProducer op
  | .produce => config.producerStep cap
  | .receive op => config.startConsumer op
  | .consume => config.consumerStep cap

def Config.run (cap : Capacity) (config : Config) (schedule : List Event) : Config :=
  schedule.foldl (Config.step cap) config

/-! ## Invariant -/

/-- What the producer may rely on: its window starts at the published count and
ends within one revolution of the released count. -/
def ProducerOk (cap : Capacity) (published released : Nat) (buffer : Nat → UInt8) :
    Producer → Prop
  | .idle _ => True
  | .loaded _ own => own = BitVec.ofNat 64 published
  | .pointing data =>
      published + data.length ≤ released + cap.size ∧
        published % cap.size + data.length ≤ cap.size
  | .copying copies data target =>
      published + data.length ≤ released + cap.size ∧
        Lays cap.size published data buffer copies ∧
        ∀ cursor, target = some cursor → cursor = BitVec.ofNat 64 (published + data.length)
  | .committing data own =>
      published + data.length ≤ released + cap.size ∧
        Lays cap.size published data buffer [] ∧
        own = BitVec.ofNat 64 published

/-- What the consumer may rely on: the bytes it reads are the first of those waiting. -/
def ConsumerOk (cap : Capacity) (released : Nat) (waiting : Bytes) (buffer : Nat → UInt8) :
    Consumer → Prop
  | .idle (some (.peeked data)) => data <+: waiting
  | .idle _ => True
  | .loaded _ own => own = BitVec.ofNat 64 released
  | .pointing k => k ≤ waiting.length ∧ released % cap.size + k ≤ cap.size
  | .copying n regions got release =>
      n ≤ waiting.length ∧
        Reads cap.size released (waiting.take n) buffer got regions ∧
        ∀ cursor, release = .publish cursor → cursor = BitVec.ofNat 64 (released + n)
  | .committing got own => got <+: waiting ∧ own = BitVec.ofNat 64 released

def inFlight : Producer → List Bytes
  | .pointing data | .copying _ data _ | .committing data _ => [data]
  | _ => []

def Config.waiting (config : Config) : Bytes := config.published.drop config.taken.length

structure Inv (cap : Capacity) (config : Config) : Prop where
  enqueueCursor : config.ring.enqueue = BitVec.ofNat 64 config.published.length
  dequeueCursor : config.ring.dequeue = BitVec.ofNat 64 config.taken.length
  ordered : config.taken <+: config.published
  bounded : config.published.length ≤ config.taken.length + cap.size
  stored : window config.ring.buffer cap.size config.taken.length config.waiting.length =
    config.waiting
  producer : ProducerOk cap config.published.length config.taken.length config.ring.buffer
    config.producer
  consumer : ConsumerOk cap config.taken.length config.waiting config.ring.buffer config.consumer
  accepted : config.accepted = config.committed ++ inFlight config.producer

theorem Inv.init (cap : Capacity) : Inv cap .init where
  enqueueCursor := rfl
  dequeueCursor := rfl
  ordered := List.prefix_refl _
  bounded := Nat.zero_le _
  stored := rfl
  producer := trivial
  consumer := trivial
  accepted := rfl

theorem Config.waiting_length (config : Config) :
    config.waiting.length = config.published.length - config.taken.length :=
  List.length_drop

theorem Inv.taken_le {cap : Capacity} {config : Config} (inv : Inv cap config) :
    config.taken.length ≤ config.published.length := inv.ordered.length_le

theorem Inv.published_eq {cap : Capacity} {config : Config} (inv : Inv cap config) :
    config.published = config.taken ++ config.waiting := by
  obtain ⟨rest, joined⟩ := inv.ordered
  simp [Config.waiting, ← joined]

theorem ConsumerOk.congr {cap : Capacity} {released : Nat} {waiting : Bytes}
    {buffer other : Nat → UInt8} {consumer : Consumer}
    (valid : ConsumerOk cap released waiting buffer consumer)
    (agree : ∀ position < waiting.length,
      other ((released + position) % cap.size) = buffer ((released + position) % cap.size)) :
    ConsumerOk cap released waiting other consumer := by
  cases consumer with
  | copying n regions got release =>
      obtain ⟨within, reads, target⟩ := valid
      refine ⟨within, reads.congr ?_, target⟩
      intro position bound
      rw [List.length_take] at bound
      exact agree position (by omega)
  | idle result =>
      cases result with
      | none => trivial
      | some result => cases result <;> exact valid
  | _ => exact valid

/-- Bytes that arrive behind the waiting ones change nothing the consumer relies on. -/
theorem ConsumerOk.append {cap : Capacity} {released : Nat} {waiting : Bytes}
    {buffer : Nat → UInt8} {consumer : Consumer}
    (valid : ConsumerOk cap released waiting buffer consumer) (data : Bytes) :
    ConsumerOk cap released (waiting ++ data) buffer consumer := by
  cases consumer with
  | idle result =>
      cases result with
      | none => trivial
      | some result =>
          cases result with
          | peeked seen => exact List.IsPrefix.trans valid (List.prefix_append _ _)
          | size | released => trivial
  | loaded op own => exact valid
  | pointing k =>
      obtain ⟨within, contiguous⟩ := valid
      exact ⟨by simp only [List.length_append]; omega, contiguous⟩
  | copying n regions got release =>
      obtain ⟨within, reads, target⟩ := valid
      refine ⟨by simp only [List.length_append]; omega, ?_, target⟩
      rw [List.take_append_of_le_length within]
      exact reads
  | committing got own =>
      obtain ⟨first, loaded⟩ := valid
      exact ⟨first.trans (List.prefix_append _ _), loaded⟩

/-- Room that the consumer frees leaves the producer's window valid. -/
theorem ProducerOk.release {cap : Capacity} {published released more : Nat}
    {buffer : Nat → UInt8} {producer : Producer}
    (valid : ProducerOk cap published released buffer producer) :
    ProducerOk cap published (released + more) buffer producer := by
  cases producer with
  | idle | loaded => exact valid
  | pointing data =>
      obtain ⟨room, contiguous⟩ := valid
      exact ⟨by omega, contiguous⟩
  | copying copies data target =>
      obtain ⟨room, lays, aimed⟩ := valid
      exact ⟨by omega, lays, aimed⟩
  | committing data own =>
      obtain ⟨room, lays, loaded⟩ := valid
      exact ⟨by omega, lays, loaded⟩

/-! ## Producer steps -/

/-- Steps of the producer that touch neither the storage nor a cursor. -/
private theorem Inv.local_producer {cap : Capacity} {config : Config} (inv : Inv cap config)
    {producer : Producer} {accepted : List Bytes}
    (valid : ProducerOk cap config.published.length config.taken.length config.ring.buffer producer)
    (recorded : accepted = config.committed ++ inFlight producer) :
    Inv cap { config with producer, accepted } where
  enqueueCursor := inv.enqueueCursor
  dequeueCursor := inv.dequeueCursor
  ordered := inv.ordered
  bounded := inv.bounded
  stored := inv.stored
  producer := valid
  consumer := inv.consumer
  accepted := recorded

private theorem Inv.copy {cap : Capacity} {config : Config} (inv : Inv cap config)
    {copy : Copy UInt8} {copies : List (Copy UInt8)} {data : Bytes} {target : Option Cursor}
    (running : config.producer = .copying (copy :: copies) data target) :
    Inv cap { config with
      ring := { config.ring with buffer := copy.apply config.ring.buffer }
      producer := .copying copies data target } := by
  obtain ⟨room, lays, aimed⟩ : _ ∧ _ ∧ _ := by simpa [ProducerOk, running] using inv.producer
  have below := inv.taken_le
  -- the occupied cells end where the producer's window starts, and both fit one revolution
  have kept : ∀ position < config.waiting.length,
      copy.apply config.ring.buffer ((config.taken.length + position) % cap.size) =
        config.ring.buffer ((config.taken.length + position) % cap.size) := by
    intro position occupied
    rw [Config.waiting_length] at occupied
    apply lays.apply_outside
    intro other bound
    exact position_injective (by omega) (by omega)
  exact {
    enqueueCursor := inv.enqueueCursor
    dequeueCursor := inv.dequeueCursor
    ordered := inv.ordered
    bounded := inv.bounded
    stored := (window_congr kept).trans inv.stored
    producer := ⟨room, lays.apply, aimed⟩
    consumer := inv.consumer.congr kept
    accepted := by simpa [inFlight, running] using inv.accepted }

private theorem Inv.publish {cap : Capacity} {config : Config} (inv : Inv cap config)
    {data : Bytes} {target : Cursor} {returned : Option Nat}
    (room : config.published.length + data.length ≤ config.taken.length + cap.size)
    (lays : Lays cap.size config.published.length data config.ring.buffer [])
    (aimed : target = BitVec.ofNat 64 (config.published.length + data.length))
    (recorded : config.accepted = config.committed ++ [data]) :
    Inv cap { config with
      ring := { config.ring with enqueue := target }
      producer := .idle returned
      committed := config.committed ++ [data] } := by
  have below := inv.taken_le
  have published : (config.committed ++ [data]).flatten = config.published ++ data := by
    simp [Config.published]
  have waiting : (config.published ++ data).drop config.taken.length = config.waiting ++ data :=
    List.drop_append_of_le_length below
  have reached : config.taken.length + config.waiting.length = config.published.length := by
    rw [Config.waiting_length]
    omega
  exact {
    enqueueCursor := by simp only [Config.published, published, List.length_append, aimed]
    dequeueCursor := inv.dequeueCursor
    ordered := by
      simp only [Config.published, published]
      exact inv.ordered.trans (List.prefix_append _ _)
    bounded := by simpa only [Config.published, published, List.length_append] using room
    stored := by
      simp only [Config.waiting, Config.published, published]
      rw [← Config.published, waiting, List.length_append, window_append, inv.stored, reached,
        lays.done]
    producer := trivial
    consumer := by
      simp only [Config.waiting, Config.published, published]
      rw [← Config.published, waiting]
      exact inv.consumer.append data
    accepted := by simpa [inFlight] using recorded }

private theorem Inv.accepted_quiet {cap : Capacity} {config : Config} (inv : Inv cap config)
    {op : ProducerOp} {own : Cursor} (running : config.producer = .loaded op own) :
    config.accepted = config.committed := by
  simpa [running, inFlight] using inv.accepted

/-- A room test that succeeded on a message of real length opens its window. -/
private theorem Inv.accept {cap : Capacity} {config : Config} (inv : Inv cap config)
    {op : ProducerOp} {own : Cursor} {data : Bytes} {copies : List (Copy UInt8)}
    (running : config.producer = .loaded op own) (short : data.length < 2 ^ 63)
    (roomy : fits cap own config.ring.dequeue (BitVec.ofNat 64 data.length) = true)
    (lays : data.length ≤ cap.size →
      Lays cap.size config.published.length data config.ring.buffer copies) :
    Inv cap { config with
      producer := .copying copies data (some (own + BitVec.ofNat 64 data.length))
      accepted := config.accepted ++ [data] } := by
  have below := inv.taken_le
  have loaded : own = BitVec.ofNat 64 config.published.length := by
    simpa [ProducerOk, running] using inv.producer
  subst loaded
  rw [inv.dequeueCursor, fits_iff below inv.bounded short] at roomy
  apply inv.local_producer
  · refine ⟨roomy, lays (by omega), ?_⟩
    intro cursor same
    cases same
    exact cursor_add _ _
  · rw [inv.accepted_quiet running]
    rfl

theorem Inv.producerStep {cap : Capacity} {config : Config} (inv : Inv cap config)
    (short : ∀ data ∈ (config.producerStep cap).accepted, data.length < 2 ^ 63) :
    Inv cap (config.producerStep cap) := by
  have valid := inv.producer
  have below := inv.taken_le
  cases running : config.producer with
  | idle returned => simpa only [Config.producerStep, running] using inv
  | loaded op own =>
      have loaded : own = BitVec.ofNat 64 config.published.length := by
        simpa [ProducerOk, running] using inv.producer
      cases op with
      | enqueue src =>
          simp only [Config.producerStep, running] at short ⊢
          split
          · next roomy =>
            rw [if_pos roomy] at short
            refine inv.accept running (short src (by simp)) roomy ?_
            intro room
            rw [loaded]
            exact writeAt_lays cap _ src room _
          · exact inv.local_producer trivial (by simpa [running, inFlight] using inv.accepted)
      | enqueue2 a b =>
          simp only [Config.producerStep, running, cursor_add, ← List.length_append] at short ⊢
          split
          · next roomy =>
            rw [if_pos roomy] at short
            refine inv.accept running (short (a ++ b) (by simp)) roomy ?_
            intro room
            rw [List.length_append] at room
            rw [loaded, cursor_add]
            exact (writeAt_lays cap _ a (by omega) _).append room
              fun after => writeAt_lays cap _ b (by omega) after
          · exact inv.local_producer trivial (by simpa [running, inFlight] using inv.accepted)
      | direct fill =>
          simp only [Config.producerStep, running]
          have size : directEnqueueSize cap own config.ring.dequeue =
              min (config.taken.length + cap.size - config.published.length)
                (cap.size - config.published.length % cap.size) := by
            rw [directEnqueueSize, loaded, inv.dequeueCursor, free_eq below inv.bounded,
              cellOf_ofNat]
          have position := Nat.mod_lt config.published.length cap.size_pos
          have bounded := inv.bounded
          rw [size]
          apply inv.local_producer
          · constructor <;> rw [List.length_take] <;> omega
          · rw [inv.accepted_quiet running]
            rfl
  | pointing data =>
      obtain ⟨room, contiguous⟩ : _ ∧ _ := by simpa [ProducerOk, running] using valid
      simp only [Config.producerStep, running]
      apply inv.local_producer
      · refine ⟨room, ?_, by simp⟩
        rw [inv.enqueueCursor, cellOf_ofNat]
        exact .contiguous contiguous _
      · simpa [running, inFlight] using inv.accepted
  | copying copies data target =>
      cases copies with
      | cons copy copies => simpa only [Config.producerStep, running] using inv.copy running
      | nil =>
          obtain ⟨room, lays, aimed⟩ : _ ∧ _ ∧ _ := by simpa [ProducerOk, running] using valid
          have recorded : config.accepted = config.committed ++ [data] := by
            simpa [running, inFlight] using inv.accepted
          cases target with
          | some target =>
              simpa only [Config.producerStep, running] using
                inv.publish room lays (aimed target rfl) recorded
          | none =>
              simp only [Config.producerStep, running]
              exact inv.local_producer ⟨room, lays, inv.enqueueCursor⟩ recorded
  | committing data own =>
      obtain ⟨room, lays, loaded⟩ : _ ∧ _ ∧ _ := by simpa [ProducerOk, running] using valid
      simp only [Config.producerStep, running]
      refine inv.publish room lays ?_ (by simpa [running, inFlight] using inv.accepted)
      rw [loaded, cursor_add]

/-! ## Consumer steps -/

private theorem Inv.local_consumer {cap : Capacity} {config : Config} (inv : Inv cap config)
    {consumer : Consumer}
    (valid : ConsumerOk cap config.taken.length config.waiting config.ring.buffer consumer) :
    Inv cap { config with consumer } where
  enqueueCursor := inv.enqueueCursor
  dequeueCursor := inv.dequeueCursor
  ordered := inv.ordered
  bounded := inv.bounded
  stored := inv.stored
  producer := inv.producer
  consumer := valid
  accepted := inv.accepted

private theorem Inv.release {cap : Capacity} {config : Config} (inv : Inv cap config)
    {got : Bytes} {target : Cursor} {data : Bytes} (first : got <+: config.waiting)
    (aimed : target = BitVec.ofNat 64 (config.taken.length + got.length)) :
    Inv cap { config with
      ring := { config.ring with dequeue := target }
      consumer := .idle (some (.released data))
      taken := config.taken ++ got } := by
  obtain ⟨rest, joined⟩ := first
  have published : config.published = config.taken ++ got ++ rest := by
    rw [inv.published_eq, ← joined, List.append_assoc]
  have waiting : config.published.drop (config.taken ++ got).length = rest := by
    rw [published, List.drop_left]
  have bounded := inv.bounded
  exact {
    enqueueCursor := inv.enqueueCursor
    dequeueCursor := by rw [aimed, List.length_append]
    ordered := ⟨rest, published.symm⟩
    bounded := by simp only [Config.published, List.length_append] at bounded ⊢; omega
    stored := by
      have stored := inv.stored
      rw [← joined, List.length_append, window_append] at stored
      have split := List.append_inj_right stored (by simp)
      change window _ _ _ (config.published.drop (config.taken ++ got).length).length =
        config.published.drop (config.taken ++ got).length
      rw [waiting, List.length_append]
      exact split
    producer := by
      simp only [List.length_append]
      exact inv.producer.release
    consumer := trivial
    accepted := inv.accepted }

private theorem Inv.stored_take {cap : Capacity} {config : Config} (inv : Inv cap config)
    {n : Nat} (within : n ≤ config.waiting.length) :
    window config.ring.buffer cap.size config.taken.length n = config.waiting.take n := by
  rw [← window_take _ _ _ within, inv.stored]

private theorem Inv.waiting_le {cap : Capacity} {config : Config} (inv : Inv cap config) :
    config.waiting.length ≤ cap.size := by
  have bounded := inv.bounded
  rw [Config.waiting_length]
  omega

/-- The consumer's view of the producer cursor counts the waiting bytes. -/
theorem Inv.visible {cap : Capacity} {config : Config} (inv : Inv cap config) :
    (config.ring.enqueue - BitVec.ofNat 64 config.taken.length).toNat = config.waiting.length := by
  have size := cap.size_le
  have bounded := inv.bounded
  rw [inv.enqueueCursor, cursor_sub inv.taken_le (by omega), Config.waiting_length]

private theorem Inv.read {cap : Capacity} {config : Config} (inv : Inv cap config) {n : Nat}
    (within : n ≤ config.waiting.length) {release : Release}
    (aimed : ∀ cursor, release = .publish cursor →
      cursor = BitVec.ofNat 64 (config.taken.length + n)) :
    Inv cap { config with
      consumer := .copying n (readAt cap (BitVec.ofNat 64 config.taken.length) n) [] release } := by
  have room := inv.waiting_le
  apply inv.local_consumer
  refine ⟨within, ?_, aimed⟩
  rw [← inv.stored_take within]
  exact readAt_reads cap _ n (by omega) _

theorem Inv.consumerStep {cap : Capacity} {config : Config} (inv : Inv cap config) :
    Inv cap (config.consumerStep cap) := by
  have valid := inv.consumer
  cases running : config.consumer with
  | idle result => simpa only [Config.consumerStep, running] using inv
  | loaded op own =>
      have loaded : own = BitVec.ofNat 64 config.taken.length := by
        simpa [ConsumerOk, running] using valid
      subst loaded
      cases op with
      | usedSize =>
          simp only [Config.consumerStep, running]
          exact inv.local_consumer trivial
      | peek n =>
          simp only [Config.consumerStep, running]
          refine inv.read ?_ (fun _ same => by cases same)
          rw [inv.visible]
          exact Nat.min_le_right _ _
      | dequeue n =>
          simp only [Config.consumerStep, running]
          refine inv.read ?_ ?_
          · rw [inv.visible]
            exact Nat.min_le_right _ _
          · intro cursor same
            cases same
            exact cursor_add _ _
      | direct n =>
          simp only [Config.consumerStep, running]
          have position := Nat.mod_lt config.taken.length cap.size_pos
          apply inv.local_consumer
          rw [directDequeueSize, inv.visible, cellOf_ofNat]
          exact ⟨by omega, by omega⟩
  | pointing k =>
      obtain ⟨within, contiguous⟩ : _ ∧ _ := by simpa [ConsumerOk, running] using valid
      simp only [Config.consumerStep, running]
      apply inv.local_consumer
      refine ⟨within, ?_, fun _ same => by cases same⟩
      rw [← inv.stored_take within, inv.dequeueCursor, cellOf_ofNat]
      exact .contiguous contiguous _
  | copying n regions got release =>
      obtain ⟨within, reads, aimed⟩ : _ ∧ _ ∧ _ := by simpa [ConsumerOk, running] using valid
      cases regions with
      | cons region regions =>
          simp only [Config.consumerStep, running]
          exact inv.local_consumer ⟨within, reads.read, aimed⟩
      | nil =>
          have got_eq := reads.done
          have first : got <+: config.waiting := got_eq ▸ List.take_prefix n config.waiting
          cases release with
          | keep =>
              simp only [Config.consumerStep, running]
              exact inv.local_consumer first
          | publish target =>
              simp only [Config.consumerStep, running]
              refine inv.release first ?_
              rw [aimed target rfl, got_eq, List.length_take, Nat.min_eq_left within]
          | commit =>
              simp only [Config.consumerStep, running]
              exact inv.local_consumer ⟨first, inv.dequeueCursor⟩
  | committing got own =>
      obtain ⟨first, loaded⟩ : _ ∧ _ := by simpa [ConsumerOk, running] using valid
      simp only [Config.consumerStep, running]
      refine inv.release first ?_
      rw [loaded, cursor_add]

/-! ## Runs -/

theorem Config.run_append (cap : Capacity) (config : Config) (first rest : List Event) :
    config.run cap (first ++ rest) = (config.run cap first).run cap rest :=
  List.foldl_append

theorem Config.accepted_step (cap : Capacity) (config : Config) (event : Event) :
    config.accepted <+: (config.step cap event).accepted := by
  cases event with
  | call op =>
      simp only [Config.step, Config.startProducer]
      split <;> exact List.prefix_refl _
  | receive op =>
      simp only [Config.step, Config.startConsumer]
      split <;> exact List.prefix_refl _
  | consume =>
      simp only [Config.step, Config.consumerStep]
      split <;> exact List.prefix_refl _
  | produce =>
      simp only [Config.step, Config.producerStep]
      split
      all_goals first
        | exact List.prefix_refl _
        | exact List.prefix_append _ _
        | split <;> first | exact List.prefix_refl _ | exact List.prefix_append _ _

theorem Inv.step {cap : Capacity} {config : Config} (inv : Inv cap config) (event : Event)
    (short : ∀ data ∈ (config.step cap event).accepted, data.length < 2 ^ 63) :
    Inv cap (config.step cap event) := by
  cases event with
  | call op =>
      simp only [Config.step, Config.startProducer]
      cases running : config.producer with
      | idle returned =>
          exact inv.local_producer inv.enqueueCursor (by simpa [running, inFlight] using inv.accepted)
      | _ => exact inv
  | receive op =>
      simp only [Config.step, Config.startConsumer]
      cases config.consumer with
      | idle result => exact inv.local_consumer inv.dequeueCursor
      | _ => exact inv
  | produce => exact inv.producerStep short
  | consume => exact inv.consumerStep

/-- The invariant holds along every run whose accepted messages have real lengths. -/
theorem Inv.run {cap : Capacity} {config : Config} (inv : Inv cap config) (schedule : List Event)
    (short : ∀ data ∈ (config.run cap schedule).accepted, data.length < 2 ^ 63) :
    Inv cap (config.run cap schedule) := by
  induction schedule using List.reverseRecOn with
  | nil => exact inv
  | append_singleton schedule event ih =>
      rw [Config.run_append] at short ⊢
      have grown := Config.accepted_step cap (config.run cap schedule) event
      exact (ih fun data member => short data (grown.subset member)).step event short

theorem short_of_transferred {config : Config} (bounded : config.transferred < 2 ^ 63) :
    ∀ data ∈ config.accepted, data.length < 2 ^ 63 := by
  intro data member
  have part := (List.sublist_flatten_of_mem member).length_le
  exact Nat.lt_of_le_of_lt part bounded

theorem inv_of_bounded {cap : Capacity} {schedule : List Event}
    (bounded : (Config.init.run cap schedule).transferred < 2 ^ 63) :
    Inv cap (Config.init.run cap schedule) :=
  (Inv.init cap).run schedule (short_of_transferred bounded)

theorem Inv.intact {cap : Capacity} {config : Config} (inv : Inv cap config) {position : Nat}
    (bound : position < config.published.length) (waiting : config.taken.length ≤ position) :
    config.ring.buffer (position % cap.size) = config.published[position] := by
  obtain ⟨index, rfl⟩ := Nat.exists_eq_add_of_le waiting
  have inside : index < config.waiting.length := by
    rw [Config.waiting_length]
    omega
  have cell : (window config.ring.buffer cap.size config.taken.length
      config.waiting.length)[index]? =
      some (config.ring.buffer ((config.taken.length + index) % cap.size)) := by
    simp [window, inside]
  have value : config.waiting[index]? = some config.published[config.taken.length + index] := by
    simp [Config.waiting, List.getElem?_drop, bound]
  rw [inv.stored] at cell
  exact Option.some.inj (cell.symm.trans value)

end NetEngine.RingBuffer.Spsc
