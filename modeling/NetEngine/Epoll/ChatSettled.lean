import NetEngine.Epoll.ChatFrames

/-! What a connection with bytes waiting can rely on. A `Watch` is a pair of
facts about one connection that every flush establishes, one for a queue that is
left with bytes and one for an empty queue. Both hold again for every open
connection whenever the main loop is about to wait, whatever it did before. -/

set_option autoImplicit false

namespace NetEngine.Epoll

open Socket

variable {ρ : Type}

/-- The events that a fact about the sending of a connection may depend on. -/
def Obs.Resets (fd : Fd) : Obs ρ → Prop
  | .accepted other | .send other _ _ => other = fd
  | _ => False

theorem Obs.About.not_resets {fd other : Fd} {obs : Obs ρ} (about : obs.About fd)
    (apart : other ≠ fd) : ¬ obs.Resets other := by
  cases obs <;> first | exact id | exact fun same => apart (same.symm.trans about)

structure Watch (ρ : Type) where
  busy : State ρ → Fd → Prop
  calm : State ρ → Fd → Prop

/-- The facts outlive everything but a flush or an accept of the connection, and
a flush or an accept brings about the one that is due. -/
structure Watch.Fair (watch : Watch ρ) (rules : Rules ρ) : Prop where
  stable : ∀ (state after : State ρ) (fd : Fd) (client later : Client ρ),
    state.clients fd = some client → after.clients fd = some later → later.armed = client.armed →
    (∃ more, after.trace = state.trace ++ more ∧ ∀ obs ∈ more, ¬ obs.Resets fd) →
    (watch.busy state fd → watch.busy after fd) ∧ (watch.calm state fd → watch.calm after fd)
  flush : ∀ (state after : State ρ) (fd : Fd) (later : Client ρ), Flushes rules fd state after →
    after.clients fd = some later → later.closing = false →
    (later.pending ≠ [] → watch.busy after fd) ∧ (later.pending = [] → watch.calm after fd)
  fresh : ∀ (state : State ρ) (fd : Fd), watch.calm (state.insert fd) fd

/-- Every open connection is watched, but for bytes that are marked for the next
flush pass and for the connections that a running call will still flush. -/
structure Kept (watch : Watch ρ) (rules : Rules ρ) (loose : List Fd) (state : State ρ) : Prop where
  busy : ∀ fd client, state.clients fd = some client → client.closing = false →
    client.dirty = false → fd ∉ loose → client.pending ≠ [] → watch.busy state fd
  calm : ∀ fd client, state.clients fd = some client → client.closing = false →
    client.pending = [] → watch.calm state fd
  listed : ∀ fd client, state.clients fd = some client → client.dirty = true → fd ∈ state.dirty
  immediate : rules.batchFlush = false → state.dirty = []

/-- The send side of a connection is what it was. -/
structure Client.SameSide (client later : Client ρ) : Prop where
  pending : later.pending = client.pending
  armed : later.armed = client.armed
  closing : later.closing = client.closing
  dirty : later.dirty = client.dirty

namespace Kept

variable {watch : Watch ρ} {rules : Rules ρ} {loose : List Fd} {state after : State ρ} {fd : Fd}

theorem init : Kept watch rules [] (State.init : State ρ) :=
  ⟨by simp [State.init], by simp [State.init], by simp [State.init], fun _ => rfl⟩

theorem loosen {more : List Fd} (wider : ∀ fd ∈ loose, fd ∈ more)
    (kept : Kept watch rules loose state) : Kept watch rules more state :=
  ⟨fun fd client found opened clean outside =>
    kept.busy fd client found opened clean fun inside => outside (wider fd inside),
    kept.calm, kept.listed, kept.immediate⟩

/-- Whoever is not open is not watched. -/
theorem tighten (shut : ¬ state.Open fd) (kept : Kept watch rules (fd :: loose) state) :
    Kept watch rules loose state := by
  refine ⟨fun other client found opened clean outside => ?_, kept.calm, kept.listed, kept.immediate⟩
  refine kept.busy other client found opened clean fun inside => ?_
  rcases List.mem_cons.mp inside with rfl | inside
  · exact shut ⟨client, found, opened⟩
  · exact outside inside

theorem quiet (fair : watch.Fair rules) (kept : Kept watch rules loose state)
    (side : ∀ fd later, after.clients fd = some later →
      ∃ client, state.clients fd = some client ∧ client.SameSide later)
    (dirty : after.dirty = state.dirty)
    (trace : ∃ more, after.trace = state.trace ++ more ∧ ∀ obs ∈ more, ∀ fd, ¬ obs.Resets fd) :
    Kept watch rules loose after := by
  obtain ⟨more, grown, resets⟩ := trace
  have growth : ∀ fd, ∃ more, after.trace = state.trace ++ more ∧ ∀ obs ∈ more, ¬ obs.Resets fd :=
    fun fd => ⟨more, grown, fun obs member => resets obs member fd⟩
  constructor
  · intro fd later found opened clean outside waiting
    obtain ⟨client, before, same⟩ := side fd later found
    refine (fair.stable state after fd client later before found same.armed (growth fd)).1 ?_
    exact kept.busy fd client before (same.closing.symm.trans opened) (same.dirty.symm.trans clean)
      outside (same.pending ▸ waiting)
  · intro fd later found opened empty
    obtain ⟨client, before, same⟩ := side fd later found
    refine (fair.stable state after fd client later before found same.armed (growth fd)).2 ?_
    exact kept.calm fd client before (same.closing.symm.trans opened) (same.pending.symm.trans empty)
  · intro fd later found marked
    obtain ⟨client, before, same⟩ := side fd later found
    rw [dirty]
    exact kept.listed fd client before (same.dirty.symm.trans marked)
  · intro immediate
    rw [dirty]
    exact kept.immediate immediate

theorem emit (fair : watch.Fair rules) (kept : Kept watch rules loose state) (obs : Obs ρ)
    (resets : ∀ fd, ¬ obs.Resets fd) : Kept watch rules loose (state.emit obs) :=
  kept.quiet fair (fun _ later found => ⟨later, found, rfl, rfl, rfl, rfl⟩) rfl
    ⟨[obs], rfl, by simpa using resets⟩

theorem update (fair : watch.Fair rules) (kept : Kept watch rules loose state)
    {change : Client ρ → Client ρ} (same : ∀ client : Client ρ, client.SameSide (change client)) :
    Kept watch rules loose (state.update fd change) := by
  refine kept.quiet fair (fun other later found => ?_) rfl ⟨[], (List.append_nil _).symm, by simp⟩
  by_cases own : other = fd
  · subst own
    rw [State.update_clients, Option.map_eq_some_iff] at found
    obtain ⟨client, before, rfl⟩ := found
    exact ⟨client, before, same client⟩
  · rw [State.update_clients_ne change own] at found
    exact ⟨later, found, rfl, rfl, rfl, rfl⟩

/-- A step of one connection: what is left to show is what is due to it. -/
theorem step {tight : List Fd} (fair : watch.Fair rules) (kept : Kept watch rules loose state)
    (only : Only fd state after) (marks : ∀ other ∈ state.dirty, other ∈ after.dirty)
    (immediate : rules.batchFlush = false → after.dirty = [])
    (others : ∀ other, other ≠ fd → other ∉ tight → other ∉ loose)
    (busy : ∀ later, after.clients fd = some later → later.closing = false → later.dirty = false →
      fd ∉ tight → later.pending ≠ [] → watch.busy after fd)
    (calm : ∀ later, after.clients fd = some later → later.closing = false → later.pending = [] →
      watch.calm after fd)
    (listed : ∀ later, after.clients fd = some later → later.dirty = true → fd ∈ after.dirty) :
    Kept watch rules tight after := by
  obtain ⟨more, grown, about⟩ := only.trace
  have stable : ∀ other, other ≠ fd → ∀ client, state.clients other = some client →
      (watch.busy state other → watch.busy after other) ∧
        (watch.calm state other → watch.calm after other) := fun other apart client found =>
    fair.stable state after other client client found ((only.clients other apart).trans found) rfl
      ⟨more, grown, fun obs member => (about obs member).not_resets apart⟩
  constructor
  · intro other later found opened clean outside waiting
    by_cases own : other = fd
    · subst own
      exact busy later found opened clean outside waiting
    · have before := (only.clients other own).symm.trans found
      exact (stable other own later before).1
        (kept.busy other later before opened clean (others other own outside) waiting)
  · intro other later found opened empty
    by_cases own : other = fd
    · subst own
      exact calm later found opened empty
    · have before := (only.clients other own).symm.trans found
      exact (stable other own later before).2 (kept.calm other later before opened empty)
  · intro other later found marked
    by_cases own : other = fd
    · subst own
      exact listed later found marked
    · exact marks other (kept.listed other later ((only.clients other own).symm.trans found) marked)
  · exact immediate

theorem doom (fair : watch.Fair rules) (kept : Kept watch rules loose state) :
    Kept watch rules loose (state.doom fd) := by
  have closes : ∀ later, (state.doom fd).clients fd = some later →
      later.closing = true ∧ ∃ client, state.clients fd = some client ∧ later.dirty = client.dirty := by
    intro later found
    rw [State.doom_client, Option.map_eq_some_iff] at found
    obtain ⟨client, before, rfl⟩ := found
    exact ⟨rfl, client, before, rfl⟩
  refine kept.step fair State.doom_only (by simp) (by simpa using kept.immediate)
    (fun _ _ outside => outside) ?_ ?_ ?_
  · intro later found opened
    rw [(closes later found).1] at opened
    cases opened
  · intro later found opened
    rw [(closes later found).1] at opened
    cases opened
  · intro later found marked
    obtain ⟨_, client, before, flag⟩ := closes later found
    rw [State.doom_dirty]
    exact kept.listed fd client before (flag.symm.trans marked)

/-- A queued frame leaves its connection to be flushed or marked. -/
theorem put {put : State ρ} (fair : watch.Fair rules) (kept : Kept watch rules loose state)
    (cases : put = state ∨ (∃ type payload, put = state.append fd type payload) ∨
      ∃ payload, put = state.refuse fd payload) : Kept watch rules (fd :: loose) put := by
  have wider : Kept watch rules (fd :: loose) state :=
    kept.loosen fun _ => List.mem_cons_of_mem _
  rcases cases with rfl | ⟨type, payload, rfl⟩ | ⟨payload, rfl⟩
  · exact wider
  · have appended : ∀ later, (state.append fd type payload).clients fd = some later →
        later.pending ≠ [] ∧ ∃ client, state.clients fd = some client ∧ later.dirty = client.dirty := by
      intro later found
      rw [State.append_client, Option.map_eq_some_iff] at found
      obtain ⟨client, before, rfl⟩ := found
      refine ⟨?_, client, before, rfl⟩
      simp [Framing.encode, LittleEndian.encode]
    refine wider.step fair State.append_only (fun _ => id) wider.immediate (fun _ _ => id)
      ?_ ?_ ?_
    · intro later found _ _ outside
      exact absurd List.mem_cons_self outside
    · intro later found _ empty
      exact absurd empty (appended later found).1
    · intro later found marked
      obtain ⟨_, client, before, flag⟩ := appended later found
      exact wider.listed fd client before (flag.symm.trans marked)
  · exact (wider.emit fair (.overCap fd (headerSize + payload.length)) fun _ => id).doom fair

theorem queueSend (fair : watch.Fair rules) (kept : Kept watch rules loose state) (type : UInt16)
    (payload : Bytes) : Kept watch rules (fd :: loose) (state.queueSend type payload fd) := by
  refine kept.put fair ?_
  by_cases opened : state.Open fd
  · rcases State.queueSend_cases type payload opened with ⟨_, same⟩ | ⟨_, _, same⟩ | ⟨_, _, same⟩
    · exact .inl same
    · exact .inr (.inl ⟨_, _, same⟩)
    · exact .inr (.inr ⟨_, same⟩)
  · exact .inl (State.queueSend_shut opened)

theorem queueTickFrame (fair : watch.Fair rules) (kept : Kept watch rules loose state)
    (payload : Bytes) (opened : state.Open fd) :
    Kept watch rules (fd :: loose) (state.queueTickFrame payload fd) := by
  refine kept.put fair ?_
  rcases State.queueTickFrame_cases payload opened with same | same
  · exact .inr (.inl ⟨_, _, same⟩)
  · exact .inr (.inr ⟨_, same⟩)

theorem flushes (fair : watch.Fair rules) (kept : Kept watch rules (fd :: loose) state)
    (flushes : Flushes rules fd state after) : Kept watch rules loose after := by
  obtain ⟨answers, done, modifies, rfl⟩ := id flushes
  refine kept.step fair State.flushSend_only (by simp) (by simpa using kept.immediate) ?_ ?_ ?_ ?_
  · intro other apart outside inside
    rcases List.mem_cons.mp inside with same | inside
    · exact apart same
    · exact outside inside
  · intro later found opened _ _ waiting
    exact (fair.flush _ _ fd later flushes found opened).1 waiting
  · intro later found opened empty
    exact (fair.flush _ _ fd later flushes found opened).2 empty
  · intro later found marked
    obtain ⟨client, before, flag⟩ := State.flushSend_flag found
    rw [State.flushSend_dirty]
    exact kept.listed fd client before (flag.symm.trans marked)

theorem follows (fair : watch.Fair rules) (kept : Kept watch rules (fd :: loose) state)
    (follows : Follows rules fd state after) : Kept watch rules loose after := by
  unfold Follows at follows
  split at follows
  next batch =>
    subst follows
    have others : ∀ other, other ≠ fd → other ∉ loose → other ∉ fd :: loose := by
      intro other apart outside inside
      rcases List.mem_cons.mp inside with same | inside
      · exact apart same
      · exact outside inside
    rcases State.markDirty_cases state fd with ⟨client, found, _, waiting, same⟩ | ⟨done, same⟩
    · have own : (state.markDirty fd).clients fd = some { client with dirty := true } := by
        simp [same, found]
      refine kept.step fair State.markDirty_only (by simp +contextual [same]) ?_ others ?_ ?_ ?_
      · intro immediate
        rw [batch] at immediate
        cases immediate
      · intro later laterFound _ clean
        rw [own, Option.some.injEq] at laterFound
        subst laterFound
        cases clean
      · intro later laterFound _ empty
        rw [own, Option.some.injEq] at laterFound
        subst laterFound
        exact absurd empty waiting
      · intro later _ _
        simp [same]
    · refine kept.step fair State.markDirty_only (by simp [same]) ?_ others ?_ ?_ ?_
      · intro immediate
        rw [batch] at immediate
        cases immediate
      · intro later laterFound _ clean _ waiting
        rw [same] at laterFound
        rcases done later laterFound with marked | empty
        · rw [marked] at clean
          cases clean
        · exact absurd empty waiting
      · intro later laterFound opened empty
        rw [same] at laterFound ⊢
        exact kept.calm fd later laterFound opened empty
      · intro later laterFound marked
        rw [same] at laterFound ⊢
        exact kept.listed fd later laterFound marked
  · exact kept.flushes fair follows

theorem walk (fair : watch.Fair rules) {type : UInt16} {payload : Bytes} {fds : List Fd}
    (walk : Walk rules (State.queueSend type payload) fds state after)
    (kept : Kept watch rules loose state) : Kept watch rules loose after := by
  induction walk with
  | nil => exact kept
  | skip _ _ ih => exact ih kept
  | visit _ follows _ ih => exact ih ((kept.queueSend fair type payload).follows fair follows)

theorem broadcast (fair : watch.Fair rules) {room : ρ} {type : UInt16} {payload : Bytes}
    {except : Option Fd} (broadcast : Broadcast rules room type payload except state after)
    (kept : Kept watch rules loose state) : Kept watch rules loose after := by
  obtain ⟨_, _, _, walk⟩ := broadcast
  exact Kept.walk fair walk kept

theorem ticks (fair : watch.Fair rules) (ticks : Ticks rules state after)
    (kept : Kept watch rules loose state) : Kept watch rules loose after := by
  induction ticks with
  | nil => exact kept
  | visit payload opened follows _ ih =>
      exact ih ((kept.queueTickFrame fair payload opened).follows fair follows)

/-! ## Packets and reading -/

theorem enterRoom (fair : watch.Fair rules) (kept : Kept watch rules loose state)
    (room : Option ρ) : Kept watch rules loose (state.enterRoom fd room) :=
  kept.update fair fun _ => ⟨rfl, rfl, rfl, rfl⟩

theorem setNick (fair : watch.Fair rules) (kept : Kept watch rules loose state) (nick : Bytes) :
    Kept watch rules loose (state.setNick fd nick) :=
  kept.update fair fun _ => ⟨rfl, rfl, rfl, rfl⟩

theorem setInput (fair : watch.Fair rules) (kept : Kept watch rules loose state) (input : Bytes) :
    Kept watch rules loose (state.setInput fd input) :=
  kept.update fair fun _ => ⟨rfl, rfl, rfl, rfl⟩

/-- An answer to the connection whose input is being read. -/
theorem answer (fair : watch.Fair rules) (kept : Kept watch rules [fd] state) (type : UInt16)
    (payload : Bytes) : Kept watch rules [fd] (state.queueSend type payload fd) :=
  (kept.queueSend fair type payload).loosen (by simp)

theorem packet (fair : watch.Fair rules) {type : UInt16} {payload : Bytes}
    (packet : Packet rules fd payload type state after) (kept : Kept watch rules [fd] state) :
    Kept watch rules [fd] after := by
  cases packet with
  | setNick => exact (kept.setNick fair _).answer fair _ _
  | nickFirst _ _ | roomRequired _ _ _ | joinFirst _ _ => exact kept.answer fair _ _
  | record _ _ _ => exact kept
  | chat _ _ _ broadcast => exact kept.broadcast fair broadcast
  | unknown _ _ _ => exact kept.doom fair
  | join _ _ _ leaves _ hello =>
      refine Kept.broadcast fair hello (Kept.answer fair (Kept.enterRoom fair ?_ _) _ _)
      cases leaves with
      | stay _ => exact kept
      | leave _ bye => exact (kept.broadcast fair bye).enterRoom fair _

theorem parse (fair : watch.Fair rules) (parse : Parse rules fd state after)
    (kept : Kept watch rules [fd] state) : Kept watch rules [fd] after := by
  induction parse with
  | closing _ | more _ _ _ => exact kept
  | oversize _ _ _ => exact (kept.emit fair (.oversize fd) fun _ => id).doom fair
  | @late state told _ client type payload rest _ _ _ handled _ ih =>
      have packet := Kept.packet fair handled
        (kept.emit fair (.packet state.clients fd type payload) fun _ => id)
      exact ih ((packet.emit fair _ fun _ => id).setInput fair rest)
  | @early state told _ client type payload rest _ _ _ handled _ ih =>
      have packet := Kept.packet fair handled
        ((kept.emit fair (.packet state.clients fd type payload) fun _ => id).setInput fair rest)
      exact ih (packet.emit fair _ fun _ => id)

theorem reads (fair : watch.Fair rules) {script : List (RecvAnswer UInt8)}
    (reads : Reads rules fd script state after) (kept : Kept watch rules [fd] state) :
    Kept watch rules [] after := by
  have received : ∀ {state : State ρ} (client : Client ρ) (chunk : Bytes),
      Kept watch rules [fd] state → Kept watch rules [fd] (state.receive fd client chunk) :=
    fun _ chunk kept => (kept.emit fair (.recv fd chunk) fun _ => id).setInput fair _
  induction reads with
  | drained _ follows => exact (kept.emit fair (.recv fd []) fun _ => id).follows fair follows
  | ended _ => exact ((kept.emit fair (.recv fd []) fun _ => id).doom fair).tighten State.doom_shuts
  | backlog taken _ _ =>
      exact ((kept.emit fair (.recv fd taken) fun _ => id).doom fair).tighten State.doom_shuts
  | interrupted _ ih => exact ih (kept.emit fair (.recv fd []) fun _ => id)
  | stopped _ _ parsed shut =>
      exact ((Kept.parse fair parsed (received _ _ kept)).emit fair _ fun _ => id).tighten shut
  | short _ _ _ parsed _ follows =>
      exact ((Kept.parse fair parsed (received _ _ kept)).emit fair _ fun _ => id).follows fair
        follows
  | again _ _ parsed _ _ ih =>
      exact ih ((Kept.parse fair parsed (received _ _ kept)).emit fair _ fun _ => id)

/-! ## The main loop -/

theorem insert (fair : watch.Fair rules) (kept : Kept watch rules loose state) :
    Kept watch rules loose (state.insert fd) := by
  have only : Only fd state (state.insert fd) :=
    ⟨fun other apart => by simp [State.insert, apart], [.accepted fd], rfl, by simp [Obs.About]⟩
  have new : ∀ later, (state.insert fd).clients fd = some later →
      later.pending = [] ∧ later.dirty = false := by
    intro later found
    simp only [State.insert, Function.update_self, Option.some.injEq] at found
    exact found ▸ ⟨rfl, rfl⟩
  refine kept.step fair only (fun _ => id) kept.immediate (fun _ _ => id) ?_ ?_ ?_
  · intro later found _ _ _ waiting
    exact absurd (new later found).1 waiting
  · intro _ _ _ _
    exact fair.fresh state fd
  · intro later found marked
    rw [(new later found).2] at marked
    cases marked

theorem remove (fair : watch.Fair rules) (kept : Kept watch rules loose state) :
    Kept watch rules loose (state.remove fd) := by
  refine kept.quiet fair (fun other later found => ?_) rfl ⟨[.closed fd], rfl, by simp [Obs.Resets]⟩
  by_cases own : other = fd
  · subst own
    simp [State.remove] at found
  · simp only [State.remove, ne_eq, own, not_false_eq_true, Function.update_of_ne] at found
    exact ⟨later, found, rfl, rfl, rfl, rfl⟩

theorem onAccept (fair : watch.Fair rules) (answers : List AcceptAnswer)
    (kept : Kept watch rules [] state) : Kept watch rules [] (state.onAccept rules answers) := by
  induction answers generalizing state with
  | nil => exact kept
  | cons answer answers ih =>
      cases answer with
      | interrupted | aborted => exact ih kept
      | outOfFds | failed | wouldBlock => exact kept
      | arrived fd added =>
          simp only [State.onAccept]
          split
          · exact ih kept
          · split
            · exact ih (kept.emit fair (.refused fd) fun _ => id)
            · exact ih (kept.insert fair)

theorem handles (fair : watch.Fair rules) {event : Event} (handles : Handles rules event state after)
    (kept : Kept watch rules [] state) : Kept watch rules [] after := by
  cases handles with
  | accept => exact kept.onAccept fair _
  | signal =>
      exact kept.quiet fair (fun _ later found => ⟨later, found, rfl, rfl, rfl, rfl⟩) rfl
        ⟨[], (List.append_nil _).symm, by simp⟩
  | gone _ => exact kept
  | hangup _ _ => exact kept.doom fair
  | @serve _ flushed _ what _ _ flushes reads =>
      have first : Kept watch rules [] flushed := by
        rcases flushes with ⟨_, flushes⟩ | ⟨_, same⟩
        · have loose : Kept watch rules [what.fd] state := kept.loosen (by simp)
          exact loose.flushes fair flushes
        · exact same ▸ kept
      rcases reads with ⟨_, _, reads⟩ | ⟨_, same⟩
      · exact Kept.reads fair reads (first.loosen (by simp))
      · exact same ▸ first

theorem drains (fair : watch.Fair rules) {events : List Event} (drains : Drains rules events state after)
    (kept : Kept watch rules [] state) : Kept watch rules [] after := by
  induction drains with
  | nil => exact kept
  | cons handled _ ih => exact ih (Kept.handles fair handled kept)

theorem reap (fair : watch.Fair rules) {index : Nat} (reap : Reap rules index state after)
    (kept : Kept watch rules [] state) : Kept watch rules [] after := by
  induction reap with
  | done _ =>
      exact kept.quiet fair (fun _ later found => ⟨later, found, rfl, rfl, rfl, rfl⟩) rfl
        ⟨[], (List.append_nil _).symm, by simp⟩
  | gone _ _ _ ih => exact ih kept
  | @close state _ _ _ fd _ _ _ departs _ ih =>
      refine ih (Kept.remove fair ?_)
      have noted := kept.emit fair (.departs state.clients fd) fun _ => id
      cases departs with
      | silent _ => exact noted.enterRoom fair _
      | notice _ _ told => exact Kept.broadcast fair told (noted.enterRoom fair _)

theorem clean (fair : watch.Fair rules) (kept : Kept watch rules (fd :: loose) state) :
    Kept watch rules (fd :: loose) (state.clean fd) := by
  have cleaned : ∀ later, (state.clean fd).clients fd = some later → ∃ client,
      state.clients fd = some client ∧ later = { client with dirty := false } := by
    intro later found
    rw [State.clean, State.update_clients, Option.map_eq_some_iff] at found
    obtain ⟨client, before, rfl⟩ := found
    exact ⟨client, before, rfl⟩
  refine kept.step fair (State.update_only _) (fun _ => id) kept.immediate (fun _ _ => id) ?_ ?_ ?_
  · intro later _ _ _ outside
    exact absurd List.mem_cons_self outside
  · intro later found opened empty
    obtain ⟨client, before, rfl⟩ := cleaned later found
    exact (fair.stable state _ fd client _ before found rfl
      ⟨[], (List.append_nil _).symm, by simp⟩).2 (kept.calm fd client before opened empty)
  · intro later found mark
    obtain ⟨client, _, rfl⟩ := cleaned later found
    cases mark

/-- A flush pass over a list that holds every mark takes all marks away. -/
theorem flushDirty (fair : watch.Fair rules) {fds : List Fd}
    (flush : FlushDirty rules fds state after) (kept : Kept watch rules fds state)
    (marked : ∀ fd client, state.clients fd = some client → client.dirty = true → fd ∈ fds) :
    Kept watch rules [] after ∧ after.dirty = [] ∧
      ∀ fd client, after.clients fd = some client → client.dirty = false := by
  have cleaned : ∀ {state : State ρ} {fd : Fd} {fds : List Fd},
      (∀ other client, state.clients other = some client → client.dirty = true →
        other ∈ fd :: fds) →
      ∀ other client, (state.clean fd).clients other = some client → client.dirty = true →
        other ∈ fds := by
    intro state fd fds marked other client found mark
    by_cases own : other = fd
    · subst own
      rw [State.clean, State.update_clients, Option.map_eq_some_iff] at found
      obtain ⟨before, _, rfl⟩ := found
      cases mark
    · rw [State.clean, State.update_clients_ne _ own] at found
      rcases List.mem_cons.mp (marked other client found mark) with same | inside
      · exact absurd same own
      · exact inside
  induction flush with
  | @nil state =>
      have unmarked : ∀ fd client, state.clients fd = some client → client.dirty = false := by
        intro fd client found
        cases mark : client.dirty with
        | false => rfl
        | true => exact absurd (marked fd client found mark) List.not_mem_nil
      have still : ∀ fd client, state.clients fd = some client →
          (watch.busy state fd → watch.busy { state with dirty := [] } fd) ∧
            (watch.calm state fd → watch.calm { state with dirty := [] } fd) :=
        fun fd client found => fair.stable state { state with dirty := [] } fd client client found
          found rfl ⟨[], (List.append_nil _).symm, by simp⟩
      refine ⟨⟨?_, ?_, ?_, fun _ => rfl⟩, rfl, unmarked⟩
      · intro fd client found opened clean outside waiting
        exact (still fd client found).1 (kept.busy fd client found opened clean outside waiting)
      · intro fd client found opened empty
        exact (still fd client found).2 (kept.calm fd client found opened empty)
      · intro fd client found mark
        rw [unmarked fd client found] at mark
        cases mark
  | @skip state _ fd fds shut _ ih =>
      have stillShut : ¬ (state.clean fd).Open fd := by
        rintro ⟨later, found, opened⟩
        rw [State.clean, State.update_clients, Option.map_eq_some_iff] at found
        obtain ⟨client, before, rfl⟩ := found
        exact shut ⟨client, before, opened⟩
      exact ih ((kept.clean fair).tighten stillShut) (cleaned marked)
  | @flush state flushed _ fd fds opened flushes _ ih =>
      refine ih ((kept.clean fair).flushes fair flushes) fun other client found mark => ?_
      by_cases own : other = fd
      · obtain ⟨answers, done, _, rfl⟩ := flushes
        subst own
        obtain ⟨before, beforeFound, flag⟩ := State.flushSend_flag found
        exact cleaned marked other before beforeFound (flag.symm.trans mark)
      · exact cleaned marked other client ((flushes.clients_ne own).symm.trans found) mark

theorem tail (fair : watch.Fair rules) (tail : Tail rules state after)
    (kept : Kept watch rules [] state) :
    Kept watch rules [] after ∧ after.dirty = [] ∧
      ∀ fd client, after.clients fd = some client → client.dirty = false := by
  cases tail with
  | @batch flushed reaped _ _ flush reaping again =>
      obtain ⟨first, _, _⟩ := Kept.flushDirty fair flush (kept.loosen (by simp)) kept.listed
      have second := Kept.reap fair reaping first
      exact Kept.flushDirty fair again (second.loosen (by simp)) second.listed
  | immediate immediate reaping =>
      have last := Kept.reap fair reaping kept
      have none := last.immediate immediate
      refine ⟨last, none, fun fd client found => ?_⟩
      cases mark : client.dirty with
      | false => rfl
      | true =>
          have listed := last.listed fd client found mark
          rw [none] at listed
          cases listed

end Kept

/-- Nothing is left to a later flush pass, and every open connection is watched. -/
structure Rested (watch : Watch ρ) (rules : Rules ρ) (state : State ρ) : Prop where
  kept : Kept watch rules [] state
  dirty : state.dirty = []
  clean : ∀ fd client, state.clients fd = some client → client.dirty = false

theorem Iterates.rested {watch : Watch ρ} {rules : Rules ρ} {batch : Batch} {state after : State ρ}
    (fair : watch.Fair rules) (iterates : Iterates rules batch state after)
    (kept : Kept watch rules [] state) : Rested watch rules after := by
  cases iterates with
  | @mk drained ticked _ drains ticks tail =>
      have first := Kept.drains fair drains (kept.emit fair .wake fun _ => id)
      have second : Kept watch rules [] ticked := by
        rcases ticks with ⟨_, ticks⟩ | same
        · exact first.ticks fair ticks
        · exact same ▸ first
      obtain ⟨last, dirty, clean⟩ := second.tail fair tail
      exact ⟨last, dirty, clean⟩

/-- Whenever the main loop is about to wait, everything is at rest. -/
theorem Runs.rested {watch : Watch ρ} {rules : Rules ρ} {batches : List Batch}
    {state after : State ρ} (fair : watch.Fair rules) (runs : Runs rules batches state after)
    (rested : Rested watch rules state) : Rested watch rules after := by
  induction runs with
  | nil | stop _ => exact rested
  | cons _ iterates _ ih => exact ih (iterates.rested fair rested.kept)

theorem Rested.init {watch : Watch ρ} {rules : Rules ρ} :
    Rested watch rules (State.init : State ρ) :=
  ⟨.init, rfl, by simp [State.init]⟩

/-! ## The write mask -/

/-- A queue with bytes has its `EPOLLOUT`, and an empty one does not. -/
def wakeups : Watch ρ where
  busy state fd := ∃ client, state.clients fd = some client ∧ client.armed = true
  calm state fd := ∃ client, state.clients fd = some client ∧ client.armed = false

theorem State.updateEpollMask_armed {state : State ρ} {fd : Fd} {later : Client ρ}
    (found : (state.updateEpollMask true fd).clients fd = some later) :
    later.armed = decide (later.pending ≠ []) := by
  cases before : state.clients fd with
  | none =>
      rw [updateEpollMask, before] at found
      simp only [before] at found
      cases found
  | some client =>
      rcases updateEpollMask_cases true before with ⟨armed, same⟩ | ⟨_, same⟩
      · rw [same, before, Option.some.injEq] at found
        exact found ▸ armed.symm
      · rw [same] at found
        simp only [masked, if_true, emit_clients, update_clients, before, Option.map_some,
          Option.some.injEq] at found
        exact found ▸ rfl

theorem wakeups_fair {rules : Rules ρ} (succeeds : ∀ done, rules.modifies done → done = true) :
    (wakeups : Watch ρ).Fair rules := by
  constructor
  · rintro state after fd client later found laterFound same -
    refine ⟨fun ⟨other, otherFound, armed⟩ => ?_, fun ⟨other, otherFound, armed⟩ => ?_⟩ <;>
      rw [found, Option.some.injEq] at otherFound <;>
      exact ⟨later, laterFound, same.trans (otherFound ▸ armed)⟩
  · rintro state _ fd later ⟨answers, done, modifies, rfl⟩ found opened
    have armed : later.armed = decide (later.pending ≠ []) := by
      rw [succeeds done modifies] at found
      cases before : state.clients fd with
      | none =>
          rw [State.flushSend_absent before, before] at found
          cases found
      | some client =>
          rcases State.flushSend_cases answers true before with
            ⟨_, same⟩ | ⟨_, _, same⟩ | ⟨_, _, same⟩
          · rw [same] at found
            exact State.updateEpollMask_armed found
          · rw [same, State.doom_client, Option.map_eq_some_iff] at found
            obtain ⟨_, _, rfl⟩ := found
            cases opened
          · rw [same] at found
            exact State.updateEpollMask_armed found
    exact ⟨fun waiting => ⟨later, found, by simp [armed, waiting]⟩,
      fun empty => ⟨later, found, by simp [armed, empty]⟩⟩
  · intro state fd
    exact ⟨{}, by simp [State.insert], rfl⟩

end NetEngine.Epoll
