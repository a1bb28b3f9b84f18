import NetEngine.Epoll.ChatSpecSteps

/-! The states of the event loop against the states of the chat. Names may be held in
another form; what is buffered may differ while a connection is being read. -/

set_option autoImplicit false

namespace NetEngine.Epoll

open Socket

variable {ρ : Type}

/-! ## Connections -/

structure Core.Alike (named : ρ → Bytes → Prop) (settled : Prop) (mine : Core ρ)
    (theirs : Core Bytes) : Prop where
  nick : mine.nick = theirs.nick
  room : Option.Rel named mine.room theirs.room
  closing : mine.closing = theirs.closing
  input : settled → mine.closing = false → mine.input = theirs.input

/-- The same people, in the same rooms, to whom the same was said. -/
structure Agrees (named : ρ → Bytes → Prop) (reading : Option Fd) (state : State ρ) (spec : Spec) :
    Prop where
  people : ∀ fd, Option.Rel (Core.Alike named (reading ≠ some fd)) (state.core fd) (spec.people fd)
  rooms : ∀ fd other, state.roomOf fd = state.roomOf other ↔ spec.roomOf fd = spec.roomOf other
  size : state.size = spec.online.length
  online : ∀ fd, (spec.people fd).isSome → fd ∈ spec.online
  doomed : state.doomed = spec.doomed
  running : state.running = spec.running
  stories : ∀ fd, story fd state.trace = spec.stories fd

namespace Agrees

variable {named : ρ → Bytes → Prop} {reading : Option Fd} {state after : State ρ} {spec : Spec}
  {fd other : Fd}

theorem init : Agrees named reading (State.init : State ρ) .init where
  people _ := .none
  rooms _ _ := iff_of_true rfl rfl
  size := rfl
  online _ known := by cases known
  doomed := rfl
  running := rfl
  stories _ := rfl

/-! ### Looking up -/

/-- Both sides know a descriptor, or neither does. -/
theorem pair (agrees : Agrees named reading state spec) (fd : Fd) :
    state.core fd = none ∧ spec.people fd = none ∨
      ∃ core person, state.core fd = some core ∧ spec.people fd = some person ∧
        core.Alike named (reading ≠ some fd) person := by
  have same := agrees.people fd
  generalize state.core fd = mine at same ⊢
  generalize spec.people fd = theirs at same ⊢
  cases same with
  | none => exact .inl ⟨rfl, rfl⟩
  | some alike => exact .inr ⟨_, _, rfl, rfl, alike⟩

theorem absent (agrees : Agrees named reading state spec) (gone : state.clients fd = none) :
    spec.people fd = none := by
  rcases agrees.pair fd with ⟨_, absent⟩ | ⟨core, _, found, _⟩
  · exact absent
  · rw [State.core, gone] at found
    cases found

theorem present (agrees : Agrees named reading state spec) {client : Client ρ}
    (found : state.clients fd = some client) :
    ∃ person, spec.people fd = some person ∧
      client.core.Alike named (reading ≠ some fd) person := by
  rcases agrees.pair fd with ⟨gone, _⟩ | ⟨core, person, here, known, alike⟩
  · rw [State.core_found found] at gone
    cases gone
  · rw [State.core_found found, Option.some.injEq] at here
    exact ⟨person, known, here ▸ alike⟩

theorem opens_iff (agrees : Agrees named reading state spec) :
    spec.opens fd = true ↔ state.Open fd := by
  cases found : state.clients fd with
  | none =>
      simp [Spec.opens, agrees.absent found, State.Open, found]
  | some client =>
      obtain ⟨person, here, alike⟩ := agrees.present found
      have closing : client.closing = person.closing := alike.closing
      simp [Spec.opens, here, State.open_iff found, closing]

theorem shut_iff (agrees : Agrees named reading state spec) :
    spec.opens fd = false ↔ ¬ state.Open fd := by
  rw [← agrees.opens_iff, Bool.not_eq_true]

/-! ### What sending leaves -/

theorem congr (agrees : Agrees named reading state spec) (keeps : Keeps state after)
    {stories : Fd → List Deed} (told : ∀ fd, story fd after.trace = stories fd) :
    Agrees named reading after { spec with stories } where
  people fd := by
    rw [keeps.core]
    exact agrees.people fd
  rooms fd other := by
    rw [keeps.roomOf]
    exact agrees.rooms fd other
  size := keeps.size.trans agrees.size
  online := agrees.online
  doomed := keeps.doomed.trans agrees.doomed
  running := keeps.running.trans agrees.running
  stories := told

theorem still (agrees : Agrees named reading state spec) (still : Still state after) :
    Agrees named reading after spec :=
  agrees.congr still.toKeeps fun fd => (still.story fd).trans (agrees.stories fd)

theorem say (agrees : Agrees named reading state spec) {type : UInt16} {payload : Bytes}
    {hears : Fd → Bool} {reaches : Fd → Prop} (spoken : Says reaches type payload state after)
    (same : ∀ fd, reaches fd ↔ payload.length ≤ maxPayload ∧ state.Open fd ∧ hears fd = true) :
    Agrees named reading after (spec.say hears type payload) := by
  refine agrees.congr spoken.toKeeps fun fd => ?_
  have heard := same fd
  rw [← agrees.opens_iff] at heard
  by_cases reached : reaches fd
  · rw [if_pos (heard.mp reached), spoken.told fd reached, agrees.stories]
  · rw [if_neg fun listens => reached (heard.mpr listens), spoken.rest fd reached, agrees.stories]

theorem tell (agrees : Agrees named reading state spec) {type : UInt16} {payload : Bytes}
    (smooth : Smooth (state.queueSend type payload fd).trace) :
    Agrees named reading (state.queueSend type payload fd) (spec.tell fd type payload) :=
  agrees.say (State.queueSend_spoken smooth) fun _ => by rw [decide_eq_true_eq]

theorem broadcast (agrees : Agrees named reading state spec) {rules : Rules ρ} {room : ρ}
    {name payload : Bytes} {type : UInt16} {except : Option Fd}
    (told : Broadcast rules room type payload except state after) (smooth : Smooth after.trace)
    (members : ∀ fd, some fd ≠ except →
      (state.roomOf fd = some room ↔ spec.roomOf fd = some name)) :
    Agrees named reading after (spec.broadcast name type payload except) := by
  refine agrees.say (told.spoken smooth) fun fd => ?_
  rw [decide_eq_true_eq]
  refine and_congr_right fun _ => and_congr_right fun _ => and_congr_right fun apart => ?_
  exact members fd apart

/-! ### One connection -/

/-- What becomes of one connection, alike on both sides. -/
theorem put (agrees : Agrees named reading state spec) {later : Spec} (mine : Option (Core ρ))
    (theirs : Option (Core Bytes)) (here : after.core = Function.update state.core fd mine)
    (there : later.people = Function.update spec.people fd theirs)
    (alike : Option.Rel (Core.Alike named (reading ≠ some fd)) mine theirs)
    (rooms : ∀ other, other ≠ fd →
      (state.roomOf other = mine.bind (·.room) ↔ spec.roomOf other = theirs.bind (·.room)))
    (size : after.size = later.online.length)
    (online : ∀ fd, (later.people fd).isSome → fd ∈ later.online)
    (doomed : after.doomed = later.doomed)
    (running : after.running = later.running)
    (stories : ∀ fd, story fd after.trace = later.stories fd) :
    Agrees named reading after later where
  people other := by
    rw [here, there]
    by_cases own : other = fd
    · subst own
      rw [Function.update_self, Function.update_self]
      exact alike
    · rw [Function.update_of_ne own, Function.update_of_ne own]
      exact agrees.people other
  rooms one another := by
    rw [State.roomOf_put here, Spec.roomOf_put there]
    by_cases first : one = fd
    · by_cases second : another = fd
      · rw [first, second]
        exact iff_of_true rfl rfl
      · rw [first, Function.update_self, Function.update_self, Function.update_of_ne second,
          Function.update_of_ne second, eq_comm, rooms another second, eq_comm]
    · by_cases second : another = fd
      · rw [second, Function.update_self, Function.update_self, Function.update_of_ne first,
          Function.update_of_ne first]
        exact rooms one first
      · rw [Function.update_of_ne first, Function.update_of_ne first, Function.update_of_ne second,
          Function.update_of_ne second]
        exact agrees.rooms one another
  size := size
  online := online
  doomed := doomed
  running := running
  stories := stories

/-- What changes one connection alike on both sides, and brings the same people together. -/
theorem change (agrees : Agrees named reading state spec) {change : Client ρ → Client ρ}
    (mine : Core ρ → Core ρ) (theirs : Core Bytes → Core Bytes)
    (coarse : ∀ client : Client ρ, (change client).core = mine client.core)
    (alike : ∀ {core : Core ρ} {person : Core Bytes}, state.core fd = some core →
      core.Alike named (reading ≠ some fd) person →
        (mine core).Alike named (reading ≠ some fd) (theirs person))
    (rooms : ∀ other, other ≠ fd →
      (state.roomOf other = ((state.core fd).map mine).bind (·.room) ↔
        spec.roomOf other = ((spec.people fd).map theirs).bind (·.room))) :
    Agrees named reading (state.update fd change) (spec.update fd theirs) := by
  refine agrees.put _ _ (State.update_core change mine coarse) (Spec.update_people spec fd theirs)
    ?_ rooms agrees.size (fun other here => agrees.online other ?_) agrees.doomed agrees.running
    agrees.stories
  · rcases agrees.pair fd with ⟨gone, absent⟩ | ⟨core, person, found, known, same⟩
    · rw [gone, absent]
      exact .none
    · rw [found, known]
      exact .some (alike found same)
  · rw [Spec.update_people] at here
    by_cases own : other = fd
    · rw [own, Function.update_self, Option.isSome_map] at here
      exact own ▸ here
    · rwa [Function.update_of_ne own] at here

/-- The same for a change that leaves the room. -/
theorem update (agrees : Agrees named reading state spec) {change : Client ρ → Client ρ}
    (mine : Core ρ → Core ρ) (theirs : Core Bytes → Core Bytes)
    (coarse : ∀ client : Client ρ, (change client).core = mine client.core)
    (alike : ∀ {core : Core ρ} {person : Core Bytes}, state.core fd = some core →
      core.Alike named (reading ≠ some fd) person →
        (mine core).Alike named (reading ≠ some fd) (theirs person))
    (stays : ∀ core : Core ρ, (mine core).room = core.room)
    (theirStays : ∀ person : Core Bytes, (theirs person).room = person.room) :
    Agrees named reading (state.update fd change) (spec.update fd theirs) := by
  refine agrees.change mine theirs coarse alike fun other _ => ?_
  simp only [Option.bind_map, Function.comp_def, stays, theirStays]
  exact agrees.rooms other fd

theorem setNick (agrees : Agrees named reading state spec) (nick : Bytes) :
    Agrees named reading (state.setNick fd nick)
      (spec.update fd fun person => { person with nick }) :=
  agrees.update (fun core => { core with nick }) (fun person => { person with nick }) (fun _ => rfl)
    (fun _ alike => ⟨rfl, alike.room, alike.closing, alike.input⟩) (fun _ => rfl) fun _ => rfl

theorem doom (agrees : Agrees named reading state spec) :
    Agrees named reading (state.doom fd) (spec.doom fd) := by
  by_cases opened : state.Open fd
  · have marked : Agrees named reading
        (state.update fd fun client => { client with closing := true })
        (spec.update fd fun person => { person with closing := true }) := by
      refine agrees.update (fun core => { core with closing := true })
        (fun person => { person with closing := true }) (fun _ => rfl) (fun _ alike => ?_)
        (fun _ => rfl) fun _ => rfl
      exact ⟨alike.nick, alike.room, rfl, fun _ serving => by cases serving⟩
    have noted := marked.still (State.emit_still (.doomed fd) fun _ => rfl)
    obtain ⟨client, found, closing⟩ := id opened
    rw [State.doom_open found closing, Spec.doom, if_pos (agrees.opens_iff.mpr opened)]
    exact ⟨noted.people, noted.rooms, noted.size, noted.online, by rw [agrees.doomed], noted.running,
      noted.stories⟩
  · rwa [State.doom_not_open opened, Spec.doom, if_neg fun opens => opened (agrees.opens_iff.mp opens)]

/-- The rooms of one connection, by both names. -/
theorem lodging (agrees : Agrees named reading state spec) (fd : Fd) :
    Option.Rel named (state.roomOf fd) (spec.roomOf fd) := by
  rcases agrees.pair fd with ⟨gone, absent⟩ | ⟨core, person, found, known, alike⟩
  · rw [State.roomOf, Spec.roomOf, gone, absent]
    exact .none
  · rw [State.roomOf, Spec.roomOf, found, known]
    exact alike.room

theorem nowhere_iff (agrees : Agrees named reading state spec) :
    state.roomOf fd = none ↔ spec.roomOf fd = none := by
  have same := agrees.lodging fd
  generalize state.roomOf fd = mine at same ⊢
  generalize spec.roomOf fd = theirs at same ⊢
  cases same <;> simp

theorem outside (agrees : Agrees named reading state spec) {client : Client ρ}
    {person : Core Bytes} (found : state.clients fd = some client)
    (known : spec.people fd = some person) (nowhere : client.room = none) : person.room = none := by
  rw [← Spec.roomOf_known known, ← agrees.nowhere_iff, State.roomOf_found found, nowhere]

/-- The room that a connection is in is known by one name. -/
theorem inside (agrees : Agrees named reading state spec) {client : Client ρ}
    {person : Core Bytes} (found : state.clients fd = some client)
    (known : spec.people fd = some person) {room : ρ} (inside : client.room = some room) :
    ∃ name, person.room = some name ∧
      ∀ other, state.roomOf other = some room ↔ spec.roomOf other = some name := by
  have mine : state.roomOf fd = some room := (State.roomOf_found found).trans inside
  cases theirs : person.room with
  | none =>
      have nowhere := agrees.nowhere_iff.mpr ((Spec.roomOf_known known).trans theirs)
      rw [mine] at nowhere
      cases nowhere
  | some name =>
      refine ⟨name, rfl, fun other => ?_⟩
      rw [← mine, ← theirs, ← Spec.roomOf_known known]
      exact agrees.rooms other fd

theorem quit (agrees : Agrees named reading state spec) :
    Agrees named reading (state.enterRoom fd none)
      (spec.update fd fun person => { person with room := none }) := by
  refine agrees.change (fun core => { core with room := none })
    (fun person => { person with room := none }) (fun _ => rfl)
    (fun _ alike => ⟨alike.nick, .none, alike.closing, alike.input⟩) fun other _ => ?_
  simp only [Option.bind_map, Function.comp_def, Option.bind_fun_none]
  exact agrees.nowhere_iff

theorem enter (agrees : Agrees named reading state spec) {client : Client ρ}
    (found : state.clients fd = some client) {room : ρ} {name : Bytes} (called : named room name)
    (members : ∀ other, state.roomOf other = some room ↔ spec.roomOf other = some name) :
    Agrees named reading (state.enterRoom fd (some room)) (spec.enter fd name) := by
  have moved : Agrees named reading (state.enterRoom fd (some room))
      (spec.update fd fun person => { person with room := some name }) := by
    refine agrees.change (fun core => { core with room := some room })
      (fun person => { person with room := some name }) (fun _ => rfl)
      (fun _ alike => ⟨alike.nick, .some called, alike.closing, alike.input⟩) fun other _ => ?_
    obtain ⟨person, known, _⟩ := agrees.present found
    rw [State.core_found found, known]
    exact members other
  exact ⟨moved.people, moved.rooms, moved.size, moved.online, moved.doomed, moved.running, moved.stories⟩

/-- What is buffered for a connection may move while it is being read. -/
theorem buffer (agrees : Agrees named (some fd) state spec) (input : Bytes) :
    Agrees named (some fd) (state.setInput fd input) spec := by
  have moved : Agrees named (some fd) (state.setInput fd input) (spec.update fd id) := by
    refine agrees.update (fun core => { core with input }) id (fun _ => rfl) (fun _ alike => ?_)
      (fun _ => rfl) fun _ => rfl
    exact ⟨alike.nick, alike.room, alike.closing, fun settled => absurd rfl settled⟩
  have same : spec.update fd id = spec := by
    rw [Spec.update, Option.map_id, id, Function.update_eq_self]
  exact same ▸ moved

theorem attend (agrees : Agrees named none state spec) (fd : Fd) :
    Agrees named (some fd) state spec where
  people other := by
    rcases agrees.pair other with ⟨gone, absent⟩ | ⟨core, person, found, known, alike⟩
    · rw [gone, absent]
      exact .none
    · rw [found, known]
      exact .some ⟨alike.nick, alike.room, alike.closing, fun _ => alike.input (Option.some_ne_none other).symm⟩
  rooms := agrees.rooms
  size := agrees.size
  online := agrees.online
  doomed := agrees.doomed
  running := agrees.running
  stories := agrees.stories

/-- The end of a read: what is still buffered of an open connection is known again. -/
theorem settle (agrees : Agrees named (some fd) state spec)
    (known : ∀ core person, state.core fd = some core → spec.people fd = some person →
      core.closing = false → core.input = person.input) : Agrees named none state spec where
  people other := by
    rcases agrees.pair other with ⟨gone, absent⟩ | ⟨core, person, found, here, alike⟩
    · rw [gone, absent]
      exact .none
    · rw [found, here]
      refine .some ⟨alike.nick, alike.room, alike.closing, fun _ => ?_⟩
      by_cases own : other = fd
      · subst own
        exact known core person found here
      · refine alike.input fun same => own ?_
        rw [Option.some.injEq] at same
        exact same.symm
  rooms := agrees.rooms
  size := agrees.size
  online := agrees.online
  doomed := agrees.doomed
  running := agrees.running
  stories := agrees.stories

theorem shut (agrees : Agrees named (some fd) state spec) (shut : ¬ state.Open fd) :
    Agrees named none state spec :=
  agrees.settle fun core _ found _ opened => absurd (State.open_core.mpr ⟨core, found, opened⟩) shut

end Agrees

/-! ## Packets -/

/-- The rules find the room that a name stands for. If they do not keep names `whole`, that
takes that no room in use is confused with it. -/
structure Names (rules : Rules ρ) (named : ρ → Bytes → Prop) (whole : Prop) : Prop where
  resolve : ∀ {reading : Option Fd} {left : State ρ} {spec : Spec} {name echo : Bytes} {room : ρ},
    Agrees named reading left spec → whole ∨ ¬ spec.collides name →
    rules.resolve left.clients name room echo →
    echo = name ∧ named room name ∧
      ∀ fd, left.roomOf fd = some room ↔ spec.roomOf fd = some name

section Packets

variable {named : ρ → Bytes → Prop} {whole : Prop} {rules : Rules ρ} {reading : Option Fd}
  {state after : State ρ} {spec : Spec} {fd : Fd} {payload : Bytes} {type : UInt16}

theorem Switch.agrees {client : Client ρ} {person : Core Bytes}
    (leaves : Switch rules fd client state after) (agrees : Agrees named reading state spec)
    (found : state.clients fd = some client) (known : spec.people fd = some person)
    (nick : client.nick = person.nick) (smooth : Smooth after.trace) :
    Agrees named reading after (spec.leave fd person) := by
  cases leaves with
  | stay nowhere =>
      simp only [Spec.leave, agrees.outside found known nowhere]
      exact agrees
  | leave inside bye =>
      obtain ⟨name, here, members⟩ := agrees.inside found known inside
      simp only [Spec.leave, here]
      rw [nick] at bye
      exact (agrees.broadcast bye smooth fun other _ => members other).quit

theorem Packet.agrees (names : Names rules named whole) (plain : rules.coalesce = false)
    (packet : Packet rules fd payload type state after) (live : state.Live fd)
    (agrees : Agrees named reading state spec) (smooth : Smooth after.trace)
    (clear : whole ∨ ¬ (spec.packet fd type payload).merged) :
    Agrees named reading after (spec.packet fd type payload) := by
  obtain ⟨mine, present⟩ := live
  obtain ⟨person, known, alike⟩ := agrees.present present
  have nick : mine.nick = person.nick := alike.nick
  simp only [Spec.packet, known] at clear ⊢
  cases packet with
  | setNick =>
      rw [if_pos rfl]
      exact (agrees.setNick _).tell smooth
  | nickFirst found nameless =>
      rw [present, Option.some.injEq] at found
      subst found
      rw [if_neg (by decide), if_pos rfl, if_pos (nick ▸ nameless)]
      exact agrees.tell smooth
  | roomRequired found given empty =>
      rw [present, Option.some.injEq] at found
      subst found
      rw [if_neg (by decide), if_pos rfl, if_neg (nick ▸ given), if_pos empty]
      exact agrees.tell smooth
  | @join _ left _ _ room echo found given long leaves resolved hello =>
      rw [present, Option.some.injEq] at found
      subst found
      rw [if_neg (by decide), if_pos rfl, if_neg (nick ▸ given), if_neg long] at clear ⊢
      have greeted : Sends True (fun _ => True) _ after := hello.sends trivial
      have told : Sends True (fun _ => True) (left.enterRoom fd (some room))
          ((left.enterRoom fd (some room)).queueSend sNotice (joinedNotice echo) fd) :=
        State.queueSend_sends trivial
      have before : Smooth ((left.enterRoom fd (some room)).queueSend sNotice (joinedNotice echo)
          fd).trace := smooth.before greeted.grows
      have gone := leaves.agrees agrees present known nick (before.before told.grows)
      have distinct : whole ∨ ¬ (spec.leave fd person).collides (payload.take roomMax) :=
        clear.imp id fun apart collides => apart (Bool.or_eq_true_iff.mpr (.inr collides))
      obtain ⟨rfl, called, members⟩ := names.resolve gone distinct resolved
      have still : Sends False (fun _ => True) state left := leaves.sends trivial
      obtain ⟨later, here, _⟩ := still.present fd mine present
      have entered := gone.enter here called members
      rw [nick] at hello
      refine (entered.tell before).broadcast hello smooth fun other apart => ?_
      have own : other ≠ fd := fun same => apart (same ▸ rfl)
      rw [(State.queueSend_spoken before).roomOf, State.roomOf_enterRoom own, Spec.roomOf_tell,
        Spec.roomOf_enter own]
      exact members other
  | joinFirst found nowhere =>
      rw [present, Option.some.injEq] at found
      subst found
      rw [if_neg (by decide), if_neg (by decide), if_pos rfl, agrees.outside present known nowhere]
      exact agrees.tell smooth
  | record _ _ coalesces => rw [plain] at coalesces; cases coalesces
  | @chat _ _ _ room found inside _ told =>
      rw [present, Option.some.injEq] at found
      subst found
      obtain ⟨name, here, members⟩ := agrees.inside present known inside
      rw [if_neg (by decide), if_neg (by decide), if_pos rfl, here]
      rw [nick] at told
      exact agrees.broadcast told smooth fun other _ => members other
  | unknown notNick notJoin notChat =>
      rw [if_neg notNick, if_neg notJoin, if_neg notChat]
      exact agrees.doom

end Packets

end NetEngine.Epoll
