import NetEngine.Epoll.JoinNotices
import NetEngine.Epoll.ServerSdsRuns

/-! The notice of a join in `server_sds.cpp` is read back from the room's record,
which was found by its C string: it is the joiner's own name if the records of
the occupied rooms agree with that name on its whole length. -/

set_option autoImplicit false

namespace NetEngine.Epoll.ServerSds

open Socket

/-- Occupied rooms have different C strings. -/
def TextsApart (clients : Table Bytes) : Prop :=
  ∀ fd other room room', roomIn clients fd = some room → roomIn clients other = some room' →
    text room = text room' → room = room'

namespace TextsApart

variable {clients after : Table Bytes} {fd : Fd}

theorem congr (apart : TextsApart clients) (same : roomIn after = roomIn clients) :
    TextsApart after := by
  simpa only [TextsApart, same] using apart

theorem leave (apart : TextsApart clients)
    (left : roomIn after = Function.update (roomIn clients) fd none) : TextsApart after := by
  have back : ∀ other room, roomIn after other = some room → roomIn clients other = some room := by
    intro other room inside
    rw [left, Function.update_apply] at inside
    split at inside
    · cases inside
    · exact inside
  intro other third room room' inside inside'
  exact apart other third room room' (back other room inside) (back third room' inside')

/-- A room that is found or made keeps the C strings apart. -/
theorem enter {k : Kernel} {cfg : Config} {payload echo room : Bytes} (apart : TextsApart clients)
    (resolves : Resolves (rules k cfg) clients fd payload room echo)
    (moved : roomIn after = Function.update (roomIn clients) fd (some room)) : TextsApart after := by
  obtain ⟨left, leaves, named, _, found⟩ := resolves
  have gone : TextsApart left := apart.leave leaves
  have own : ∀ other room', roomIn left other = some room' → text room' = text room →
      room' = room := by
    intro other room' inside same
    rcases found with ⟨there, client, present, occupied⟩ | ⟨_, fresh⟩
    · have member : roomIn left there = some room := by simp [roomIn, present, occupied]
      exact gone other there room' room inside member same
    · obtain ⟨client, present, occupied⟩ := Option.bind_eq_some_iff.mp inside
      exact absurd (same.trans named) (fresh other client room' present occupied)
  have split : ∀ other room', roomIn after other = some room' →
      room' = room ∨ roomIn left other = some room' := by
    intro other room' inside
    rw [moved, Function.update_apply] at inside
    split at inside
    · exact .inl (Option.some.inj inside).symm
    next apart => exact .inr (by rw [leaves, Function.update_of_ne apart, inside])
  intro other third first second inside inside' same
  rcases split other first inside with rfl | before
  · rcases split third second inside' with rfl | before'
    · rfl
    · exact (own third second before' same.symm).symm
  · rcases split third second inside' with rfl | before'
    · exact own other first before same
    · exact gone other third first second before before' same

end TextsApart

theorem greets_rule (k : Kernel) (cfg : Config) :
    PacketRule (rules k cfg) TextsApart fun clients fd type payload body =>
      TextsApart clients ∧ Greets (rules k cfg) clients fd type payload body where
  start := fun _ _ _ _ inside => nomatch inside
  sends _ _ sends apart := apart.congr sends.roomIn
  input state fd input apart := apart.congr (roomIn_update _ fun _ => rfl)
  insert state fd fresh apart := by
    have homeless : roomIn state.clients fd = none := by
      cases found : state.clients fd with
      | none => simp [roomIn, found]
      | some client => exact absurd ⟨client, found⟩ fresh
    refine apart.congr (funext fun other => ?_)
    by_cases own : other = fd
    · rw [own, homeless]
      simp [roomIn, State.insert]
    · simp [roomIn, State.insert, own]
  leave state fd apart := by
    cases found : state.clients fd with
    | none =>
        have same : roomIn (state.enterRoom fd none).clients = roomIn state.clients := by
          funext other
          by_cases own : other = fd
          · subst own
            simp [roomIn, State.enterRoom, found]
          · simp [roomIn, State.enterRoom, own]
        exact apart.congr same
    | some client => exact apart.leave (roomIn_enterRoom found none)
  remove state fd apart := by
    refine @TextsApart.leave state.clients _ fd apart (funext fun other => ?_)
    by_cases own : other = fd
    · subst own
      simp [roomIn, State.remove]
    · simp [roomIn, State.remove, own]
  packet _ _ _ _ _ _ packet apart := by
    rcases packet.roomIn with same | ⟨room, echo, resolves, moved⟩
    · exact apart.congr same
    · exact apart.enter resolves moved
  done _ _ _ _ _ _ opened packet grown apart := ⟨apart, packet.greets opened grown⟩
  unread state fd rest _ _ _ done := by
    have same : roomIn (state.setInput fd rest).clients = roomIn state.clients :=
      roomIn_update _ fun _ => rfl
    exact ⟨done.1.congr same.symm, done.2.unread⟩

/-! ## The notice -/

/-- Every room that another connection is in, and that the C string of the name
finds, begins with the name. -/
def NamesAgree (join : Join Bytes) : Prop :=
  ∀ fd room, fd ≠ join.fd → roomIn join.clients fd = some room → text room = text join.name →
    room.take join.name.length = join.name

theorem joinedNotice_injective {left right : Bytes} (same : joinedNotice left = joinedNotice right) :
    left = right :=
  List.append_cancel_left same

namespace World

variable {k : Kernel} {cfg : Config} {join : Join Bytes}

/-- The notice repeats the name exactly if the room's record agrees with it. -/
theorem echo_own_iff {room echo : Bytes} (apart : TextsApart join.clients)
    (resolves : Resolves (rules k cfg) join.clients join.fd join.payload room echo) :
    echo = join.name ↔ NamesAgree join := by
  obtain ⟨left, leaves, named, rfl, found⟩ := resolves
  have elsewhere : ∀ fd, fd ≠ join.fd → roomIn left fd = roomIn join.clients fd := fun fd other => by
    rw [leaves, Function.update_of_ne other]
  constructor
  · intro own fd room' other inside same
    rcases found with ⟨there, client, present, occupied⟩ | ⟨_, fresh⟩
    · have member : roomIn left there = some room := by simp [roomIn, present, occupied]
      have gone : TextsApart left := apart.leave leaves
      have one := gone fd there room' room ((elsewhere fd other).trans inside) member
        (same.trans named.symm)
      exact one ▸ own
    · obtain ⟨client, present, occupied⟩ :=
        Option.bind_eq_some_iff.mp ((elsewhere fd other).trans inside)
      exact absurd same (fresh fd client room' present occupied)
  · intro agree
    rcases found with ⟨there, client, present, occupied⟩ | ⟨own, _⟩
    · have member : roomIn left there = some room := by simp [roomIn, present, occupied]
      have other : there ≠ join.fd := by
        rintro rfl
        rw [leaves, Function.update_self] at member
        cases member
      exact agree there room other ((elsewhere there other).symm.trans member) named
    · exact own

/-- In every run, and of two runs, the notice of a join shows the connection its own
bytes if the occupied rooms agree with them; when the queue can take its own name,
that is when it shows them. -/
theorem join_notice_own_iff (k : Kernel) (cfg : Config) (batches : List Batch) :
    (∀ join ∈ joins (run k cfg batches).trace,
      (NamesAgree join → ∀ answer ∈ join.answers, answer = ownNotice join) ∧
      (Fits join.clients join.fd (joinedNotice join.name) →
        (join.answers = [ownNotice join] ↔ NamesAgree join))) ∧
    ∀ (k' : Kernel) (cfg' : Config) (batches' : List Batch),
      ∀ join ∈ joins (run k cfg batches).trace, ∀ other ∈ joins (run k' cfg' batches').trace,
        join.payload = other.payload → NamesAgree join → NamesAgree other →
          ∀ answer ∈ join.answers, ∀ answer' ∈ other.answers, answer = answer' := by
  have shows : ∀ (k : Kernel) (cfg : Config) (batches : List Batch),
      ∀ join ∈ joins (run k cfg batches).trace, ∃ echo,
        (echo = join.name ↔ NamesAgree join) ∧
        (Fits join.clients join.fd (joinedNotice echo) →
          join.answers = [(sNotice, joinedNotice echo)]) ∧
        (¬ Fits join.clients join.fd (joinedNotice echo) → join.answers = []) := by
    intro k cfg batches join member
    obtain ⟨_, packets⟩ := (run_runs k cfg batches).packets (greets_rule k cfg)
    obtain ⟨entering, body, answers, apart, greets⟩ := packets.joins.2 join member
    obtain ⟨room, echo, resolves, gets, misses⟩ := greets rfl entering
    exact ⟨echo, echo_own_iff apart resolves, answers ▸ gets, answers ▸ misses⟩
  have own : ∀ (k : Kernel) (cfg : Config) (batches : List Batch),
      ∀ join ∈ joins (run k cfg batches).trace, NamesAgree join →
        ∀ answer ∈ join.answers, answer = ownNotice join := by
    intro k cfg batches join member agree answer queued
    obtain ⟨echo, exactly, gets, misses⟩ := shows k cfg batches join member
    obtain rfl := exactly.mpr agree
    by_cases fits : Fits join.clients join.fd (joinedNotice join.name)
    · rw [gets fits, List.mem_singleton] at queued
      exact queued
    · rw [misses fits] at queued
      cases queued
  refine ⟨fun join member => ⟨own k cfg batches join member, fun fits => ?_⟩, ?_⟩
  · obtain ⟨echo, exactly, gets, misses⟩ := shows k cfg batches join member
    rw [← exactly]
    constructor
    · intro answered
      by_cases within : Fits join.clients join.fd (joinedNotice echo)
      · rw [gets within, ownNotice, List.cons.injEq, Prod.mk.injEq] at answered
        exact joinedNotice_injective answered.1.2
      · rw [misses within] at answered
        cases answered
    · rintro rfl
      exact gets fits
  · intro k' cfg' batches' join member other member' same agree agree' answer queued answer' queued'
    rw [own k cfg batches join member agree answer queued,
      own k' cfg' batches' other member' agree' answer' queued', ownNotice, ownNotice, Join.name,
      Join.name, same]

/-- The notice of a name without a NUL byte is always the connection's own. -/
theorem namesAgree_of_printable (printable : ∀ byte ∈ join.name, byte ≠ 0) : NamesAgree join := by
  intro fd room _ _ same
  have whole : join.name.takeWhile (· ≠ 0) = join.name :=
    List.takeWhile_eq_self_iff.mpr fun byte member => decide_eq_true (printable byte member)
  have bytes : room.takeWhile (· ≠ 0) = join.name := (congrArg CstrHashMap.Text.bytes same).trans whole
  have begins : join.name <+: room := bytes ▸ List.takeWhile_prefix _
  exact (List.prefix_iff_eq_take.mp begins).symm

/-- Connection 5 has a room, and then another one in the same slot; connection 6 joins
the second by its C string, with a name that goes on behind the NUL. -/
def slotReused (former : Bytes) : List Batch :=
  let frames (packets : List (UInt16 × Bytes)) : List (RecvAnswer UInt8) :=
    [.data (packets.flatMap fun packet => Framing.encode packet.1 packet.2)]
  [⟨[.accept [.arrived 5 true, .arrived 6 true],
    .ready ⟨5, false, false, true,
      frames [(cSetNick, ascii "a"), (cJoin, former), (cJoin, ascii "r")]⟩,
    .ready ⟨6, false, false, true,
      frames [(cSetNick, ascii "b"), (cJoin, ascii "r" ++ 0 :: ascii "mine!")]⟩], false⟩]

/-- A kernel that takes every frame. -/
def willing : Kernel := ⟨fun _ => [.took maxFrame], fun _ => true, fun _ items => items,
  fun _ items => .refl items⟩

/-- The notice shows bytes of a name that the connection never sent, and two runs that
differ in the name of a room that is gone show it different ones. -/
theorem former_name_shown :
    (¬ ∀ join ∈ joins (run willing ⟨false, false, 4, by decide⟩ (slotReused (ascii "secret one"))).trace,
      ∀ answer ∈ join.answers, answer = ownNotice join) ∧
    ∃ join ∈ joins (run willing ⟨false, false, 4, by decide⟩ (slotReused (ascii "secret one"))).trace,
    ∃ other ∈ joins (run willing ⟨false, false, 4, by decide⟩ (slotReused (ascii "silent two"))).trace,
      join.fd = 6 ∧ other.fd = 6 ∧ join.payload = other.payload ∧
        join.answers = [(sNotice, joinedNotice (ascii "r" ++ 0 :: ascii "cret "))] ∧
        other.answers = [(sNotice, joinedNotice (ascii "r" ++ 0 :: ascii "lent "))] := by
  decide +kernel

end World

end NetEngine.Epoll.ServerSds
