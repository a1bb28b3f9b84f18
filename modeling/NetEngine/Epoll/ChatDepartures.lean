import NetEngine.Epoll.ChatDelivery

/-! Who is told that a connection leaves. A departure stands in the trace as a
bracket: the table that the reap found, the notices, and the close. -/

set_option autoImplicit false

namespace NetEngine.Epoll

open Socket Machine

variable {ρ : Type}

/-- Another member of a room that is not itself about to be closed. -/
def Mourns (clients : Fd → Option (Client ρ)) (fd : Fd) (room : ρ) (other : Fd)
    (member : Client ρ) : Prop :=
  other ≠ fd ∧ clients other = some member ∧ member.closing = false ∧ member.room = some room

/-- One departure: `clients` is the table when it is reaped, and `body` what that does. -/
structure Told (clients : Fd → Option (Client ρ)) (fd : Fd) (body : List (Obs ρ)) : Prop where
  notices : ∀ obs ∈ body, obs.Sending fun type => type = sNotice
  leaver : ∃ client, clients fd = some client
  told : ∀ client room, clients fd = some client → client.nick ≠ [] → client.room = some room →
    ∀ other member, Mourns clients fd room other member →
      member.pending.length + headerSize + (leftNotice client.nick).length ≤ sendCap →
      appendsTo other body = [(sNotice, leftNotice client.nick)]
  refused : ∀ client room, clients fd = some client → client.nick ≠ [] → client.room = some room →
    ∀ other member, Mourns clients fd room other member →
      sendCap < member.pending.length + headerSize + (leftNotice client.nick).length →
      appendsTo other body = [] ∧ .doomed other ∈ body
  spared : ∀ client, clients fd = some client → ∀ other,
    ¬ (client.nick ≠ [] ∧ ∃ room member, client.room = some room ∧
      Mourns clients fd room other member) → appendsTo other body = []

/-- An event outside of the departures. -/
def Obs.Aside : Obs ρ → Prop
  | .departs .. | .closed _ => False
  | _ => True

inductive Departures : List (Obs ρ) → Prop where
  | nil : Departures []
  | aside {trace : List (Obs ρ)} {obs : Obs ρ} :
      Departures trace → obs.Aside → Departures (trace ++ [obs])
  | leave {trace body : List (Obs ρ)} {clients : Fd → Option (Client ρ)} {fd : Fd} :
      Departures trace → Told clients fd body →
      Departures (trace ++ .departs clients fd :: body ++ [.closed fd])

/-! ## The walk of a notice -/

/-- A visit that the cap refuses dooms the connection. -/
theorem visit_dooms {rules : Rules ρ} {type : UInt16} {payload : Bytes} {fd : Fd}
    {state next : State ρ} (opened : state.Open fd) (short : payload.length ≤ maxPayload)
    (refuses : ¬ state.Takes fd payload)
    (follows : Follows rules fd (state.queueSend type payload fd) next) :
    ∃ more, next.trace = state.trace ++ more ∧ .doomed fd ∈ more := by
  have sends : Sends True (fun _ => True) (state.queueSend type payload fd) next := follows.sends
  obtain ⟨late, grown, _⟩ := sends.trace
  rcases State.queueSend_cases type payload opened with
    ⟨long, _⟩ | ⟨_, takes, _⟩ | ⟨_, _, same⟩
  · exact absurd short (Nat.not_le.mpr long)
  · exact absurd takes refuses
  · obtain ⟨client, found, closing⟩ := opened
    have reported : (state.emit (.overCap fd (headerSize + payload.length))).clients fd =
        some client := found
    refine ⟨[.overCap fd (headerSize + payload.length), .doomed fd] ++ late, ?_, by simp⟩
    rw [grown, same, State.refuse, State.doom_open reported closing]
    simp

theorem Walk.dooms {rules : Rules ρ} {type : UInt16} {payload : Bytes} {fds : List Fd}
    {state after : State ρ} (walk : Walk rules (State.queueSend type payload) fds state after)
    (nodup : fds.Nodup) (short : payload.length ≤ maxPayload) :
    ∃ more, after.trace = state.trace ++ more ∧
      ∀ fd ∈ fds, state.Open fd → ¬ state.Takes fd payload → .doomed fd ∈ more := by
  induction walk with
  | nil => exact ⟨[], (List.append_nil _).symm, by simp⟩
  | @skip fd fds state after shut _ ih =>
      obtain ⟨more, grown, dooms⟩ := ih nodup.of_cons
      refine ⟨more, grown, fun other member opened refuses => ?_⟩
      rcases List.mem_cons.mp member with rfl | member
      · exact absurd opened shut
      · exact dooms other member opened refuses
  | @visit fd fds state next after opened follows _ ih =>
      obtain ⟨fresh, nodup⟩ := List.nodup_cons.mp nodup
      obtain ⟨more, grown, dooms⟩ := ih nodup
      have kept : ∀ other, other ≠ fd → next.clients other = state.clients other := fun other apart =>
        (follows.clients_ne apart).trans (State.queueSend_clients_ne apart)
      have sends : Sends True (fun _ => True) state next :=
        (State.queueSend_sends trivial).trans follows.sends
      obtain ⟨own, ownTrace, _⟩ := sends.trace
      refine ⟨own ++ more, by rw [grown, ownTrace, List.append_assoc],
        fun other member otherOpen refuses => List.mem_append.mpr ?_⟩
      rcases List.mem_cons.mp member with rfl | member
      · obtain ⟨same, sameTrace, dooms⟩ := visit_dooms opened short refuses follows
        rw [ownTrace, List.append_cancel_left_eq] at sameTrace
        exact .inl (sameTrace ▸ dooms)
      · have apart : other ≠ fd := fun same => fresh (same ▸ member)
        refine .inr (dooms other member ?_ ?_)
        · rw [State.Open, kept other apart]
          exact otherOpen
        · rw [State.Takes, kept other apart]
          exact refuses

/-! ## Departures -/

theorem leftNotice_short {nick : Bytes} (short : nick.length ≤ nickMax) :
    (leftNotice nick).length ≤ maxPayload := by
  have tail : (ascii " left").length = 5 := rfl
  rw [leftNotice, List.length_append, tail]
  simp only [nickMax, maxPayload] at *
  omega

theorem Depart.tells {rules : Rules ρ} {fd : Fd} {client : Client ρ} {state told : State ρ}
    (departs : Depart rules fd client (state.emit (.departs state.clients fd)) told)
    (found : state.clients fd = some client) (short : client.nick.length ≤ nickMax) :
    ∃ body, told.trace = state.trace ++ .departs state.clients fd :: body ∧
      Told state.clients fd body := by
  have same : ∀ {other : Client ρ}, state.clients fd = some other → other = client :=
    fun otherFound => Option.some.inj (otherFound.symm.trans found)
  cases departs with
  | silent quiet =>
      refine ⟨[], by simp [State.enterRoom], by simp, ⟨client, found⟩, ?_, ?_, fun _ _ _ _ => rfl⟩
      · intro other room otherFound named inRoom
        obtain rfl := same otherFound
        rcases quiet with nowhere | unnamed
        · rw [inRoom] at nowhere
          cases nowhere
        · exact absurd unnamed named
      · intro other room otherFound named inRoom
        obtain rfl := same otherFound
        rcases quiet with nowhere | unnamed
        · rw [inRoom] at nowhere
          cases nowhere
        · exact absurd unnamed named
  | @notice _ room inRoom named tells =>
      have sends : Sends True (fun type => type = sNotice) _ told := tells.sends rfl
      obtain ⟨members, nodup, member, walk⟩ := tells
      obtain ⟨body, grown, gets, misses⟩ := walk.appends nodup
      obtain ⟨sameBody, sameGrown, dooms⟩ := walk.dooms nodup (leftNotice_short short)
      obtain ⟨lastBody, lastGrown, notices⟩ := sends.trace
      rw [grown, List.append_cancel_left_eq] at sameGrown lastGrown
      subst sameGrown lastGrown
      -- the departure of `fd` from the room changes nobody else
      have others : ∀ other, other ≠ fd →
          ((state.emit (.departs state.clients fd)).enterRoom fd none).clients other =
            state.clients other := fun other apart => by
        simp [State.enterRoom, apart]
      have listed : ∀ {other : Fd}, other ∈ members ↔
          other ≠ fd ∧ ∃ member, state.clients other = some member ∧ member.room = some room := by
        intro other
        rw [member]
        by_cases own : other = fd
        · simp [own]
        · simp only [ne_eq, Option.some.injEq, own, not_false_eq_true, true_and]
          rw [State.InRoom, others other own]
      have takes : ∀ {other : Fd} {member : Client ρ}, Mourns state.clients fd room other member →
          (State.Takes ((state.emit (.departs state.clients fd)).enterRoom fd none) other
              (leftNotice client.nick) ↔
            member.pending.length + headerSize + (leftNotice client.nick).length ≤ sendCap) := by
        rintro other member ⟨apart, memberFound, closing, _⟩
        rw [State.Takes, others other apart]
        simp [memberFound, closing]
      refine ⟨body, by rw [grown]; simp [State.enterRoom], notices, ⟨client, found⟩, ?_, ?_, ?_⟩
      · intro other there otherFound _ otherRoom mourner member mourns fits
        obtain rfl := same otherFound
        obtain rfl : room = there := Option.some.inj (inRoom.symm.trans otherRoom)
        exact gets mourner (listed.mpr ⟨mourns.1, member, mourns.2.1, mourns.2.2.2⟩)
          ⟨leftNotice_short short, (takes mourns).mpr fits⟩
      · intro other there otherFound _ otherRoom mourner member mourns beyond
        obtain rfl := same otherFound
        obtain rfl : room = there := Option.some.inj (inRoom.symm.trans otherRoom)
        have refuses := (takes mourns).not.mpr (Nat.not_le.mpr beyond)
        refine ⟨misses mourner fun took => refuses took.2.2, dooms mourner ?_ ?_ refuses⟩
        · exact listed.mpr ⟨mourns.1, member, mourns.2.1, mourns.2.2.2⟩
        · rw [State.Open, others mourner mourns.1]
          exact ⟨member, mourns.2.1, mourns.2.2.1⟩
      · intro other otherFound stranger spared
        obtain rfl := same otherFound
        refine misses stranger fun took => spared ?_
        obtain ⟨inside, _, fits⟩ := took
        obtain ⟨apart, member, memberFound, memberRoom⟩ := listed.mp inside
        obtain ⟨now, nowFound, closing, _⟩ := fits
        rw [others stranger apart, memberFound, Option.some.injEq] at nowFound
        subst nowFound
        exact ⟨named, room, member, inRoom, apart, memberFound, closing, memberRoom⟩

/-! ## Runs -/

/-- Names are as short as `c_set_nick` cuts them. -/
def ShortNicks (state : State ρ) : Prop :=
  ∀ fd client, state.clients fd = some client → client.nick.length ≤ nickMax

namespace ShortNicks

variable {state after : State ρ} {fd : Fd}

theorem sends {types : UInt16 → Prop} (short : ShortNicks state)
    (sends : Sends True types state after) : ShortNicks after := by
  intro fd later found
  obtain ⟨client, before, carries⟩ := sends.back found
  rw [carries.nick trivial]
  exact short fd client before

theorem update (short : ShortNicks state) {change : Client ρ → Client ρ}
    (cut : ∀ client : Client ρ, client.nick.length ≤ nickMax →
      (change client).nick.length ≤ nickMax) : ShortNicks (state.update fd change) := by
  intro other later found
  by_cases own : other = fd
  · subst own
    rw [State.update_clients, Option.map_eq_some_iff] at found
    obtain ⟨client, before, rfl⟩ := found
    exact cut client (short other client before)
  · rw [State.update_clients_ne _ own] at found
    exact short other later found

theorem departs {rules : Rules ρ} {client : Client ρ} (short : ShortNicks state)
    (departs : Depart rules fd client state after) : ShortNicks after := by
  cases departs with
  | silent _ => exact short.update fun _ => id
  | notice _ _ tells =>
      have left : ShortNicks (state.enterRoom fd none) := short.update fun _ => id
      have sends : Sends True (fun _ => True) _ after := tells.sends trivial
      exact left.sends sends

theorem remove (short : ShortNicks state) : ShortNicks (state.remove fd) := by
  intro other client found
  by_cases own : other = fd
  · simp [State.remove, own] at found
  · simp only [State.remove, ne_eq, own, not_false_eq_true, Function.update_of_ne] at found
    exact short other client found

end ShortNicks

namespace Departures

variable {trace more : List (Obs ρ)}

theorem grow (departures : Departures trace) (aside : ∀ obs ∈ more, obs.Aside) :
    Departures (trace ++ more) := by
  induction more generalizing trace with
  | nil => rwa [List.append_nil]
  | cons obs more ih =>
      rw [← List.singleton_append, ← List.append_assoc]
      exact ih (departures.aside (aside obs List.mem_cons_self))
        fun other member => aside other (List.mem_cons_of_mem _ member)

theorem sends {names : Prop} {types : UInt16 → Prop} {state after : State ρ}
    (departures : Departures state.trace) (sends : Sends names types state after) :
    Departures after.trace := by
  obtain ⟨more, grown, quiet⟩ := sends.trace
  rw [grown]
  refine departures.grow fun obs member => ?_
  have sending := quiet obs member
  cases obs <;> trivial

end Departures

/-- What the induction over a run carries. -/
structure Farewells (state : State ρ) : Prop where
  departures : Departures state.trace
  short : ShortNicks state

theorem Farewells.init : Farewells (State.init : State ρ) :=
  ⟨.nil, fun fd client found => by cases found⟩

theorem Farewells.sends {types : UInt16 → Prop} {state after : State ρ}
    (farewells : Farewells state) (sends : Sends True types state after) : Farewells after :=
  ⟨farewells.departures.sends sends, farewells.short.sends sends⟩

theorem farewells_events (rules : Rules ρ) :
    PreservesEvents rules (Farewells : State ρ → Prop) where
  note state fd obs notes _ farewells :=
    ⟨farewells.departures.aside (by cases obs <;> first | exact notes.elim | trivial),
      farewells.short⟩
  refused _ _ _ farewells := ⟨farewells.departures.aside trivial, farewells.short⟩
  doom state fd farewells :=
    have sends : Sends True (fun _ => True) state (state.doom fd) := State.doom_sends
    farewells.sends sends
  append state fd type payload _ farewells :=
    have sends : Sends True (fun _ => True) state (state.append fd type payload) :=
      State.append_sends trivial
    farewells.sends sends
  refuse state fd payload _ _ farewells :=
    have sends : Sends True (fun _ => True) state (state.refuse fd payload) := State.refuse_sends
    farewells.sends sends
  flush state after _ flushes farewells :=
    have sends : Sends True (fun _ => True) state after := flushes.sends
    farewells.sends sends
  mark state fd farewells :=
    have sends : Sends True (fun _ => True) state (state.markDirty fd) := State.markDirty_sends
    farewells.sends sends
  name _ _ _ short farewells := ⟨farewells.departures, farewells.short.update fun _ _ => short⟩
  enter _ _ _ farewells := ⟨farewells.departures, farewells.short.update fun _ => id⟩
  input _ _ _ farewells := ⟨farewells.departures, farewells.short.update fun _ => id⟩
  insert state fd _ farewells := by
    refine ⟨farewells.departures.aside trivial, fun other client found => ?_⟩
    by_cases own : other = fd
    · subst own
      simp only [State.insert, Function.update_self, Option.some.injEq] at found
      subst found
      exact Nat.zero_le _
    · simp only [State.insert, ne_eq, own, not_false_eq_true, Function.update_of_ne] at found
      exact farewells.short other client found
  stop _ farewells := ⟨farewells.departures, farewells.short⟩

theorem farewells_preserves (rules : Rules ρ) : Preserves rules (Farewells : State ρ → Prop) where
  toPreservesEvents := farewells_events rules
  clean _ _ farewells := ⟨farewells.departures, farewells.short.update fun _ => id⟩
  flushed _ farewells := ⟨farewells.departures, farewells.short⟩
  departed state told fd client found departs farewells := by
    obtain ⟨body, grown, tells⟩ := departs.tells found (farewells.short fd client found)
    have short : ShortNicks (state.emit (.departs state.clients fd)) := farewells.short
    refine ⟨?_, (short.departs departs).remove⟩
    change Departures (told.trace ++ [.closed fd])
    rw [grown]
    exact farewells.departures.leave tells
  reaped _ farewells := ⟨farewells.departures, farewells.short⟩

theorem Runs.farewells {rules : Rules ρ} {batches : List Batch} {state after : State ρ}
    (runs : Runs rules batches state after) (farewells : Farewells state) : Farewells after := by
  induction runs with
  | nil | stop _ => exact farewells
  | @cons state _ _ _ _ _ iterates _ ih =>
      have woken : Farewells (state.emit .wake) :=
        ⟨farewells.departures.aside trivial, farewells.short⟩
      exact ih ((farewells_preserves rules).iterates iterates woken)

/-! ## Closes and notices -/

/-- Every departure of the trace ends with the close, and tells who is to be told. -/
def DeparturesTold (trace : List (Obs ρ)) : Prop :=
  ∀ before clients fd rest, trace = before ++ .departs clients fd :: rest →
    ∃ body after, rest = body ++ .closed fd :: after ∧ Told clients fd body

/-- Every close of the trace is the end of a departure. -/
def ClosesTold (trace : List (Obs ρ)) : Prop :=
  ∀ before fd after, trace = before ++ .closed fd :: after →
    ∃ early clients body, before = early ++ .departs clients fd :: body ∧ Told clients fd body

namespace Departures

variable {trace : List (Obs ρ)}

theorem told (departures : Departures trace) : DeparturesTold trace := by
  induction departures with
  | nil =>
      intro before clients fd rest same
      cases before <;> cases same
  | @aside _ obs _ calm ih =>
      intro before clients fd rest same
      rcases split_snoc same with ⟨_, rfl, _⟩ | ⟨shorter, rfl, trace_eq⟩
      · exact calm.elim
      · obtain ⟨body, after, rfl, inside⟩ := ih before clients fd shorter trace_eq
        exact ⟨body, after ++ [obs], by simp, inside⟩
  | @leave trace body clients fd _ tells ih =>
      intro before others other rest same
      rw [List.append_assoc] at same
      rcases split_append same with ⟨inside, trace_eq, rfl⟩ | ⟨start, _, bracket⟩
      · obtain ⟨first, after, rfl, whole⟩ := ih before others other inside trace_eq
        exact ⟨first, after ++ _, by rw [List.append_assoc, List.cons_append], whole⟩
      · cases start with
        | nil =>
            obtain ⟨departs_eq, rfl⟩ := List.cons.inj bracket
            obtain ⟨rfl, rfl⟩ := Obs.departs.inj departs_eq
            exact ⟨body, [], rfl, tells⟩
        | cons first start =>
            have member : .departs others other ∈ body ++ [.closed fd] := by
              have body_eq : body ++ [.closed fd] = start ++ .departs others other :: rest :=
                (List.cons.inj bracket).2
              rw [body_eq]
              exact List.mem_append_right _ List.mem_cons_self
            rcases List.mem_append.mp member with inBody | wrong
            · exact (tells.notices _ inBody).elim
            · simp at wrong

theorem closed (departures : Departures trace) : ClosesTold trace := by
  induction departures with
  | nil =>
      intro before fd after same
      cases before <;> cases same
  | aside _ calm ih =>
      intro before fd after same
      rcases split_snoc same with ⟨_, rfl, _⟩ | ⟨shorter, rfl, trace_eq⟩
      · exact calm.elim
      · exact ih before fd shorter trace_eq
  | @leave trace body clients fd _ tells ih =>
      intro before other after same
      rcases split_snoc same with ⟨rfl, closed_eq, _⟩ | ⟨shorter, rfl, trace_eq⟩
      · obtain rfl := Obs.closed.inj closed_eq
        exact ⟨trace, clients, body, rfl, tells⟩
      · rcases split_append trace_eq with ⟨inside, trace_eq, _⟩ | ⟨start, rfl, bracket⟩
        · exact ih before other inside trace_eq
        · have member : .closed other ∈ .departs clients fd :: body := by
            rw [bracket]
            exact List.mem_append_right _ List.mem_cons_self
          rcases List.mem_cons.mp member with wrong | inBody
          · cases wrong
          · exact (tells.notices _ inBody).elim

end Departures

end NetEngine.Epoll
