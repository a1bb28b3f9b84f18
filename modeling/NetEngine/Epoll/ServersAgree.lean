import NetEngine.Epoll.ChatRuns
import NetEngine.Epoll.ServerProperties
import NetEngine.Epoll.ServerSdsProperties

/-! What the peers of a server see does not depend on when it flushes, nor on its
containers - unless two names are one C string. -/

set_option autoImplicit false

namespace NetEngine.Epoll

open Socket

/-! ## Streams and stories -/

/-- The bytes of the last connection in a story. -/
def outbound (story : List Deed) : Bytes :=
  story.foldl (fun bytes deed =>
    match deed with
    | .accepted => []
    | .said type payload => bytes ++ Framing.encode type payload
    | _ => bytes) []

theorem outbound_snoc (story : List Deed) (deed : Deed) :
    outbound (story ++ [deed]) =
      match deed with
      | .accepted => []
      | .said type payload => outbound story ++ Framing.encode type payload
      | _ => outbound story := by
  rw [outbound, List.foldl_append]
  rfl

theorem queued_story {ρ : Type} (fd : Fd) (trace : List (Obs ρ)) :
    (stream fd trace).queued = outbound (story fd trace) := by
  induction trace using List.reverseRecOn with
  | nil => rfl
  | append_singleton trace obs ih =>
      rw [stream_snoc]
      cases shows : obs.deed fd with
      | none =>
          rw [story_quiet shows, ← ih]
          cases obs with
          | accepted other | append other _ _ | send other _ _ =>
              by_cases own : other = fd <;> simp_all [Obs.deed, Stream.note]
          | _ => rfl
      | some deed =>
          rw [story_deed shows, outbound_snoc, ← ih]
          cases obs with
          | wake => cases shows; rfl
          | accepted other | append other _ _ | closed other =>
              by_cases own : other = fd
              · simp only [Obs.deed, own, if_true, Option.some.injEq] at shows
                subst shows
                simp [Stream.note, own]
              · simp [Obs.deed, own] at shows
          | _ => cases shows

/-- Two runs show their peers the same: on each descriptor the same connections get the
same frames and are closed in the same iterations. -/
structure ShowSame (mine yours : List (Obs Bytes)) : Prop where
  stories : ∀ fd, story fd mine = story fd yours
  streams : ∀ fd, (stream fd mine).queued = (stream fd yours).queued

theorem Agrees.showSame {named : Bytes → Bytes → Prop} {called : Bytes → Bytes → Prop}
    {mine yours : State Bytes} {spec : Spec} (first : Agrees named none mine spec)
    (second : Agrees called none yours spec) : ShowSame mine.trace yours.trace := by
  have stories : ∀ fd, story fd mine.trace = story fd yours.trace :=
    fun fd => (first.stories fd).trans (second.stories fd).symm
  exact ⟨stories, fun fd => by rw [queued_story, queued_story, stories]⟩

/-! ## Flush modes -/

namespace Server

theorem Agrees.names {reading : Option Fd} {state : State Bytes} {spec : Spec}
    (agrees : Agrees Eq reading state spec) (fd : Fd) : state.roomOf fd = spec.roomOf fd := by
  have same := agrees.lodging fd
  generalize state.roomOf fd = mine at same ⊢
  generalize spec.roomOf fd = theirs at same ⊢
  cases same with
  | none => rfl
  | some same => rw [same]

theorem rules_names (k : Kernel) (cfg : Config) : Names (rules k cfg) Eq True where
  resolve := by
    rintro reading left spec name _ _ agrees _ ⟨rfl, rfl⟩
    exact ⟨rfl, rfl, fun fd => by rw [Agrees.names agrees]⟩

theorem rules_plain (k : Kernel) (batchFlush : Bool) (maxConns : Nat) (arrives : Fd → Prop) :
    Plain (rules k ⟨batchFlush, false, maxConns⟩) maxConns arrives :=
  ⟨rfl, rfl, fun _ _ _ => rfl⟩

/-- Every smooth run without coalescing shows what the specification says. -/
theorem World.run_agrees (k : Kernel) (batchFlush : Bool) (maxConns : Nat) (batches : List Batch)
    (smooth : Smooth (World.run k ⟨batchFlush, false, maxConns⟩ batches).trace) :
    Agrees Eq none (World.run k ⟨batchFlush, false, maxConns⟩ batches).state
      (Spec.run maxConns batches) :=
  (World.run_runs k ⟨batchFlush, false, maxConns⟩ batches).agrees (rules_names k _)
    (fun _ _ => rules_plain k batchFlush maxConns _) .init State.init_short smooth (.inl trivial)

/-- Batch flushing is scheduling: whatever the sockets take in either mode, as long as none
fails and no queue passes the cap, the peers are shown the same. In both modes, and at any
time, the kernel has taken a prefix of what was queued. -/
theorem World.flush_mode_unseen (k k' : Kernel) (maxConns : Nat) (batches : List Batch) :
    (Smooth (World.run k ⟨true, false, maxConns⟩ batches).trace →
      Smooth (World.run k' ⟨false, false, maxConns⟩ batches).trace →
      ShowSame (World.run k ⟨true, false, maxConns⟩ batches).trace
        (World.run k' ⟨false, false, maxConns⟩ batches).trace) ∧
      Prefixed (World.run k ⟨true, false, maxConns⟩ batches).trace ∧
      Prefixed (World.run k' ⟨false, false, maxConns⟩ batches).trace := by
  have always : ∀ (k : Kernel) (cfg : Config), Prefixed (World.run k cfg batches).trace :=
    fun k cfg => ((World.run_runs k cfg batches).throughout .init).prefixed
  refine ⟨fun smooth smooth' => ?_, always k _, always k' _⟩
  exact (World.run_agrees k true maxConns batches smooth).showSame
    (World.run_agrees k' false maxConns batches smooth')

end Server

/-! ## Containers -/

namespace ServerSds

/-- A name buffer that has a name in it. -/
def Holds (buffer name : Bytes) : Prop :=
  text buffer = text name ∧ buffer.take name.length = name

theorem text_cut {buffer name : Bytes} : text buffer = text name ↔ cut buffer = cut name := by
  simp only [text, cut, CstrHashMap.Text.mk.injEq]

/-- The names in use tell rooms apart as their C strings do. -/
theorem unmixed {reading : Option Fd} {state : State Bytes} {spec : Spec} {name other : Bytes}
    {fd : Fd} (agrees : Agrees Holds reading state spec) (apart : ¬ spec.collides name)
    (inside : spec.roomOf fd = some other) (same : text other = text name) : other = name := by
  obtain ⟨person, known, _⟩ := Option.bind_eq_some_iff.mp inside
  have listed : fd ∈ spec.online := agrees.online fd (known ▸ rfl)
  by_contra differs
  refine apart (List.any_eq_true.mpr ⟨fd, listed, ?_⟩)
  rw [inside, Option.any_some, decide_eq_true_eq]
  exact ⟨text_cut.mp same, differs⟩

theorem rules_names (k : Kernel) (cfg : Config) : Names (rules k cfg) Holds False where
  resolve := by
    rintro reading left spec name _ room agrees distinct ⟨same, rfl, found⟩
    have apart : ¬ spec.collides name := distinct.resolve_left id
    have lodged : ∀ {fd buffer}, left.roomOf fd = some buffer →
        ∃ called, spec.roomOf fd = some called ∧ Holds buffer called := by
      intro fd buffer inside
      have both := agrees.lodging fd
      rw [inside] at both
      generalize spec.roomOf fd = theirs at both ⊢
      cases both with
      | some held => exact ⟨_, rfl, held⟩
    rcases found with ⟨fd, client, found, inside⟩ | ⟨begins, fresh⟩
    · have here : left.roomOf fd = some room := (State.roomOf_found found).trans inside
      obtain ⟨called, there, held⟩ := lodged here
      obtain rfl := unmixed agrees apart there (held.1.symm.trans same)
      exact ⟨held.2, held, fun other => by rw [← here, ← there]; exact agrees.rooms other fd⟩
    · refine ⟨begins, ⟨same, begins⟩, fun other => iff_of_false (fun inside => ?_) fun inside => ?_⟩
      · obtain ⟨client, found, inside⟩ := State.inRoom_roomOf.mpr inside
        exact fresh other client room found inside same
      · have both := agrees.lodging other
        rw [inside] at both
        generalize here : left.roomOf other = mine at both
        cases both with
        | @some buffer _ held =>
            obtain ⟨client, found, inside⟩ := State.inRoom_roomOf.mpr here
            exact fresh other client buffer found inside held.1

theorem World.run_agrees (k : Kernel) (cfg : Config) (whole : cfg.shortRead = false)
    (batches : List Batch) (arrive : ∀ batch ∈ batches, ∀ fd ∈ batch.arrivals, fd < cfg.slots)
    (smooth : Smooth (World.run k cfg batches).trace)
    (apart : (Spec.run cfg.maxConns batches).merged = false) :
    Agrees Holds none (World.run k cfg batches).state (Spec.run cfg.maxConns batches) := by
  refine (World.run_runs k cfg batches).agrees (rules_names k cfg) (fun batch member => ?_) .init
    State.init_short smooth (.inr (Bool.not_eq_true _ ▸ apart))
  refine ⟨rfl, whole, fun size fd arrives => ?_⟩
  have inside : ¬ cfg.slots ≤ fd := Nat.not_le.mpr (arrive batch member fd arrives)
  simp [rules, inside]

end ServerSds

/-- Two connections join rooms, one after the other; then the first of them hangs up. -/
def twoJoin (first second : Bytes) : List Batch :=
  let joins (nick room : Bytes) : List (RecvAnswer UInt8) :=
    [.data (Framing.encode cSetNick nick ++ Framing.encode cJoin room)]
  [⟨[.accept [.arrived 5 true, .arrived 6 true],
    .ready ⟨5, false, false, true, joins (ascii "a") first⟩,
    .ready ⟨6, false, false, true, joins (ascii "b") second⟩], false⟩,
   ⟨[.ready ⟨5, true, false, false, []⟩, .ready ⟨6, false, true, false, []⟩], false⟩]

theorem Server.World.flush_mode_unseen_drip :
    ShowSame
      (Server.World.run Server.World.drip ⟨true, false, 4⟩ (twoJoin (ascii "r") (ascii "r"))).trace
      (Server.World.run Server.World.eager ⟨false, false, 4⟩ (twoJoin (ascii "r") (ascii "r"))).trace :=
  (Server.World.flush_mode_unseen Server.World.drip Server.World.eager 4 (twoJoin (ascii "r") (ascii "r"))).1
    (by unfold Smooth; decide +kernel) (by unfold Smooth; decide +kernel)

/-- `server_sds.cpp` shows its peers what `server.cpp` shows them, as long as no room is
entered whose name is one C string with another name in use, and no check of it fails. -/
theorem containers_unseen (k k' : Kernel) (batchFlush : Bool) (maxConns : Nat)
    (indexable : maxConns + 64 < 2 ^ 32) (batches : List Batch)
    (arrive : ∀ batch ∈ batches, ∀ fd ∈ batch.arrivals, fd < maxConns + 64)
    (smooth : Smooth (Server.World.run k ⟨batchFlush, false, maxConns⟩ batches).trace)
    (smooth' : Smooth (ServerSds.World.run k' ⟨batchFlush, false, maxConns, indexable⟩ batches).trace)
    (apart : (Spec.run maxConns batches).merged = false) :
    ShowSame (Server.World.run k ⟨batchFlush, false, maxConns⟩ batches).trace
        (ServerSds.World.run k' ⟨batchFlush, false, maxConns, indexable⟩ batches).trace ∧
      (ServerSds.World.run k' ⟨batchFlush, false, maxConns, indexable⟩ batches).faulted = false := by
  have stl := Server.World.run_agrees k batchFlush maxConns batches smooth
  have sds := ServerSds.World.run_agrees k' ⟨batchFlush, false, maxConns, indexable⟩ rfl batches arrive
    smooth' apart
  exact ⟨stl.showSame sds, (ServerSds.World.run_sound k' _ batches).2.healthy⟩

theorem containers_unseen_drip :
    ShowSame
        (Server.World.run Server.World.eager ⟨true, false, 4⟩ (twoJoin (ascii "r") (ascii "r"))).trace
        (ServerSds.World.run Server.World.drip ⟨true, false, 4, by decide⟩
          (twoJoin (ascii "r") (ascii "r"))).trace ∧
      (ServerSds.World.run Server.World.drip ⟨true, false, 4, by decide⟩
        (twoJoin (ascii "r") (ascii "r"))).faulted = false :=
  containers_unseen Server.World.eager Server.World.drip true 4 (by decide) (twoJoin (ascii "r") (ascii "r"))
    (by decide +kernel) (by unfold Smooth; decide +kernel) (by unfold Smooth; decide +kernel)
    (by decide +kernel)

/-- Two rooms by their names are one by their C strings: with the engine's containers the
second connection is announced to the first, and answered with a name it did not send. -/
theorem containers_seen :
    let batches := twoJoin (ascii "r" ++ 0 :: ascii "a") (ascii "r" ++ 0 :: ascii "b")
    (∀ batch ∈ batches, ∀ fd ∈ batch.arrivals, fd < 4 + 64) ∧
      Smooth (Server.World.run Server.World.eager ⟨false, false, 4⟩ batches).trace ∧
      Smooth (ServerSds.World.run Server.World.eager ⟨false, false, 4, by decide⟩ batches).trace ∧
      ¬ ShowSame (Server.World.run Server.World.eager ⟨false, false, 4⟩ batches).trace
        (ServerSds.World.run Server.World.eager ⟨false, false, 4, by decide⟩ batches).trace := by
  refine ⟨by decide +kernel, by unfold Smooth; decide +kernel, by unfold Smooth; decide +kernel,
    fun same => ?_⟩
  exact absurd (same.stories 5) (by decide +kernel)

end NetEngine.Epoll
