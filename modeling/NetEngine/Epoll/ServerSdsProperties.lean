import NetEngine.Epoll.ServerSdsRuns

/-! The room structures of `server_sds.cpp` after any calls of its handlers. -/

set_option autoImplicit false

namespace NetEngine.Epoll.ServerSds

open Links

/-- The handlers of the program, each callable at any time. -/
inductive Call where
  | accept (answers : List AcceptAnswer)
  | ready (what : Ready)
  | packet (fd : Fd) (type : UInt16) (payload : Bytes)
  | send (fd : Fd) (type : UInt16) (payload : Bytes)
  | flush (fd : Fd)
  | mark (fd : Fd)
  | doom (fd : Fd)
  | flushDirty
  | reap

namespace World

variable {k : Kernel} {cfg : Config} {w : World}

/-- One call; the kernel answers anew in each. -/
def call (cfg : Config) (w : World) : Kernel × Call → World
  | (_, .accept answers) => onAccept cfg answers w
  | (k, .ready what) => w.handleReady k cfg what
  | (k, .packet fd type payload) => w.handlePacket k cfg fd type payload
  | (_, .send fd type payload) => queueSend type payload w fd
  | (k, .flush fd) => w.flushSend k fd
  | (_, .mark fd) => w.markDirty fd
  | (_, .doom fd) => w.doom fd
  | (k, .flushDirty) => w.flushDirty k
  | (k, .reap) => w.reapDoomed k cfg

def calls (cfg : Config) (calls : List (Kernel × Call)) : World := calls.foldl (call cfg) (init cfg)

/-- The room structures as the connections see them. A live room's list is walked
from its head over `roomNext`, and `roomPrev` leads back; the rooms that are not
live are walked from `roomFree` over `nextFree`. -/
structure RoomsAgree (cfg : Config) (w : World) : Prop where
  members : ∀ idx, (w.rooms idx).live = true → ∃ members : List Fd,
    members.Nodup ∧ (∀ fd, fd ∈ members ↔ w.roomOf fd = some idx) ∧
      (w.rooms idx).head = members.head? ∧ Linked w.prevOf w.nextOf none members ∧
      (w.rooms idx).count = members.length ∧ 0 < (w.rooms idx).count
  homeless : ∀ fd, w.roomOf fd = none →
    w.prevOf fd = none ∧ w.nextOf fd = none ∧
      ∀ other, w.prevOf other ≠ some fd ∧ w.nextOf other ≠ some fd
  housed : ∀ fd idx, w.roomOf fd = some idx → (w.rooms idx).live = true
  indexed : w.roomIndex.Ok w.names ∧ w.roomIndex.entries.Nodup ∧
    ∀ node, node ∈ w.roomIndex.entries ↔ (w.rooms node.key).live = true ∧ node.value = node.key
  named : ∀ left right, (w.rooms left).live = true → (w.rooms right).live = true →
    text (w.rooms left).name = text (w.rooms right).name → left = right
  free : ∃ free : List Nat, free.Nodup ∧ w.roomFree = free.head? ∧ Threaded w.nextFree free ∧
    ∀ idx, idx ∈ free ↔ idx < cfg.slots ∧ (w.rooms idx).live = false
  inside : ∀ idx, (w.rooms idx).live = true → idx < cfg.slots
  healthy : w.faulted = false

theorem Sound.roomsAgree (sound : Sound cfg w) : RoomsAgree cfg w where
  members idx live := by
    obtain ⟨members, lists, nonempty⟩ := sound.rooms.listed idx live
    refine ⟨members, lists.nodup, lists.member, lists.head, lists.linked, lists.count, ?_⟩
    rw [lists.count]
    exact List.length_pos_iff.mpr (nonempty nofun)
  homeless fd outside := by
    obtain ⟨prev, next⟩ := sound.rooms.homeless fd outside
    refine ⟨prev, next, fun other => ?_⟩
    cases room : w.roomOf other with
    | none =>
        obtain ⟨prev, next⟩ := sound.rooms.homeless other room
        rw [prev, next]
        exact ⟨nofun, nofun⟩
    | some idx =>
        obtain ⟨front, back, lists⟩ := sound.rooms.place room
        obtain ⟨_, _, prevInside, nextInside⟩ := lists.neighbours
        refine ⟨fun linked => ?_, fun linked => ?_⟩
        · rw [prevInside fd linked] at outside
          cases outside
        · rw [nextInside fd linked] at outside
          cases outside
  housed := sound.rooms.housed
  indexed := ⟨sound.rooms.index, sound.rooms.index.distinct.of_map, sound.rooms.entries⟩
  named _ _ := sound.rooms.names_injective
  free := sound.rooms.free
  inside := sound.rooms.inside
  healthy := sound.healthy

theorem packet_sound {fd : Fd} {type : UInt16} {payload : Bytes} (sound : Sound cfg w)
    (short : w.state.Short) : Sound cfg (w.handlePacket k cfg fd type payload) ∧
      (w.handlePacket k cfg fd type payload).state.Short := by
  cases found : w.conns fd with
  | none =>
      have same : w.handlePacket k cfg fd type payload = w := by
        simp only [handlePacket, found]
      rw [same]
      exact ⟨sound, short⟩
  | some c =>
      obtain ⟨packet, told⟩ := @handlePacket_packet k cfg w fd c type payload sound found
      exact ⟨told, fun other => packet.shortAt (short other)⟩

/-- Every call keeps what the program relies on. -/
theorem call_sound (sound : Sound cfg w) (short : w.state.Short) (step : Kernel × Call) :
    Sound cfg (w.call cfg step) ∧ (w.call cfg step).state.Short := by
  obtain ⟨k, op⟩ := step
  cases op with
  | accept answers =>
      obtain ⟨same, after⟩ := @onAccept_accepts k cfg w answers sound
      refine ⟨after, ?_⟩
      rw [call, same]
      exact State.onAccept_short answers short
  | ready what =>
      obtain ⟨handles, after⟩ := @handleReady_handles k cfg w what sound short
      exact ⟨after, handles.keepsShort short⟩
  | packet fd type payload => exact packet_sound sound short
  | send fd type payload =>
      refine ⟨queueSend_sends.sound sound, ?_⟩
      have sends : Epoll.Sends True (fun _ => True) w.state
        (State.queueSend type payload w.state fd) := State.queueSend_sends trivial
      rw [call, state_queueSend sound.queues]
      exact sends.keepsShort short
  | flush fd =>
      have flushes : Flushes (rules k cfg) fd w.state (w.flushSend k fd).state :=
        flushSend_flushes sound.queues
      exact ⟨flushSend_sends.sound sound, flushes.keepsShort short⟩
  | mark fd =>
      refine ⟨markDirty_sends.sound sound, ?_⟩
      have sends : Epoll.Sends True (fun _ => True) w.state (w.state.markDirty fd) :=
        State.markDirty_sends
      rw [call, state_markDirty sound.queues]
      exact sends.keepsShort short
  | doom fd =>
      refine ⟨doom_sends.sound sound, ?_⟩
      have sends : Epoll.Sends True (fun _ => True) w.state (w.state.doom fd) := State.doom_sends
      rw [call, state_doom]
      exact sends.keepsShort short
  | flushDirty =>
      obtain ⟨flush, after⟩ := @flushDirty_flushes k cfg w sound
      exact ⟨after, flush.keepsShort short⟩
  | reap =>
      obtain ⟨reap, after, _⟩ := @reapDoomed_reaps k cfg w sound
      exact ⟨after, reap.keepsShort short⟩

theorem calls_sound (cfg : Config) (steps : List (Kernel × Call)) :
    Sound cfg (calls cfg steps) ∧ (calls cfg steps).state.Short := by
  have walk : ∀ (steps : List (Kernel × Call)) (w : World), Sound cfg w → w.state.Short →
      Sound cfg (steps.foldl (call cfg) w) ∧ (steps.foldl (call cfg) w).state.Short := by
    intro steps
    induction steps with
    | nil => exact fun w sound short => ⟨sound, short⟩
    | cons step steps ih =>
        intro w sound short
        obtain ⟨next, nextShort⟩ := call_sound sound short step
        exact ih _ next nextShort
  exact walk steps (init cfg) (.init cfg) State.init_short

/-- The room structures agree after any calls, and at the end of every run. -/
theorem rooms_agree (cfg : Config) :
    (∀ steps, RoomsAgree cfg (calls cfg steps)) ∧ ∀ k batches, RoomsAgree cfg (run k cfg batches) :=
  ⟨fun steps => (calls_sound cfg steps).1.roomsAgree,
    fun k batches => (run_sound k cfg batches).2.roomsAgree⟩

end World

end NetEngine.Epoll.ServerSds
