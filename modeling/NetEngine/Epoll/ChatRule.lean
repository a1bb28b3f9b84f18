import NetEngine.Epoll.ChatFrames

/-! The induction rules of the event loop: what each operation on one connection
keeps, every iteration keeps; and so does what each received chunk keeps. -/

set_option autoImplicit false

namespace NetEngine.Epoll

open Socket

variable {ρ : Type}

/-- Events about a connection that stand for no change of it. -/
def Obs.Notes (fd : Fd) : Obs ρ → Prop
  | .recv other _ | .packet _ other _ _ | .handled other _ | .oversize other | .parsed other _ _ =>
      other = fd
  | _ => False

/-- What the operations keep that events and ticks are made of. -/
structure PreservesEvents (rules : Rules ρ) (holds : State ρ → Prop) : Prop where
  note : ∀ (state : State ρ) (fd : Fd) (obs : Obs ρ), obs.Notes fd → state.Live fd → holds state →
    holds (state.emit obs)
  refused : ∀ (state : State ρ) (fd : Fd), ¬ state.Live fd → holds state →
    holds (state.emit (.refused fd))
  doom : ∀ (state : State ρ) (fd : Fd), holds state → holds (state.doom fd)
  append : ∀ (state : State ρ) (fd : Fd) (type : UInt16) (payload : Bytes),
    state.Takes fd payload → holds state → holds (state.append fd type payload)
  refuse : ∀ (state : State ρ) (fd : Fd) (payload : Bytes), state.Open fd →
    ¬ state.Takes fd payload → holds state → holds (state.refuse fd payload)
  flush : ∀ (state after : State ρ) (fd : Fd), Flushes rules fd state after → holds state →
    holds after
  mark : ∀ (state : State ρ) (fd : Fd), holds state → holds (state.markDirty fd)
  name : ∀ (state : State ρ) (fd : Fd) (nick : Bytes), nick.length ≤ nickMax → holds state →
    holds (state.setNick fd nick)
  enter : ∀ (state : State ρ) (fd : Fd) (room : Option ρ), holds state →
    holds (state.enterRoom fd room)
  input : ∀ (state : State ρ) (fd : Fd) (input : Bytes), holds state →
    holds (state.setInput fd input)
  insert : ∀ (state : State ρ) (fd : Fd), ¬ state.Live fd → holds state → holds (state.insert fd)
  stop : ∀ state : State ρ, holds state → holds { state with running := false }

/-- With them the operations of the flush passes, and a departure as a whole. -/
structure Preserves (rules : Rules ρ) (holds : State ρ → Prop) : Prop
    extends PreservesEvents rules holds where
  clean : ∀ (state : State ρ) (fd : Fd), holds state → holds (state.clean fd)
  flushed : ∀ state : State ρ, holds state → holds { state with dirty := [] }
  departed : ∀ (state told : State ρ) (fd : Fd) (client : Client ρ),
    state.clients fd = some client →
    Depart rules fd client (state.emit (.departs state.clients fd)) told → holds state →
    holds (told.remove fd)
  reaped : ∀ state : State ρ, holds state → holds { state with doomed := [] }

namespace PreservesEvents

variable {rules : Rules ρ} {holds : State ρ → Prop} {state after : State ρ} {fd : Fd}

theorem queueSend (preserves : PreservesEvents rules holds) (type : UInt16) (payload : Bytes)
    (before : holds state) : holds (state.queueSend type payload fd) := by
  by_cases opened : state.Open fd
  · rcases State.queueSend_cases type payload opened with
      ⟨_, same⟩ | ⟨_, takes, same⟩ | ⟨_, refuses, same⟩
    · rwa [same]
    · rw [same]
      exact preserves.append state fd type payload takes before
    · rw [same]
      exact preserves.refuse state fd payload opened refuses before
  · rwa [State.queueSend_shut opened]

theorem queueTickFrame (preserves : PreservesEvents rules holds) (payload : Bytes)
    (opened : state.Open fd) (before : holds state) : holds (state.queueTickFrame payload fd) := by
  obtain ⟨client, found, closing⟩ := id opened
  have same : state.queueTickFrame payload fd = state.enqueue fd sTick payload := by
    simp [State.queueTickFrame, found, closing]
  rw [same]
  rcases State.enqueue_cases sTick payload opened with ⟨takes, same⟩ | ⟨refuses, same⟩
  · rw [same]
    exact preserves.append state fd sTick payload takes before
  · rw [same]
    exact preserves.refuse state fd payload opened refuses before

theorem follows (preserves : PreservesEvents rules holds) (follows : Follows rules fd state after)
    (before : holds state) : holds after := by
  unfold Follows at follows
  split at follows
  · subst follows
    exact preserves.mark state fd before
  · exact preserves.flush state after fd follows before

theorem walk (preserves : PreservesEvents rules holds) {type : UInt16} {payload : Bytes} {fds : List Fd}
    (walk : Walk rules (State.queueSend type payload) fds state after) (before : holds state) :
    holds after := by
  induction walk with
  | nil => exact before
  | skip _ _ ih => exact ih before
  | visit _ follows _ ih =>
      exact ih (preserves.follows follows (preserves.queueSend type payload before))

theorem broadcast (preserves : PreservesEvents rules holds) {room : ρ} {type : UInt16} {payload : Bytes}
    {except : Option Fd} (broadcast : Broadcast rules room type payload except state after)
    (before : holds state) : holds after := by
  obtain ⟨_, _, _, walk⟩ := broadcast
  exact preserves.walk walk before

theorem ticks (preserves : PreservesEvents rules holds) (ticks : Ticks rules state after)
    (before : holds state) : holds after := by
  induction ticks with
  | nil => exact before
  | visit payload opened follows _ ih =>
      exact ih (preserves.follows follows (preserves.queueTickFrame payload opened before))

theorem packet (preserves : PreservesEvents rules holds) {type : UInt16} {payload : Bytes}
    (packet : Packet rules fd payload type state after) (before : holds state) : holds after := by
  cases packet with
  | setNick =>
      exact preserves.queueSend _ _ (preserves.name state fd _ (List.length_take_le ..) before)
  | nickFirst _ _ | roomRequired _ _ _ | joinFirst _ _ => exact preserves.queueSend _ _ before
  | record _ _ _ => exact before
  | chat _ _ _ told => exact preserves.broadcast told before
  | unknown _ _ _ => exact preserves.doom state fd before
  | join _ _ _ leaves _ hello =>
      refine preserves.broadcast hello (preserves.queueSend _ _ (preserves.enter _ _ _ ?_))
      cases leaves with
      | stay _ => exact before
      | leave _ bye => exact preserves.enter _ _ _ (preserves.broadcast bye before)

theorem parse (preserves : PreservesEvents rules holds) (parse : Parse rules fd state after)
    (before : holds state) : holds after := by
  induction parse with
  | closing _ | more _ _ _ => exact before
  | oversize found _ _ => exact preserves.doom _ fd (preserves.note _ fd _ rfl ⟨_, found⟩ before)
  | @late state told _ client type payload _ found _ _ packet _ ih =>
      have handled := preserves.packet packet
        (preserves.note state fd (.packet state.clients fd type payload) rfl ⟨client, found⟩ before)
      have live : told.Live fd := (packet.sameFds.1 fd).mpr ⟨client, found⟩
      exact ih (preserves.input _ fd _ (preserves.note told fd (.handled fd _) rfl live handled))
  | @early state told _ client type payload rest found _ _ packet _ ih =>
      have handled := preserves.packet packet (preserves.input _ fd rest
        (preserves.note state fd (.packet state.clients fd type payload) rfl ⟨client, found⟩ before))
      have live : told.Live fd := (packet.sameFds.1 fd).mpr
        (((State.update_sameFds _ fd _).1 fd).mpr ⟨client, found⟩)
      exact ih (preserves.note told fd (.handled fd _) rfl live handled)

/-- A chunk: received, parsed, and what is left of it noted. -/
theorem chunk (preserves : PreservesEvents rules holds) {told : State ρ} {client : Client ρ}
    {bytes : Bytes} (found : state.clients fd = some client)
    (parse : Parse rules fd (state.receive fd client bytes) told) (before : holds state) :
    holds (told.noteParsed fd) ∧ told.Live fd := by
  have live : told.Live fd :=
    (parse.sameFds.1 fd).mpr (((State.update_sameFds _ fd _).1 fd).mpr ⟨client, found⟩)
  have received := preserves.input _ fd (client.input ++ bytes)
    (preserves.note state fd (.recv fd bytes) rfl ⟨client, found⟩ before)
  exact ⟨preserves.note told fd (.parsed fd _ _) rfl live (preserves.parse parse received), live⟩

theorem reads (preserves : PreservesEvents rules holds) {script : List (RecvAnswer UInt8)}
    (reads : Reads rules fd script state after) (live : state.Live fd) (before : holds state) :
    holds after := by
  induction reads with
  | drained _ follows => exact preserves.follows follows (preserves.note _ fd _ rfl live before)
  | ended _ | backlog _ _ _ => exact preserves.doom _ fd (preserves.note _ fd _ rfl live before)
  | interrupted _ ih => exact ih live (preserves.note _ fd _ rfl live before)
  | stopped found _ parse _ => exact (preserves.chunk found parse before).1
  | short found _ _ parse _ follows =>
      exact preserves.follows follows (preserves.chunk found parse before).1
  | again found _ parse _ _ ih =>
      obtain ⟨parsed, live⟩ := preserves.chunk found parse before
      exact ih live parsed

theorem onAccept (preserves : PreservesEvents rules holds) (answers : List AcceptAnswer)
    (before : holds state) : holds (state.onAccept rules answers) := by
  induction answers generalizing state with
  | nil => exact before
  | cons answer answers ih =>
      cases answer with
      | interrupted | aborted => exact ih before
      | outOfFds | failed | wouldBlock => exact before
      | arrived fd added =>
          simp only [State.onAccept]
          split
          · exact ih before
          next taken =>
            have fresh : ¬ state.Live fd := by
              rintro ⟨client, found⟩
              simp [found] at taken
            split
            · exact ih (preserves.refused state fd fresh before)
            · exact ih (preserves.insert state fd fresh before)

theorem handles (preserves : PreservesEvents rules holds) {event : Event}
    (handles : Handles rules event state after) (before : holds state) : holds after := by
  cases handles with
  | accept => exact preserves.onAccept _ before
  | signal => exact preserves.stop state before
  | gone _ => exact before
  | hangup _ _ => exact preserves.doom _ _ before
  | @serve _ flushed _ _ _ _ flushes reads =>
      have first : holds flushed := by
        rcases flushes with ⟨_, flushes⟩ | ⟨_, same⟩
        · exact preserves.flush _ _ _ flushes before
        · exact same ▸ before
      rcases reads with ⟨⟨client, found, _⟩, _, reads⟩ | ⟨_, same⟩
      · exact preserves.reads reads ⟨client, found⟩ first
      · exact same ▸ first

theorem drains (preserves : PreservesEvents rules holds) {events : List Event}
    (drains : Drains rules events state after) (before : holds state) : holds after := by
  induction drains with
  | nil => exact before
  | cons handled _ ih => exact ih (preserves.handles handled before)

/-- A departure, from what its operations keep. -/
theorem departed (preserves : PreservesEvents rules holds)
    (announce : ∀ (state : State ρ) (fd : Fd), state.Live fd → holds state →
      holds (state.emit (.departs state.clients fd)))
    (remove : ∀ (state : State ρ) (fd : Fd), state.Live fd → holds state → holds (state.remove fd))
    {told : State ρ} {client : Client ρ} (found : state.clients fd = some client)
    (departs : Depart rules fd client (state.emit (.departs state.clients fd)) told)
    (before : holds state) : holds (told.remove fd) := by
  have live : told.Live fd := (departs.sameFds.1 fd).mpr ⟨client, found⟩
  refine remove told fd live ?_
  have noted := announce state fd ⟨client, found⟩ before
  cases departs with
  | silent _ => exact preserves.enter _ _ _ noted
  | notice _ _ told => exact preserves.broadcast told (preserves.enter _ _ _ noted)

end PreservesEvents

namespace Preserves

variable {rules : Rules ρ} {holds : State ρ → Prop} {state after : State ρ} {fd : Fd}

theorem flushDirty (preserves : Preserves rules holds) {fds : List Fd}
    (flush : FlushDirty rules fds state after) (before : holds state) : holds after := by
  induction flush with
  | @nil state => exact preserves.flushed state before
  | skip _ _ ih => exact ih (preserves.clean _ _ before)
  | flush _ flushes _ ih => exact ih (preserves.flush _ _ _ flushes (preserves.clean _ _ before))

theorem reap (preserves : Preserves rules holds) {index : Nat}
    (reap : Reap rules index state after) (before : holds state) : holds after := by
  induction reap with
  | @done state _ _ => exact preserves.reaped state before
  | gone _ _ _ ih => exact ih before
  | close _ found departs _ ih => exact ih (preserves.departed _ _ _ _ found departs before)

theorem tail (preserves : Preserves rules holds) (tail : Tail rules state after)
    (before : holds state) : holds after := by
  cases tail with
  | batch _ flush reaping again =>
      exact preserves.flushDirty again (preserves.reap reaping (preserves.flushDirty flush before))
  | immediate _ reaping => exact preserves.reap reaping before

theorem iterates (preserves : Preserves rules holds) {batch : Batch}
    (iterates : Iterates rules batch state after) (before : holds (state.emit .wake)) :
    holds after := by
  cases iterates with
  | @mk drained ticked _ drains ticks tail =>
      have first := preserves.toPreservesEvents.drains drains before
      have second : holds ticked := by
        rcases ticks with ⟨_, ticks⟩ | same
        · exact preserves.toPreservesEvents.ticks ticks first
        · exact same ▸ first
      exact preserves.tail tail second

end Preserves

/-! ## The trace -/

theorem Sends.grows {names : Prop} {types : UInt16 → Prop} {state after : State ρ}
    (sends : Sends names types state after) : state.trace <+: after.trace := by
  obtain ⟨more, grown, _⟩ := sends.trace
  exact ⟨more, grown.symm⟩

theorem grows_events (rules : Rules ρ) (early : List (Obs ρ)) :
    PreservesEvents rules fun state => early <+: state.trace where
  note _ _ _ _ _ begins := begins.trans (List.prefix_append ..)
  refused _ _ _ begins := begins.trans (List.prefix_append ..)
  doom state fd begins :=
    have sends : Sends True (fun _ => True) state (state.doom fd) := State.doom_sends
    begins.trans sends.grows
  append _ _ _ _ _ begins := begins.trans (List.prefix_append ..)
  refuse state fd payload _ _ begins :=
    have sends : Sends True (fun _ => True) state (state.refuse fd payload) := State.refuse_sends
    begins.trans sends.grows
  flush state after _ flushes begins :=
    have sends : Sends True (fun _ => True) state after := flushes.sends
    begins.trans sends.grows
  mark state fd begins :=
    have sends : Sends True (fun _ => True) state (state.markDirty fd) := State.markDirty_sends
    begins.trans sends.grows
  name _ _ _ _ begins := begins
  enter _ _ _ begins := begins
  input _ _ _ begins := begins
  insert _ _ _ begins := begins.trans (List.prefix_append ..)
  stop _ begins := begins

/-- What has happened stays in the trace. -/
theorem grows_preserves (rules : Rules ρ) (early : List (Obs ρ)) :
    Preserves rules fun state => early <+: state.trace where
  toPreservesEvents := grows_events rules early
  clean _ _ begins := begins
  flushed _ begins := begins
  departed _ _ _ _ found departs begins :=
    (grows_events rules early).departed (fun _ _ _ begins => begins.trans (List.prefix_append ..))
      (fun _ _ _ begins => begins.trans (List.prefix_append ..)) found departs begins
  reaped _ begins := begins

/-! ## One chunk at a time -/

/-- The same for facts that need not hold inside of a chunk. -/
structure PreservesTurns (rules : Rules ρ) (holds : State ρ → Prop) : Prop where
  sends : ∀ state after : State ρ, Sends True (fun type => type ≠ sChat) state after →
    holds state → holds after
  wake : ∀ state : State ρ, holds state → holds (state.emit .wake)
  refused : ∀ (state : State ρ) (fd : Fd), holds state → holds (state.emit (.refused fd))
  nothing : ∀ (state : State ρ) (fd : Fd), holds state → holds (state.emit (.recv fd []))
  turn : ∀ (state told : State ρ) (fd : Fd) (client : Client ρ) (chunk : Bytes),
    state.clients fd = some client → client.closing = false →
    Parse rules fd (state.receive fd client chunk) told → holds state → holds (told.noteParsed fd)
  backlog : ∀ (state : State ρ) (fd : Fd) (client : Client ρ) (taken : Bytes),
    state.clients fd = some client → client.closing = false → maxFrame ≤ client.input.length →
    holds state → holds ((state.emit (.recv fd taken)).doom fd)
  insert : ∀ (state : State ρ) (fd : Fd), ¬ state.Live fd → holds state → holds (state.insert fd)
  reaped : ∀ (state told : State ρ) (fd : Fd) (client : Client ρ), state.clients fd = some client →
    Depart rules fd client (state.emit (.departs state.clients fd)) told → holds state →
    holds (told.remove fd)
  lists : ∀ (state : State ρ) (doomed dirty : List Fd) (running : Bool), holds state →
    holds { state with doomed, dirty, running }

namespace PreservesTurns

variable {rules : Rules ρ} {holds : State ρ → Prop} {state after : State ρ} {fd : Fd}

theorem reads (preserves : PreservesTurns rules holds) {script : List (RecvAnswer UInt8)}
    (reads : Reads rules fd script state after) (opened : state.Open fd) (before : holds state) :
    holds after := by
  have serving : ∀ {state : State ρ} {client : Client ρ}, state.Open fd →
      state.clients fd = some client → client.closing = false :=
    fun opened found => (State.open_iff found).mp opened
  induction reads with
  | drained _ follows => exact preserves.sends _ _ follows.sends (preserves.nothing _ fd before)
  | ended _ => exact preserves.sends _ _ State.doom_sends (preserves.nothing _ fd before)
  | interrupted _ ih => exact ih opened (preserves.nothing _ fd before)
  | stopped found _ parsed _ =>
      exact preserves.turn _ _ fd _ _ found (serving opened found) parsed before
  | short found _ _ parsed _ follows =>
      exact preserves.sends _ _ follows.sends
        (preserves.turn _ _ fd _ _ found (serving opened found) parsed before)
  | again found _ parsed still _ ih =>
      exact ih still (preserves.turn _ _ fd _ _ found (serving opened found) parsed before)
  | backlog taken found long =>
      exact preserves.backlog _ fd _ taken found (serving opened found) long before

theorem onAccept (preserves : PreservesTurns rules holds) (answers : List AcceptAnswer)
    (before : holds state) : holds (state.onAccept rules answers) := by
  induction answers generalizing state with
  | nil => exact before
  | cons answer answers ih =>
      cases answer with
      | interrupted | aborted => exact ih before
      | outOfFds | failed | wouldBlock => exact before
      | arrived fd added =>
          simp only [State.onAccept]
          split
          · exact ih before
          next fresh =>
            split
            · exact ih (preserves.refused state fd before)
            · refine ih (preserves.insert state fd ?_ before)
              rintro ⟨client, found⟩
              simp [found] at fresh

theorem handles (preserves : PreservesTurns rules holds) {event : Event}
    (handles : Handles rules event state after) (before : holds state) : holds after := by
  cases handles with
  | accept => exact preserves.onAccept _ before
  | signal => exact preserves.lists state state.doomed state.dirty false before
  | gone _ => exact before
  | hangup _ _ => exact preserves.sends _ _ State.doom_sends before
  | @serve _ flushed _ _ _ _ flushes reads =>
      have first : holds flushed := by
        rcases flushes with ⟨_, flushes⟩ | ⟨_, same⟩
        · exact preserves.sends _ _ flushes.sends before
        · exact same ▸ before
      rcases reads with ⟨opened, _, reads⟩ | ⟨_, same⟩
      · exact preserves.reads reads opened first
      · exact same ▸ first

theorem drains (preserves : PreservesTurns rules holds) {events : List Event}
    (drains : Drains rules events state after) (before : holds state) : holds after := by
  induction drains with
  | nil => exact before
  | cons handled _ ih => exact ih (preserves.handles handled before)

theorem flushDirty (preserves : PreservesTurns rules holds) {fds : List Fd}
    (flush : FlushDirty rules fds state after) (before : holds state) : holds after := by
  induction flush with
  | @nil state => exact preserves.lists state state.doomed [] state.running before
  | skip _ _ ih => exact ih (preserves.sends _ _ State.clean_sends before)
  | flush _ flushes _ ih =>
      exact ih (preserves.sends _ _ (State.clean_sends.trans flushes.sends) before)

theorem reap (preserves : PreservesTurns rules holds) {index : Nat}
    (reap : Reap rules index state after) (before : holds state) : holds after := by
  induction reap with
  | @done state _ _ => exact preserves.lists state [] state.dirty state.running before
  | gone _ _ _ ih => exact ih before
  | close _ found departs _ ih => exact ih (preserves.reaped _ _ _ _ found departs before)

theorem iterates (preserves : PreservesTurns rules holds) {batch : Batch}
    (iterates : Iterates rules batch state after) (before : holds state) : holds after := by
  cases iterates with
  | @mk drained ticked _ drains ticks tail =>
      have first := preserves.drains drains (preserves.wake state before)
      have second : holds ticked := by
        rcases ticks with ⟨_, ticks⟩ | same
        · exact preserves.sends _ _ (ticks.sends (by decide)) first
        · exact same ▸ first
      cases tail with
      | batch _ flush reaping again =>
          exact preserves.flushDirty again
            (preserves.reap reaping (preserves.flushDirty flush second))
      | immediate _ reaping => exact preserves.reap reaping second

theorem runs (preserves : PreservesTurns rules holds) {batches : List Batch}
    (runs : Runs rules batches state after) (before : holds state) : holds after := by
  induction runs with
  | nil | stop _ => exact before
  | cons _ iterates _ ih => exact ih (preserves.iterates iterates before)

end PreservesTurns

end NetEngine.Epoll
