import NetEngine.Epoll.ChatFrames

/-! Received bytes: after a parse less than one frame stays with a connection that
is still served, and no other operation touches what is buffered. -/

set_option autoImplicit false

namespace NetEngine.Epoll

open Socket

variable {ρ : Type} {rules : Rules ρ} {state after : State ρ} {fd : Fd}

/-- An open connection holds less than one maximum frame. -/
def State.ShortAt (state : State ρ) (fd : Fd) : Prop :=
  ∀ client, state.clients fd = some client → client.closing = false →
    client.input.length < maxFrame

def State.Short (state : State ρ) : Prop := ∀ fd, state.ShortAt fd

theorem State.ShortAt.congr (short : state.ShortAt fd)
    (same : after.clients fd = state.clients fd) : after.ShortAt fd := by
  intro client found
  exact short client (same ▸ found)

theorem State.shortAt_of_shut (shut : ¬ state.Open fd) : state.ShortAt fd :=
  fun client found opened => absurd ⟨client, found, opened⟩ shut

theorem Sends.shortAt {names : Prop} {types : UInt16 → Prop}
    (sends : Sends names types state after) (short : state.ShortAt fd) : after.ShortAt fd := by
  intro later found opened
  obtain ⟨client, before, carries⟩ := sends.back found
  rw [carries.input]
  refine short client before ?_
  cases closing : client.closing with
  | false => rfl
  | true => rw [carries.closing closing] at opened; cases opened

theorem Sends.keepsShort {names : Prop} {types : UInt16 → Prop}
    (sends : Sends names types state after) (short : state.Short) : after.Short :=
  fun fd => sends.shortAt (short fd)

theorem Packet.shortAt {type : UInt16} {payload : Bytes} {other : Fd}
    (packet : Packet rules fd payload type state after) (short : state.ShortAt other) :
    after.ShortAt other := by
  have sends : Sends False (fun _ => True) state after := packet.sends trivial fun _ => trivial
  exact sends.shortAt short

theorem Parse.endsShort (parse : Parse rules fd state after)
    (others : ∀ other, other ≠ fd → state.ShortAt other) : after.Short := by
  have moved : ∀ {state : State ρ} {rest : Bytes} {other : Fd}, other ≠ fd → state.ShortAt other →
      (state.setInput fd rest).ShortAt other :=
    fun apart short => short.congr (State.update_clients_ne _ apart)
  induction parse with
  | @closing state shut =>
      intro other
      by_cases own : other = fd
      · exact own ▸ State.shortAt_of_shut shut
      · exact others other own
  | @more state client found closing next =>
      intro other
      by_cases own : other = fd
      · subst own
        intro again here _
        rw [found, Option.some.injEq] at here
        exact here ▸ Framing.next_more_short next
      · exact others other own
  | @oversize state client found closing next =>
      intro other
      by_cases own : other = fd
      · exact own ▸ State.shortAt_of_shut State.doom_shuts
      · exact (others other own).congr (State.doom_clients_ne own)
  | late _ _ _ packet _ ih =>
      exact ih fun other apart => moved apart (packet.shortAt (others other apart))
  | early _ _ _ packet _ ih =>
      exact ih fun other apart => packet.shortAt (moved apart (others other apart))

theorem Reads.keepsShort {script : List (RecvAnswer UInt8)} (reads : Reads rules fd script state after)
    (short : state.Short) : after.Short := by
  have received : ∀ {state told : State ρ} {client : Client ρ} {chunk : Bytes}, state.Short →
      Parse rules fd (state.receive fd client chunk) told → (told.noteParsed fd).Short :=
    fun short parse => parse.endsShort fun other apart =>
      (short other).congr (State.update_clients_ne _ apart)
  have followed : ∀ {state after : State ρ}, Follows rules fd state after → state.Short →
      after.Short := by
    intro state after follows
    have sends : Sends True (fun _ => True) state after := follows.sends
    exact sends.keepsShort
  have doomed : ∀ {state : State ρ}, state.Short → (state.doom fd).Short := by
    intro state
    have sends : Sends True (fun _ => True) state (state.doom fd) := State.doom_sends
    exact sends.keepsShort
  induction reads with
  | drained _ follows => exact followed follows short
  | ended _ => exact doomed short
  | interrupted _ ih => exact ih short
  | stopped _ _ parse _ => exact received short parse
  | short _ _ _ parse _ follows => exact followed follows (received short parse)
  | again _ _ parse _ _ ih => exact ih (received short parse)
  | backlog _ _ _ => exact doomed short

theorem Flushes.keepsShort (flushes : Flushes rules fd state after) (short : state.Short) :
    after.Short := by
  have sends : Sends True (fun _ => True) state after := flushes.sends
  exact sends.keepsShort short

theorem State.onAccept_short (answers : List AcceptAnswer) (short : state.Short) :
    (state.onAccept rules answers).Short := by
  induction answers generalizing state with
  | nil => exact short
  | cons answer answers ih =>
      cases answer with
      | interrupted | aborted => exact ih short
      | outOfFds | failed | wouldBlock => exact short
      | arrived fd added =>
          simp only [State.onAccept]
          split
          · exact ih short
          · split
            · exact ih short
            · refine ih fun other => ?_
              by_cases own : other = fd
              · subst own
                intro client found _
                simp only [State.insert, Function.update_self, Option.some.injEq] at found
                subst found
                exact (by decide : 0 < maxFrame)
              · refine (short other).congr ?_
                simp [State.insert, own]

theorem Handles.keepsShort {event : Event} (handles : Handles rules event state after)
    (short : state.Short) : after.Short := by
  cases handles with
  | accept => exact State.onAccept_short _ short
  | signal => exact short
  | gone _ => exact short
  | @hangup _ what _ _ =>
      have sends : Sends True (fun _ => True) state (state.doom what.fd) := State.doom_sends
      exact sends.keepsShort short
  | serve _ _ flushes reads =>
      have flushed : _ := flushes.elim (fun both => both.2.keepsShort short) fun both => both.2 ▸ short
      rcases reads with ⟨_, _, reads⟩ | ⟨_, rfl⟩
      · exact reads.keepsShort flushed
      · exact flushed

theorem Drains.keepsShort {events : List Event} (drains : Drains rules events state after)
    (short : state.Short) : after.Short := by
  induction drains with
  | nil => exact short
  | cons handles _ ih => exact ih (handles.keepsShort short)

theorem State.remove_short (short : state.Short) : (state.remove fd).Short := by
  intro other
  by_cases own : other = fd
  · subst own
    intro client found
    simp [State.remove] at found
  · refine (short other).congr ?_
    simp [State.remove, own]

theorem Reap.keepsShort {index : Nat} (reap : Reap rules index state after)
    (short : state.Short) : after.Short := by
  induction reap with
  | done _ => exact short
  | gone _ _ _ ih => exact ih short
  | @close state told _ _ fd _ _ _ departs _ ih =>
      have sends : Sends False (fun _ => True) (state.emit (.departs state.clients fd)) told :=
        departs.sends trivial
      exact ih (State.remove_short (sends.keepsShort short))

theorem FlushDirty.keepsShort {fds : List Fd} (flush : FlushDirty rules fds state after)
    (short : state.Short) : after.Short := by
  have sends : Sends True (fun _ => True) state after := flush.sends
  exact sends.keepsShort short

theorem Tail.keepsShort (tail : Tail rules state after) (short : state.Short) : after.Short := by
  cases tail with
  | batch _ flush reap again => exact again.keepsShort (reap.keepsShort (flush.keepsShort short))
  | immediate _ reap => exact reap.keepsShort short

theorem Iterates.keepsShort {batch : Batch} (iterates : Iterates rules batch state after)
    (short : state.Short) : after.Short := by
  cases iterates with
  | mk drains ticks tail =>
      have drained := drains.keepsShort short
      rcases ticks with ⟨_, ticks⟩ | rfl
      · have sends : Sends True (fun _ => True) _ _ := ticks.sends trivial
        exact tail.keepsShort (sends.keepsShort drained)
      · exact tail.keepsShort drained

theorem Runs.keepsShort {batches : List Batch} (runs : Runs rules batches state after)
    (short : state.Short) : after.Short := by
  induction runs with
  | nil | stop _ => exact short
  | cons _ iterates _ ih => exact ih (iterates.keepsShort short)

theorem State.init_short : (State.init : State ρ).Short := by
  intro fd client found
  cases found

end NetEngine.Epoll
