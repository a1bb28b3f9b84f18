import NetEngine.Epoll.ChatFrames

/-! The sizes of the frames that are queued: `queue_send` lets no payload over the limit
through, whoever calls it. -/

set_option autoImplicit false

namespace NetEngine.Epoll

open Socket

variable {ρ : Type}

/-- No frame that is queued has more payload than this. -/
def Obs.Under (limit : Nat) : Obs ρ → Prop
  | .append _ _ payload => payload.length ≤ limit
  | _ => True

/-- The trace has grown by such events. -/
def Grows (holds : Obs ρ → Prop) (state after : State ρ) : Prop :=
  ∃ more, after.trace = state.trace ++ more ∧ ∀ obs ∈ more, holds obs

namespace Grows

variable {holds : Obs ρ → Prop} {state middle after : State ρ}

theorem same (trace : after.trace = state.trace) : Grows holds state after :=
  ⟨[], by rw [trace, List.append_nil], fun _ member => (List.not_mem_nil member).elim⟩

theorem trans (first : Grows holds state middle) (second : Grows holds middle after) :
    Grows holds state after := by
  obtain ⟨early, earlyTrace, earlyHolds⟩ := first
  obtain ⟨late, lateTrace, lateHolds⟩ := second
  refine ⟨early ++ late, by rw [lateTrace, earlyTrace, List.append_assoc], fun obs member => ?_⟩
  exact (List.mem_append.mp member).elim (earlyHolds obs) (lateHolds obs)

end Grows

variable {rules : Rules ρ} {state after : State ρ} {fd : Fd} {limit : Nat}

/-- What only sends queues nothing. -/
theorem Sends.under {names : Prop} (sends : Sends names (fun _ => False) state after) :
    Grows (Obs.Under limit) state after := by
  obtain ⟨more, grown, silent⟩ := sends.trace
  refine ⟨more, grown, fun obs member => ?_⟩
  have sending := silent obs member
  cases obs <;> trivial

theorem State.queueSend_under (type : UInt16) (payload : Bytes) :
    Grows (Obs.Under maxPayload) state (state.queueSend type payload fd) := by
  by_cases opened : state.Open fd
  · rcases State.queueSend_cases type payload opened with
      ⟨_, same⟩ | ⟨short, _, same⟩ | ⟨_, _, same⟩
    · exact .same (by rw [same])
    · rw [same]
      exact ⟨[.append fd type payload], rfl, fun _ member => List.mem_singleton.mp member ▸ short⟩
    · rw [same]
      have sends : Sends True (fun _ => False) state (state.refuse fd payload) := State.refuse_sends
      exact sends.under
  · refine .same ?_
    cases found : state.clients fd with
    | none => simp [State.queueSend, found]
    | some client =>
        have closing : client.closing = true := by
          cases shut : client.closing with
          | true => rfl
          | false => exact absurd ⟨client, found, shut⟩ opened
        simp [State.queueSend, found, closing]

theorem Walk.under {type : UInt16} {payload : Bytes} {fds : List Fd}
    (walk : Walk rules (State.queueSend type payload) fds state after) :
    Grows (Obs.Under maxPayload) state after := by
  induction walk with
  | nil => exact .same rfl
  | skip _ _ ih => exact ih
  | visit _ follows _ ih =>
      have silent : Sends True (fun _ => False) _ _ := follows.sends
      exact (State.queueSend_under type payload).trans (silent.under.trans ih)

theorem Broadcast.under {room : ρ} {type : UInt16} {payload : Bytes} {except : Option Fd}
    (told : Broadcast rules room type payload except state after) :
    Grows (Obs.Under maxPayload) state after := by
  obtain ⟨_, _, _, walk⟩ := told
  exact walk.under

theorem Switch.under {client : Client ρ} (leaves : Switch rules fd client state after) :
    Grows (Obs.Under maxPayload) state after := by
  cases leaves with
  | stay _ => exact .same rfl
  | leave _ bye => exact bye.under.trans (.same rfl)

theorem Packet.under {type : UInt16} {payload : Bytes}
    (packet : Packet rules fd payload type state after) :
    Grows (Obs.Under maxPayload) state after := by
  have named : ∀ nick, Grows (Obs.Under maxPayload) state (state.setNick fd nick) :=
    fun _ => .same rfl
  cases packet with
  | setNick => exact (named _).trans (State.queueSend_under ..)
  | nickFirst _ _ | roomRequired _ _ _ | joinFirst _ _ => exact State.queueSend_under ..
  | @join _ left _ _ room _ _ _ _ leaves _ hello =>
      have entered : Grows (Obs.Under maxPayload) left (left.enterRoom fd (some room)) := .same rfl
      exact leaves.under.trans (entered.trans ((State.queueSend_under ..).trans hello.under))
  | record _ _ _ => exact .same rfl
  | chat _ _ _ told => exact told.under
  | unknown _ _ _ =>
      have sends : Sends True (fun _ => False) state (state.doom fd) := State.doom_sends
      exact sends.under

theorem Depart.under {client : Client ρ} (departs : Depart rules fd client state after) :
    Grows (Obs.Under maxPayload) state after := by
  cases departs with
  | silent _ => exact .same rfl
  | notice _ _ told =>
      have left : Grows (Obs.Under maxPayload) state (state.enterRoom fd none) := .same rfl
      exact left.trans told.under

end NetEngine.Epoll
