import Mathlib.Data.List.Basic

/-! Non-blocking sockets as scripts: what the kernel answers to the calls of one
send or receive loop, in order. A script that is used up answers that the call
would block. -/

set_option autoImplicit false

namespace NetEngine.Socket

variable {α : Type}

/-- `took more` accepts `more + 1` elements, or all that was offered. -/
inductive SendAnswer where
  | took (more : Nat)
  | wouldBlock
  | interrupted
  | failed
  deriving DecidableEq

/-- `data []` is an orderly end of the stream, as a count of zero is. -/
inductive RecvAnswer (α : Type) where
  | data (elements : List α)
  | eof
  | wouldBlock
  | interrupted
  | failed

inductive SendEnd where
  | drained
  | blocked
  | broken
  deriving DecidableEq

structure Sent (α : Type) where
  sent : List α
  rest : List α
  how : SendEnd

def Sent.after (first : List α) (last : Sent α) : Sent α := { last with sent := first ++ last.sent }

/-- Offer the data until it is gone, the socket would block, or a hard error. -/
def sendLoop : List α → List SendAnswer → Sent α
  | [], _ => ⟨[], [], .drained⟩
  | data, [] => ⟨[], data, .blocked⟩
  | data, .took more :: answers =>
      (sendLoop (data.drop (more + 1)) answers).after (data.take (more + 1))
  | data, .wouldBlock :: _ => ⟨[], data, .blocked⟩
  | data, .interrupted :: answers => sendLoop data answers
  | data, .failed :: _ => ⟨[], data, .broken⟩

/-- Whether the loop over `offered` elements meets a hard error. -/
def breaks : Nat → List SendAnswer → Bool
  | 0, _ => false
  | _, [] => false
  | offered, .took more :: answers => breaks (offered - (more + 1)) answers
  | _, .wouldBlock :: _ => false
  | offered, .interrupted :: answers => breaks offered answers
  | _, .failed :: _ => true

@[simp] theorem sendLoop_nil (answers : List SendAnswer) :
    sendLoop ([] : List α) answers = ⟨[], [], .drained⟩ := by
  cases answers <;> rfl

/-- Nothing is lost between what was sent and what is left. -/
theorem sendLoop_conserves (data : List α) (answers : List SendAnswer) :
    (sendLoop data answers).sent ++ (sendLoop data answers).rest = data := by
  induction answers generalizing data with
  | nil => cases data <;> rfl
  | cons answer answers ih =>
      cases data with
      | nil => rfl
      | cons head tail =>
          cases answer with
          | took more =>
              simp only [sendLoop, Sent.after, List.append_assoc, ih, List.take_append_drop]
          | interrupted => exact ih (head :: tail)
          | wouldBlock | failed => rfl

theorem sendLoop_rest (data : List α) (answers : List SendAnswer) :
    data.drop (sendLoop data answers).sent.length = (sendLoop data answers).rest := by
  have whole := sendLoop_conserves data answers
  generalize sendLoop data answers = loop at whole ⊢
  rw [← whole]
  exact List.drop_left

theorem sendLoop_drained_iff (data : List α) (answers : List SendAnswer) :
    (sendLoop data answers).how = .drained ↔ (sendLoop data answers).rest = [] := by
  induction answers generalizing data with
  | nil => cases data <;> simp [sendLoop]
  | cons answer answers ih =>
      cases data with
      | nil => simp
      | cons head tail =>
          cases answer with
          | took more => exact ih _
          | interrupted => exact ih (head :: tail)
          | wouldBlock | failed => simp [sendLoop]

theorem sendLoop_broken_iff (data : List α) (answers : List SendAnswer) :
    (sendLoop data answers).how = .broken ↔ breaks data.length answers = true := by
  induction answers generalizing data with
  | nil => cases data <;> simp [sendLoop, breaks]
  | cons answer answers ih =>
      cases data with
      | nil => simp [breaks]
      | cons head tail =>
          cases answer with
          | took more =>
              have rest := ih ((head :: tail).drop (more + 1))
              rwa [List.length_drop] at rest
          | interrupted => exact ih (head :: tail)
          | wouldBlock | failed => simp [sendLoop, breaks]

end NetEngine.Socket
