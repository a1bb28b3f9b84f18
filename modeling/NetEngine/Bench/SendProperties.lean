import NetEngine.Bench.Traffic
import NetEngine.Library.Machine

/-! The bytes of one connection of the client on their way to the kernel: through
`send_frame` from the caller's buffer, or behind the unsent tail. -/

set_option autoImplicit false

namespace NetEngine.Bench

open Socket Machine

inductive SendCall where
  | frame (bytes : Bytes) (answers : List SendAnswer)
  | flush (answers : List SendAnswer)

/-- `c.pending`. The other fields are what an observer of the calls knows: the bytes
that the kernel took, the frames so far, how the last loop over `send` ended, and that
no call has failed. -/
structure Sender where
  pending : Bytes := []
  accepted : Bytes := []
  frames : List Bytes := []
  ended : SendEnd := .drained
  usable : Bool := true

namespace Sender

/-- The loop over `send` of a call, which finds this tail. -/
def loop (pending : Bytes) : SendCall → Sent UInt8
  | .flush answers => sendLoop pending answers
  | .frame bytes answers =>
      if pending ≠ [] then sendLoop (pending ++ bytes) answers else sendLoop bytes answers

def step (s : Sender) (call : SendCall) : Sender :=
  let (pending, usable) := match call with
    | .flush answers => flushPending s.pending answers
    | .frame bytes answers => sendFrame s.pending bytes answers
  { pending
    accepted := s.accepted ++ (loop s.pending call).sent
    frames := match call with
      | .flush _ => s.frames
      | .frame bytes _ => s.frames ++ [bytes]
    ended := (loop s.pending call).how
    usable := s.usable && usable }

def run (calls : List SendCall) : Sender := Machine.run step {} calls

/-- The stream is whole, and a tail is left only by a full socket. -/
structure Whole (s : Sender) : Prop where
  stream : s.accepted ++ s.pending = s.frames.flatten
  tail : s.pending = [] ∨ s.ended = .blocked

theorem flush_left (pending : Bytes) (answers : List SendAnswer)
    (usable : (flushPending pending answers).2 = true) :
    (flushPending pending answers).1 = (sendLoop pending answers).rest ∧
      (sendLoop pending answers).how ≠ .broken := by
  simpa [flushPending] using usable

/-- Either path leaves what its loop left. -/
theorem send_left (pending bytes : Bytes) (answers : List SendAnswer)
    (usable : (sendFrame pending bytes answers).2 = true) :
    (sendFrame pending bytes answers).1 =
        (loop pending (.frame bytes answers)).rest ∧
      (loop pending (.frame bytes answers)).how ≠ .broken := by
  by_cases queued : pending = []
  · simp only [sendFrame, loop, queued, ne_eq, not_true_eq_false, if_false] at usable ⊢
    cases how : (sendLoop bytes answers).how with
    | drained =>
        have rest := (sendLoop_drained_iff bytes answers).mp how
        simp [rest]
    | blocked => simp
    | broken => simp [how] at usable
  · simp only [sendFrame, loop, queued, ne_eq, not_false_eq_true, if_true] at usable ⊢
    exact flush_left _ _ usable

theorem ended_of_rest {data : Bytes} {answers : List SendAnswer}
    (unbroken : (sendLoop data answers).how ≠ .broken) :
    (sendLoop data answers).rest = [] ∨ (sendLoop data answers).how = .blocked := by
  cases how : (sendLoop data answers).how with
  | drained => exact .inl ((sendLoop_drained_iff data answers).mp how)
  | blocked => exact .inr rfl
  | broken => exact absurd how unbroken

theorem step_whole (s : Sender) (call : SendCall) (before : s.usable = true → s.Whole) :
    (s.step call).usable = true → (s.step call).Whole := by
  intro usable
  cases call with
  | flush answers =>
      simp only [step, Bool.and_eq_true] at usable
      obtain ⟨left, unbroken⟩ := flush_left s.pending answers usable.2
      have conserved := sendLoop_conserves s.pending answers
      constructor
      · calc (s.step (.flush answers)).accepted ++ (s.step (.flush answers)).pending
            = s.accepted ++ ((sendLoop s.pending answers).sent ++
                (sendLoop s.pending answers).rest) := by
              rw [← List.append_assoc, ← left]
              rfl
          _ = s.frames.flatten := by rw [conserved, (before usable.1).stream]
      · exact (ended_of_rest unbroken).imp left.trans id
  | frame bytes answers =>
      simp only [step, Bool.and_eq_true] at usable
      obtain ⟨left, unbroken⟩ := send_left s.pending bytes answers usable.2
      have stream := (before usable.1).stream
      have offered : s.accepted ++ ((loop s.pending (.frame bytes answers)).sent ++
            (loop s.pending (.frame bytes answers)).rest) = s.accepted ++ s.pending ++ bytes ∧
          ((loop s.pending (.frame bytes answers)).rest = [] ∨
            (loop s.pending (.frame bytes answers)).how = .blocked) := by
        by_cases queued : s.pending = []
        · simp only [loop, queued, ne_eq, not_true_eq_false, if_false] at unbroken ⊢
          exact ⟨by rw [sendLoop_conserves, List.append_nil], ended_of_rest unbroken⟩
        · simp only [loop, queued, ne_eq, not_false_eq_true, if_true] at unbroken ⊢
          exact ⟨by rw [sendLoop_conserves, List.append_assoc], ended_of_rest unbroken⟩
      constructor
      · calc (s.step (.frame bytes answers)).accepted ++ (s.step (.frame bytes answers)).pending
            = s.accepted ++ ((loop s.pending (.frame bytes answers)).sent ++
                (loop s.pending (.frame bytes answers)).rest) := by
              rw [← List.append_assoc, ← left]
              rfl
          _ = (s.frames ++ [bytes]).flatten := by
              rw [offered.1, stream, List.flatten_concat]
      · exact offered.2.imp left.trans id

end Sender

/-- Whatever the kernel answers short of an error, no byte of a frame is lost, doubled or
overtaken. -/
theorem send_stream_integrity (calls : List SendCall) :
    (Sender.run calls).usable = true → (Sender.run calls).Whole :=
  run_keeps Sender.step_whole (fun _ => ⟨rfl, .inl rfl⟩) calls

/-- A frame that leaves a tail, one behind it, and a socket that becomes writable. -/
theorem send_stream_integrity_tail :
    (Sender.run [.frame [1, 2, 3] [.took 0], .frame [4] [], .flush [.took 8]]).Whole :=
  send_stream_integrity [.frame [1, 2, 3] [.took 0], .frame [4] [], .flush [.took 8]] (by decide)

end NetEngine.Bench
