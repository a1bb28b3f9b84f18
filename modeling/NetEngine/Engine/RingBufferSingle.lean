import NetEngine.Engine.RingBuffer

/-! `sds::ring_buffer` under the `single` policy is a byte queue. -/

set_option autoImplicit false

namespace NetEngine.RingBuffer

open Region

/-- The ring holds the bytes, behind `low` bytes that have left it. -/
def HoldsFrom (cap : Capacity) (ring : Ring) (low : Nat) (bytes : Bytes) : Prop :=
  ring.dequeue = BitVec.ofNat 64 low ∧ ring.enqueue = BitVec.ofNat 64 (low + bytes.length) ∧
    bytes.length ≤ cap.size ∧ window ring.buffer cap.size low bytes.length = bytes

def Holds (cap : Capacity) (ring : Ring) (bytes : Bytes) : Prop :=
  ∃ low, HoldsFrom cap ring low bytes

namespace Holds

variable {cap : Capacity} {ring : Ring} {bytes src : Bytes} {n : Nat}

theorem empty : Holds cap .empty [] :=
  ⟨0, rfl, rfl, Nat.zero_le _, rfl⟩

theorem bounded (holds : Holds cap ring bytes) : bytes.length ≤ cap.size := by
  obtain ⟨_, _, _, bounded, _⟩ := holds
  exact bounded

theorem used (holds : Holds cap ring bytes) :
    (ring.enqueue - ring.dequeue).toNat = bytes.length := by
  obtain ⟨low, tail, head, bounded, _⟩ := holds
  have size := cap.size_le
  rw [tail, head, cursor_sub (Nat.le_add_right _ _) (by omega)]
  omega

theorem usedSize (holds : Holds cap ring bytes) : ring.usedSize = bytes.length := holds.used

theorem freeSize (holds : Holds cap ring bytes) :
    ring.freeSize cap = cap.size - bytes.length := by
  obtain ⟨low, tail, head, bounded, _⟩ := holds
  rw [Ring.freeSize, tail, head, free_eq (Nat.le_add_right _ _) (by omega)]
  omega

/-- What is behind the first bytes of the window. -/
theorem window_rest {store : Nat → UInt8} {low : Nat} (short : n ≤ bytes.length)
    (whole : window store cap.size low bytes.length = bytes) :
    window store cap.size (low + n) (bytes.drop n).length = bytes.drop n := by
  obtain ⟨rest, length⟩ := Nat.exists_eq_add_of_le short
  rw [length, window_append] at whole
  have back : (bytes.drop n).length = rest := by
    rw [List.length_drop, length]
    omega
  rw [back]
  conv_rhs => rw [← whole]
  rw [List.drop_left' (window_length ..)]

theorem push (holds : Holds cap ring bytes) (room : bytes.length + src.length ≤ cap.size)
    (short : src.length < 2 ^ 63) :
    (ring.push cap src).2 = src.length ∧ Holds cap (ring.push cap src).1 (bytes ++ src) := by
  obtain ⟨low, tail, head, bounded, whole⟩ := holds
  have fits : fits cap ring.enqueue ring.dequeue (BitVec.ofNat 64 src.length) = true := by
    rw [tail, head]
    exact (fits_iff (Nat.le_add_right _ _) (by omega) short).mpr (by omega)
  rw [Ring.push, if_pos fits]
  refine ⟨rfl, low, tail, ?_, ?_, ?_⟩
  · rw [head, cursor_add, List.length_append, Nat.add_assoc]
  · rwa [List.length_append]
  · -- the bytes that were there lie outside of what is written
    have laid : Lays cap.size low (bytes ++ src) ring.buffer ([] ++ writeAt cap ring.enqueue src) := by
      refine Lays.append room ⟨nofun, fun position bound => ?_⟩ fun after => ?_
      · have cell := congrArg (·[position]?) whole
        simpa [window, bound] using cell
      · rw [head]
        exact writeAt_lays cap _ src (by omega) after
    apply List.ext_getElem (by simp)
    intro index left right
    simpa [window] using laid.laid index right

theorem peek (holds : Holds cap ring bytes) (short : n ≤ bytes.length) :
    ring.peek cap n = bytes.take n := by
  have used := holds.used
  obtain ⟨low, tail, _, bounded, whole⟩ := holds
  rw [Ring.peek, used, Nat.min_eq_left short, tail, readAt_window cap low n (by omega),
    ← window_take _ _ _ short, whole]

theorem commitDequeue (holds : Holds cap ring bytes) (short : n ≤ bytes.length) :
    Holds cap (ring.commitDequeue n) (bytes.drop n) := by
  obtain ⟨low, tail, head, bounded, whole⟩ := holds
  refine ⟨low + n, ?_, ?_, ?_, window_rest short whole⟩
  · rw [Ring.commitDequeue, tail, cursor_add]
  · rw [Ring.commitDequeue, head, List.length_drop]
    congr 1
    omega
  · rw [List.length_drop]
    omega

theorem pop (holds : Holds cap ring bytes) (short : n ≤ bytes.length) :
    (ring.pop cap n).2 = bytes.take n ∧ Holds cap (ring.pop cap n).1 (bytes.drop n) := by
  refine ⟨holds.peek short, ?_⟩
  have popped : (ring.pop cap n).1 = ring.commitDequeue n := by
    rw [Ring.pop, holds.used, Nat.min_eq_left short]
    rfl
  rw [popped]
  exact holds.commitDequeue short

/-- What lies behind the direct pointer, as far as the storage goes. -/
theorem direct (holds : Holds cap ring bytes)
    (contiguous : n ≤ directDequeueSize cap ring.dequeue ring.enqueue) :
    ring.direct cap n = bytes.take n := by
  have used := holds.used
  obtain ⟨low, tail, head, bounded, whole⟩ := holds
  rw [directDequeueSize, used, Nat.le_min] at contiguous
  obtain ⟨short, straight⟩ := contiguous
  rw [Ring.direct, ← whole, window_take _ _ _ short]
  rw [tail, cellOf_ofNat] at straight ⊢
  have position : low % cap.size < cap.size := Nat.mod_lt _ cap.size_pos
  apply List.map_congr_left
  intro index member
  rw [List.mem_range] at member
  rw [position_unwrapped (by omega)]

end Holds

end NetEngine.RingBuffer
