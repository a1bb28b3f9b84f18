import Mathlib.Data.Nat.Bitwise
import NetEngine.Library.Region

/-! `sds::ring_buffer`: one byte ring with a producer and a consumer cursor.
Cursors are 64-bit words; `static_cast` between `i64` and `usize` keeps the
word, so the difference of two cursors is the unsigned difference. The
operations of the `single` policy run to completion; the concurrent machine of
`RingBufferSpsc` executes the same pieces one shared access at a time. -/

set_option autoImplicit false

namespace NetEngine.RingBuffer

open Region

abbrev Bytes := List UInt8
abbrev Cursor := BitVec 64

/-- The template parameter `N`, with its two `static_assert`s: a power of two
of at least 2 that a `usize` can hold. -/
structure Capacity where
  bits : Nat
  atLeastTwo : 1 ≤ bits
  representable : bits < 64

def Capacity.size (cap : Capacity) : Nat := 2 ^ cap.bits

def Capacity.mask (cap : Capacity) : BitVec 64 := BitVec.ofNat 64 (cap.size - 1)

/-- `static_cast<usize>(cursor) & MASK`. -/
def cellOf (cap : Capacity) (cursor : Cursor) : Nat := (cursor &&& cap.mask).toNat

/-- The two cursors of `ring_sync` and the storage `buffer_`. -/
structure Ring where
  enqueue : Cursor
  dequeue : Cursor
  buffer : Nat → UInt8

def Ring.empty : Ring := ⟨0, 0, fun _ => 0⟩

/-- `write_at`: the contiguous run to the end of the storage, then the rest. -/
def writeAt (cap : Capacity) (cursor : Cursor) (src : Bytes) : List (Copy UInt8) :=
  let off := cellOf cap cursor
  let first := min src.length (cap.size - off)
  [⟨off, src.take first⟩, ⟨0, src.drop first⟩]

/-- The two regions that `dequeue` and `peek` copy `n` bytes from. -/
def readAt (cap : Capacity) (cursor : Cursor) (n : Nat) : List (Nat × Nat) :=
  let off := cellOf cap cursor
  let first := min n (cap.size - off)
  [(off, first), (0, n - first)]

/-- The room test of `enqueue`, in `usize` arithmetic. -/
def fits (cap : Capacity) (own peer : Cursor) (n : BitVec 64) : Bool :=
  decide (((own - peer) + n).toNat ≤ cap.size)

def directEnqueueSize (cap : Capacity) (own peer : Cursor) : Nat :=
  min (BitVec.ofNat 64 cap.size - (own - peer)).toNat (cap.size - cellOf cap own)

def directDequeueSize (cap : Capacity) (own peer : Cursor) : Nat :=
  min (peer - own).toNat (cap.size - cellOf cap own)

/-! ## Operations of the single-owner policy -/

namespace Ring

def freeSize (cap : Capacity) (ring : Ring) : Nat :=
  (BitVec.ofNat 64 cap.size - (ring.enqueue - ring.dequeue)).toNat

def usedSize (ring : Ring) : Nat := (ring.enqueue - ring.dequeue).toNat

/-- All or nothing: the ring after the call, and the number of bytes taken. -/
def push (cap : Capacity) (ring : Ring) (src : Bytes) : Ring × Nat :=
  if fits cap ring.enqueue ring.dequeue (BitVec.ofNat 64 src.length) then
    ({ ring with
        buffer := (writeAt cap ring.enqueue src).foldl Copy.apply ring.buffer
        enqueue := ring.enqueue + BitVec.ofNat 64 src.length }, src.length)
  else (ring, 0)

def peek (cap : Capacity) (ring : Ring) (n : Nat) : Bytes :=
  let n := min n (ring.enqueue - ring.dequeue).toNat
  (readAt cap ring.dequeue n).flatMap fun region => read ring.buffer region.1 region.2

def pop (cap : Capacity) (ring : Ring) (n : Nat) : Ring × Bytes :=
  let n := min n (ring.enqueue - ring.dequeue).toNat
  ({ ring with dequeue := ring.dequeue + BitVec.ofNat 64 n },
    (readAt cap ring.dequeue n).flatMap fun region => read ring.buffer region.1 region.2)

/-- The `n` bytes at `direct_dequeue_ptr()`. -/
def direct (cap : Capacity) (ring : Ring) (n : Nat) : Bytes :=
  read ring.buffer (cellOf cap ring.dequeue) n

def commitDequeue (ring : Ring) (k : Nat) : Ring :=
  { ring with dequeue := ring.dequeue + BitVec.ofNat 64 k }

end Ring

/-! ## Cursor arithmetic -/

theorem Capacity.size_pos (cap : Capacity) : 0 < cap.size := Nat.two_pow_pos _

theorem Capacity.size_le (cap : Capacity) : cap.size ≤ 2 ^ 63 :=
  Nat.pow_le_pow_right (by omega) (by have := cap.representable; omega)

theorem Capacity.size_dvd (cap : Capacity) : cap.size ∣ 2 ^ 64 :=
  Nat.pow_dvd_pow 2 (by have := cap.representable; omega)

theorem cellOf_eq (cap : Capacity) (cursor : Cursor) :
    cellOf cap cursor = cursor.toNat % cap.size := by
  have small : cap.size - 1 < 2 ^ 64 := by have := cap.size_le; omega
  rw [cellOf, BitVec.toNat_and, Capacity.mask, BitVec.toNat_ofNat, Nat.mod_eq_of_lt small]
  exact Nat.and_two_pow_sub_one_eq_mod _ _

/-- A cursor that counted `n` bytes points at cell `n % N`, wrapped or not. -/
theorem cellOf_ofNat (cap : Capacity) (n : Nat) :
    cellOf cap (BitVec.ofNat 64 n) = n % cap.size := by
  rw [cellOf_eq, BitVec.toNat_ofNat, Nat.mod_mod_of_dvd _ cap.size_dvd]

theorem cursor_sub {low high : Nat} (ordered : low ≤ high) (near : high - low < 2 ^ 64) :
    (BitVec.ofNat 64 high - BitVec.ofNat 64 low).toNat = high - low := by
  rw [BitVec.toNat_sub, BitVec.toNat_ofNat, BitVec.toNat_ofNat]
  omega

theorem cursor_add (count more : Nat) :
    BitVec.ofNat 64 count + BitVec.ofNat 64 more = BitVec.ofNat 64 (count + more) :=
  (BitVec.ofNat_add ..).symm

/-- With counts for cursors the room test is the test on unbounded numbers. -/
theorem fits_iff {cap : Capacity} {low high n : Nat} (ordered : low ≤ high)
    (bounded : high ≤ low + cap.size) (short : n < 2 ^ 63) :
    fits cap (BitVec.ofNat 64 high) (BitVec.ofNat 64 low) (BitVec.ofNat 64 n) = true ↔
      high + n ≤ low + cap.size := by
  have size := cap.size_le
  have used := cursor_sub ordered (by omega)
  rw [fits, decide_eq_true_iff, BitVec.toNat_add, used, BitVec.toNat_ofNat]
  omega

theorem free_eq {cap : Capacity} {low high : Nat} (ordered : low ≤ high)
    (bounded : high ≤ low + cap.size) :
    (BitVec.ofNat 64 cap.size - (BitVec.ofNat 64 high - BitVec.ofNat 64 low)).toNat =
      low + cap.size - high := by
  have size := cap.size_le
  have used := cursor_sub ordered (by omega)
  rw [BitVec.toNat_sub, used, BitVec.toNat_ofNat]
  omega

/-! ## Regions at a cursor -/

/-- `write_at` lays its bytes over the window that starts at the cursor. -/
theorem writeAt_lays (cap : Capacity) (base : Nat) (src : Bytes) (room : src.length ≤ cap.size)
    (store : Nat → UInt8) :
    Lays cap.size base src store (writeAt cap (BitVec.ofNat 64 base) src) := by
  have position : base % cap.size < cap.size := Nat.mod_lt _ cap.size_pos
  simp only [writeAt, cellOf_ofNat]
  have wrapped : ∀ index < src.length - (cap.size - base % cap.size),
      (base + (cap.size - base % cap.size + index)) % cap.size = index :=
    fun index bound => position_wrapped position (by omega)
  -- the distance to the end of the storage, where the window is cut
  generalize gapEq : cap.size - base % cap.size = gap at wrapped ⊢
  constructor
  · intro copy member index bound
    simp only [List.mem_cons, List.not_mem_nil, or_false] at member
    rcases member with rfl | rfl
    · simp only [List.length_take] at bound
      exact ⟨index, by omega, (position_unwrapped (by omega)).symm⟩
    · simp only [List.length_drop] at bound
      refine ⟨gap + index, by omega, ?_⟩
      rw [wrapped index (by omega), Nat.zero_add]
  · intro index bound
    simp only [List.foldl_cons, List.foldl_nil, Copy.apply]
    obtain early | late : index < gap ∨ gap ≤ index := by omega
    · rw [position_unwrapped (by omega)]
      rw [write_outside, write_inside _ _ _ _ (by simp; omega), List.getElem_take]
      right
      simp only [List.length_drop]
      omega
    · obtain ⟨rest, restEq⟩ : ∃ rest, index = gap + rest := ⟨index - gap, by omega⟩
      subst restEq
      have short : min src.length gap = gap := by omega
      rw [wrapped rest (by omega), short]
      have cell := write_inside (write store (base % cap.size) (src.take gap)) 0 (src.drop gap)
        rest (by simp; omega)
      rw [Nat.zero_add] at cell
      rw [cell, List.getElem_drop]

/-- The two copies of `write_at` stay inside of the storage. -/
theorem writeAt_inside (cap : Capacity) (cursor : Cursor) (src : Bytes)
    (room : src.length ≤ cap.size) :
    ∀ copy ∈ writeAt cap cursor src, copy.offset + copy.data.length ≤ cap.size := by
  have position : cellOf cap cursor < cap.size := cellOf_eq cap cursor ▸ Nat.mod_lt _ cap.size_pos
  intro copy member
  simp only [writeAt, List.mem_cons, List.not_mem_nil, or_false] at member
  rcases member with rfl | rfl
  · simp only [List.length_take]
    omega
  · simp only [List.length_drop]
    omega

/-- The regions of `dequeue` and `peek` read the window that starts at the cursor. -/
theorem readAt_window (cap : Capacity) (base n : Nat) (room : n ≤ cap.size)
    (store : Nat → UInt8) :
    ((readAt cap (BitVec.ofNat 64 base) n).flatMap fun region => read store region.1 region.2) =
      window store cap.size base n := by
  simpa [readAt, cellOf_ofNat] using window_eq_reads store room cap.size_pos

theorem readAt_inside (cap : Capacity) (base n : Nat) (room : n ≤ cap.size) :
    ∀ region ∈ readAt cap (BitVec.ofNat 64 base) n, ∀ index < region.2,
      ∃ position < n, region.1 + index = (base + position) % cap.size := by
  have position : base % cap.size < cap.size := Nat.mod_lt _ cap.size_pos
  intro region member index bound
  simp only [readAt, cellOf_ofNat, List.mem_cons, List.not_mem_nil, or_false] at member
  rcases member with rfl | rfl
  · exact ⟨index, by simp only at bound; omega,
      (position_unwrapped (by simp only at bound; omega)).symm⟩
  · simp only at bound
    refine ⟨cap.size - base % cap.size + index, by omega, ?_⟩
    rw [position_wrapped position (by omega), Nat.zero_add]

theorem readAt_reads (cap : Capacity) (base n : Nat) (room : n ≤ cap.size)
    (store : Nat → UInt8) :
    Reads cap.size base (window store cap.size base n) store []
      (readAt cap (BitVec.ofNat 64 base) n) :=
  ⟨by simpa using readAt_inside cap base n room, by simpa using readAt_window cap base n room store⟩

end NetEngine.RingBuffer
