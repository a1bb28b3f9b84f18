import Mathlib.Algebra.Group.Nat.Defs
import Mathlib.Logic.Function.Basic

/-! Byte memory: words of several bytes, least byte first, and lists that are
threaded through their own cells, each starting with the address of the next. -/

set_option autoImplicit false

namespace NetEngine.Memory

abbrev Ram := Nat → UInt8

variable {width : Nat} {memory later : Ram} {address other value : Nat}

def read : Nat → Ram → Nat → Nat
  | 0, _, _ => 0
  | width + 1, memory, address => (memory address).toNat + 256 * read width memory (address + 1)

def write : Nat → Ram → Nat → Nat → Ram
  | 0, memory, _, _ => memory
  | width + 1, memory, address, value =>
      write width (Function.update memory address (UInt8.ofNat value)) (address + 1) (value / 256)

theorem write_outside (outside : other < address ∨ address + width ≤ other) :
    write width memory address value other = memory other := by
  induction width generalizing memory address value with
  | zero => rfl
  | succ width ih =>
      have apart : other ≠ address := by omega
      rw [write, ih (by omega)]
      simp [apart]

theorem read_congr (same : ∀ offset, offset < width →
    later (address + offset) = memory (address + offset)) :
    read width later address = read width memory address := by
  induction width generalizing address with
  | zero => rfl
  | succ width ih =>
      have first := same 0 (Nat.succ_pos width)
      have rest : read width later (address + 1) = read width memory (address + 1) := by
        refine ih fun offset inside => ?_
        have next := same (offset + 1) (Nat.succ_lt_succ inside)
        rwa [Nat.add_comm offset 1, ← Nat.add_assoc] at next
      rw [read, read, rest]
      exact congrArg (fun byte : UInt8 => byte.toNat + _) first

theorem read_write (small : value < 256 ^ width) :
    read width (write width memory address value) address = value := by
  induction width generalizing memory address value with
  | zero =>
      have zero : value = 0 := by simpa using small
      rw [zero]
      rfl
  | succ width ih =>
      have quotient : value / 256 < 256 ^ width :=
        Nat.div_lt_of_lt_mul (by rwa [Nat.pow_succ, Nat.mul_comm] at small)
      rw [write, read, ih quotient, write_outside (.inl (Nat.lt_succ_self _))]
      simp only [Function.update_self, UInt8.toNat_ofNat']
      exact Nat.mod_add_div value 256

theorem read_write_apart (apart : other + width ≤ address ∨ address + width ≤ other) :
    read width (write width memory address value) other = read width memory other :=
  read_congr fun offset inside => write_outside (by omega)

/-! ## Lists in memory -/

/-- The cells of a list, from its head; a null address ends it. -/
inductive Chain (width : Nat) (memory : Ram) : Nat → List Nat → Prop where
  | nil : Chain width memory 0 []
  | cons {cell : Nat} {cells : List Nat} : cell ≠ 0 →
      Chain width memory (read width memory cell) cells → Chain width memory cell (cell :: cells)

namespace Chain

variable {head cell : Nat} {cells : List Nat}

theorem head_cases (chain : Chain width memory head cells) :
    head = 0 ∧ cells = [] ∨ head ≠ 0 ∧ ∃ rest, cells = head :: rest ∧
      Chain width memory (read width memory head) rest := by
  cases chain with
  | nil => exact .inl ⟨rfl, rfl⟩
  | cons nonnull rest => exact .inr ⟨nonnull, _, rfl, rest⟩

/-- The memory between the words of the cells does not matter. -/
theorem congr (chain : Chain width memory head cells)
    (same : ∀ cell ∈ cells, read width later cell = read width memory cell) :
    Chain width later head cells := by
  induction chain with
  | nil => exact .nil
  | @cons cell cells nonnull _ ih =>
      have rest := ih fun other member => same other (List.mem_cons_of_mem cell member)
      exact .cons nonnull (by rwa [same cell List.mem_cons_self])

theorem push (chain : Chain width memory head cells) (nonnull : cell ≠ 0)
    (small : head < 256 ^ width)
    (apart : ∀ other ∈ cells, other + width ≤ cell ∨ cell + width ≤ other) :
    Chain width (write width memory cell head) cell (cell :: cells) := by
  refine .cons nonnull ?_
  rw [read_write small]
  exact chain.congr fun other member => read_write_apart (apart other member)

end Chain

end NetEngine.Memory
