import NetEngine.Library.Decimal
import NetEngine.Library.Words

/-! IPv4 addresses in dotted decimal, as `inet_pton` reads them. -/

set_option autoImplicit false

namespace NetEngine.Inet

structure Addr where
  a : UInt8
  b : UInt8
  c : UInt8
  d : UInt8
  deriving DecidableEq

/-- One part: at most 255, without leading zeros. -/
def octet (text : List UInt8) : Option UInt8 :=
  match Decimal.read text with
  | none => none
  | some n => if n ≤ 255 ∧ Decimal.print n = text then some (UInt8.ofNat n) else none

def pton (text : List UInt8) : Option Addr :=
  match (text.splitOnP (· = 46)).mapM octet with
  | some [a, b, c, d] => some ⟨a, b, c, d⟩
  | _ => none

theorem octet_print {n : Nat} (small : n ≤ 255) : octet (Decimal.print n) = some (UInt8.ofNat n) := by
  rw [octet, Decimal.read_print]
  exact if_pos ⟨small, rfl⟩

theorem print_undotted {n : Nat} {letter : UInt8} (member : letter ∈ Decimal.print n) :
    decide (letter = 46) = false := by
  obtain ⟨low, _⟩ := Decimal.print_digits member
  apply decide_eq_false
  rintro rfl
  exact absurd low (by decide)

/-- What is written in dotted decimal is read back. -/
theorem pton_dotted {a b c d : Nat} (a_small : a ≤ 255) (b_small : b ≤ 255) (c_small : c ≤ 255)
    (d_small : d ≤ 255) :
    pton (Decimal.print a ++ 46 :: (Decimal.print b ++ 46 :: (Decimal.print c ++ 46 :: Decimal.print d))) =
      some ⟨UInt8.ofNat a, UInt8.ofNat b, UInt8.ofNat c, UInt8.ofNat d⟩ := by
  have cut (n : Nat) (text : List UInt8) :
      (Decimal.print n ++ 46 :: text).splitOnP (fun letter => decide (letter = 46)) =
        Decimal.print n :: text.splitOnP fun letter => decide (letter = 46) :=
    List.splitOnP_append_cons_of_forall_mem (fun _ member => print_undotted member) 46 (by decide) text
  have last : (Decimal.print d).splitOnP (fun letter => decide (letter = 46)) = [Decimal.print d] :=
    List.splitOnP_eq_singleton fun _ member => print_undotted member
  simp only [pton, cut, last, List.mapM_cons, List.mapM_nil, octet_print, a_small, b_small, c_small,
    d_small, bind, Option.bind, pure]

end NetEngine.Inet
