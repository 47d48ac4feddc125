import Mathlib.Algebra.GroupWithZero.Nat
import Mathlib.Data.List.Basic

/-!
Text split into lines the way `str.splitlines` splits it. A line ends at any of
ten characters, or at a carriage return with its line feed; a break at the very
end opens no further line.
-/
namespace ContextLedger.TextLines

/-- The characters at which a line ends. -/
def isLineBreak (c : Char) : Bool :=
  let n := c.toNat
  (10 ≤ n && n ≤ 13) || (28 ≤ n && n ≤ 30) || n == 0x85 || n == 0x2028 || n == 0x2029

def IsLine (text : List Char) : Prop := ∀ c ∈ text, isLineBreak c = false

instance (text : List Char) : Decidable (IsLine text) :=
  decidable_of_iff ((text.all fun c => !isLineBreak c) = true) (by simp [IsLine])

theorem IsLine.append {a b : List Char} (ha : IsLine a) (hb : IsLine b) : IsLine (a ++ b) := by
  intro c hc
  rcases List.mem_append.mp hc with hc | hc
  · exact ha c hc
  · exact hb c hc

theorem IsLine.cons {c : Char} {text : List Char} (hc : isLineBreak c = false)
    (h : IsLine text) : IsLine (c :: text) := by
  intro d hd
  rcases List.mem_cons.mp hd with rfl | hd
  · exact hc
  · exact h d hd

end ContextLedger.TextLines
