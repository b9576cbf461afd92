import ScannerGen.Failure
import ScannerGen.Regex.Basic

/-
  The number of automaton states that an expression is expected to need. The sums and products are
  cut off at `maxWord`, because every negation squares the number below it.
-/

namespace ScannerGen

/-- A sum, or `maxWord` if that is less. -/
def cappedAdd (a b : Nat) : Nat := min (a + b) maxWord

/-- A product, or `maxWord` if that is less. -/
def cappedMul (a b : Nat) : Nat := min (a * b) maxWord

/-- A state before and after a single code, and one more than a text has codes. -/
def Leaf.estimate (ofUse : String → Nat) : Leaf → Nat
  | one _ => 2
  | text s _ => s.length + 1
  | use name => ofUse name

/-- The estimate of an expression, from those of its parts. What is determinized to be negated
counts as the square of its states. -/
def Regex.estimate (ofUse : String → Nat) : Regex → Nat
  | alt r s => cappedAdd (cappedAdd (r.estimate ofUse) (s.estimate ofUse)) 2
  | cat r s => cappedAdd (r.estimate ofUse) (s.estimate ofUse)
  | star r | plus r => cappedAdd (r.estimate ofUse) 2
  | opt r => r.estimate ofUse
  | compl r =>
    let n := r.estimate ofUse
    cappedMul n n
  | upTo r =>
    let n := r.estimate ofUse
    cappedMul (cappedMul n n) 3
  | leaf l => l.estimate ofUse

end ScannerGen
