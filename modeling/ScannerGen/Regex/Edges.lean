import ScannerGen.Alphabet.Caseless
import ScannerGen.Regex.Basic

/-
  What an expression tells about its matches without being run: their common length, whether the
  empty word is one, and the codes with which a non-empty one can begin and end.
-/

namespace ScannerGen

/-- The codes that match, of an alphabet that ends at `top`. -/
def CodePattern.codes (top : Nat) : CodePattern → CodeSet
  | code c caseless => (CodeSet.single c).withCase caseless
  | oneOf s => s
  | noneOf s => s.complement top

namespace Leaf

/-- The common length of what a leaf matches, counted in codes. -/
def length? (ofUse : String → Option Nat) : Leaf → Option Nat
  | one _ => some 1
  | text s _ => some s.length
  | use name => ofUse name

/-- Whether a leaf matches the empty word. -/
def matchesEmpty (ofUse : String → Bool) : Leaf → Bool
  | one _ => false
  | text s _ => s.isEmpty
  | use name => ofUse name

/-- The codes of `one p`, or of the chosen character of a text. -/
def edge (top : Nat) (pick : List Char → Option Char) (ofUse : String → CodeSet) : Leaf → CodeSet
  | one p => p.codes top
  | text s caseless =>
    match pick s.toList with
    | some c => (CodePattern.code c.toNat caseless).codes top
    | none => ∅
  | use name => ofUse name

end Leaf

namespace Regex

/-- The length of every match, if all have the same. -/
def length? (ofUse : String → Option Nat) : Regex → Option Nat
  | alt r s => do
    let m ← r.length? ofUse
    let n ← s.length? ofUse
    if n = m then some m else none
  | cat r s => do
    let m ← r.length? ofUse
    let n ← s.length? ofUse
    pure (m + n)
  | star _ | plus _ | opt _ | compl _ | upTo _ => none
  | leaf l => l.length? ofUse

/-- Whether a leaf matches the empty word. -/
def matchesEmpty (ofUse : String → Bool) : Regex → Bool
  | alt r s => r.matchesEmpty ofUse || s.matchesEmpty ofUse
  | cat r s => r.matchesEmpty ofUse && s.matchesEmpty ofUse
  | star _ | opt _ => true
  | plus r => r.matchesEmpty ofUse
  | compl r => !r.matchesEmpty ofUse
  | upTo _ => false
  | leaf l => l.matchesEmpty ofUse

/-- The codes with which a non-empty match can begin. `empties` tells which macros match the empty
word. -/
def first (top : Nat) (empties : String → Bool) (ofUse : String → CodeSet) : Regex → CodeSet
  | alt r s => (r.first top empties ofUse).union (s.first top empties ofUse)
  | cat r s =>
    if r.matchesEmpty empties then
      (r.first top empties ofUse).union (s.first top empties ofUse)
    else r.first top empties ofUse
  | star r | plus r | opt r => r.first top empties ofUse
  | compl _ | upTo _ => .upTo top
  | leaf l => l.edge top List.head? ofUse

/-- The codes with which a non-empty match can end. `empties` tells which macros match the empty
word. -/
def last (top : Nat) (empties : String → Bool) (ofUse : String → CodeSet) : Regex → CodeSet
  | alt r s => (r.last top empties ofUse).union (s.last top empties ofUse)
  | cat r s =>
    if s.matchesEmpty empties then
      (s.last top empties ofUse).union (r.last top empties ofUse)
    else s.last top empties ofUse
  | star r | plus r | opt r => r.last top empties ofUse
  | compl _ => .upTo top
  | upTo r => r.last top empties ofUse
  | leaf l => l.edge top List.getLast? ofUse

end Regex

end ScannerGen
