import ScannerGen.Alphabet.CodeSet

/-
  Regular expressions of a scanner specification. A leaf matches one code, a text, or whatever the
  macro stands for that it names. A function of expressions whose value hangs on the macros takes
  the value of a use as a function `ofUse` of the name.
-/

namespace ScannerGen

/-- What a single code has to be. -/
inductive CodePattern where
  | code (c : Nat) (caseless : Bool)
  | oneOf (s : CodeSet)
  | noneOf (s : CodeSet)
  deriving DecidableEq, Repr

/-- What is matched without looking further into an expression. -/
inductive Leaf where
  | one (p : CodePattern)
  | text (s : String) (caseless : Bool)
  | use (name : String)
  deriving DecidableEq, Repr

/-- `compl r` matches what `r` does not, and `upTo r` a text with no match of `r` in it and then a
match of `r`. -/
inductive Regex where
  | alt (r s : Regex)
  | cat (r s : Regex)
  | star (r : Regex)
  | plus (r : Regex)
  | opt (r : Regex)
  | compl (r : Regex)
  | upTo (r : Regex)
  | leaf (l : Leaf)
  deriving DecidableEq, Repr

namespace Regex

/-- An expression for a single code. -/
def one (p : CodePattern) : Regex := leaf (.one p)

/-- An expression for one text. -/
def text (s : String) (caseless : Bool) : Regex := leaf (.text s caseless)

/-- The use of a macro. -/
def use (name : String) : Regex := leaf (.use name)

/-- The leaves from left to right. -/
def leaves : Regex → List Leaf
  | alt r s | cat r s => r.leaves ++ s.leaves
  | star r | plus r | opt r | compl r | upTo r => r.leaves
  | leaf l => [l]

/-- The names of the macros used, from left to right. -/
def macroUses (r : Regex) : List String :=
  r.leaves.filterMap fun
    | .use name => some name
    | _ => none

/-- Puts `f name` in place of every use of a macro `name`. -/
def subst (f : String → Regex) : Regex → Regex
  | alt r s => alt (r.subst f) (s.subst f)
  | cat r s => cat (r.subst f) (s.subst f)
  | star r => star (r.subst f)
  | plus r => plus (r.subst f)
  | opt r => opt (r.subst f)
  | compl r => compl (r.subst f)
  | upTo r => upTo (r.subst f)
  | leaf (.use name) => f name
  | leaf l => leaf l

/-- `subst` with effects, which happen from left to right. -/
def substM {m : Type → Type} [Monad m] (f : String → m Regex) : Regex → m Regex
  | alt r s => do
    let r' ← r.substM f
    let s' ← s.substM f
    pure (alt r' s')
  | cat r s => do
    let r' ← r.substM f
    let s' ← s.substM f
    pure (cat r' s')
  | star r => do
    let r' ← r.substM f
    pure (star r')
  | plus r => do
    let r' ← r.substM f
    pure (plus r')
  | opt r => do
    let r' ← r.substM f
    pure (opt r')
  | compl r => do
    let r' ← r.substM f
    pure (compl r')
  | upTo r => do
    let r' ← r.substM f
    pure (upTo r')
  | leaf (.use name) => f name
  | leaf l => pure (leaf l)

/-- Whether the expression is an alternation of patterns for a single code. -/
def isCodeClass (ofUse : String → Bool) : Regex → Bool
  | alt r s => r.isCodeClass ofUse && s.isCodeClass ofUse
  | leaf (.one _) => true
  | leaf (.use name) => ofUse name
  | _ => false

end Regex

end ScannerGen
