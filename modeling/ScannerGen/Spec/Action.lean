/-
  Actions: the code that a scanner runs for a match. The line of the rule that owns an action is
  its priority, and the lower line wins. Actions are the same to a scanner if their codes are, white
  space around it set aside.
-/

namespace ScannerGen

/-! ## White space -/

/-- Unicode white space (property White_Space). -/
def isBlank (c : Char) : Bool :=
  let n := c.toNat
  (0x9 ≤ n && n ≤ 0xD) || (0x2000 ≤ n && n ≤ 0x200A) ||
    [0x20, 0x85, 0xA0, 0x1680, 0x2028, 0x2029, 0x202F, 0x205F, 0x3000].contains n

/-- The characters without the blanks at either end. -/
def trimChars (cs : List Char) : List Char :=
  ((cs.dropWhile isBlank).reverse.dropWhile isBlank).reverse

/-- A text without the white space around it. -/
def trim (s : String) : String := String.ofList (trimChars s.toList)

/-! ## Actions -/

/-- The code of a rule or of an end-of-input action. -/
structure Action where
  content : String
  priority : Nat
  /-- The match ends before a lookahead text, which is to be pushed back. -/
  isLookahead : Bool
  deriving DecidableEq, Repr

namespace Action

/-- The code without the white space around it. -/
def code (a : Action) : String := trim a.content

/-- The action of the earlier line; on a tie the second one. -/
def earlier (a b : Action) : Action := if a.priority < b.priority then a else b

/-- The earlier of the actions that are there. -/
def merge : Option Action → Option Action → Option Action
  | some a, some b => some (a.earlier b)
  | some a, none => some a
  | none, b => b

/-- The same action, for a match that ends before a lookahead text. -/
def asLookahead (a : Action) : Action := { a with isLookahead := true }

/-- The form of an action in a report. -/
def display (a : Action) : String := s!"line {a.priority}: " ++ a.code

end Action

end ScannerGen
