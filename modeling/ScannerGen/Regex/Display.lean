import ScannerGen.Regex.Basic
import ScannerGen.Text.Quoted

/-
  How sets of codes and regular expressions are shown in messages.
-/

namespace ScannerGen

/-- One code, or its first and last code. -/
def Interval.display (iv : Interval) : String :=
  if iv.lo = iv.hi then "'" ++ codeText iv.lo ++ "'"
  else "['" ++ codeText iv.lo ++ "'-'" ++ codeText iv.hi ++ "']"

/-- The intervals of a set. -/
def CodeSet.display (s : CodeSet) : String :=
  "\x7b " ++ ", ".intercalate (s.toList.map Interval.display) ++ " \x7d"

/-- A percent sign marks what is matched without regard to case. -/
def caselessMark (caseless : Bool) : String := if caseless then "%" else ""

/-- A negated class is marked by a caret. -/
def CodePattern.display : CodePattern → String
  | code c caseless => caselessMark caseless ++ (Interval.single c).display
  | oneOf s => "[" ++ s.display ++ "]"
  | noneOf s => "[^" ++ s.display ++ "]"

/-- Names of macros stand in braces. -/
def Leaf.display : Leaf → String
  | one p => p.display
  | text s caseless => caselessMark caseless ++ quoted s
  | use name => "\x7b" ++ name ++ "\x7d"

/-- Concatenation alone is written without parentheses. -/
def Regex.display : Regex → String
  | alt r s => "(" ++ r.display ++ " | " ++ s.display ++ ")"
  | cat r s => r.display ++ " " ++ s.display
  | star r => "(" ++ r.display ++ ")*"
  | plus r => "(" ++ r.display ++ ")+"
  | opt r => "(" ++ r.display ++ ")?"
  | compl r => "!(" ++ r.display ++ ")"
  | upTo r => "~(" ++ r.display ++ ")"
  | leaf l => l.display

end ScannerGen
