import ScannerGen.Text.Quoted

/-
  Source text as a sequence of tokens. One space separates neighbours, except inside a parenthesis
  or a bracket next to it.
-/

namespace ScannerGen

/-- A word of source text. -/
inductive Token where
  /-- A name, a keyword or a sign. -/
  | word (s : String)
  /-- A number with its type. -/
  | number (n : Nat) (type : String)
  | text (s : String)
  | openParen
  | closeParen
  | openBracket
  | closeBracket
  | openBrace
  | closeBrace
  deriving DecidableEq, Repr

namespace Token

/-- Names and signs. -/
def signs (ss : List String) : List Token := ss.map word

/-- Tokens between parentheses. -/
def parens (ts : List Token) : List Token := openParen :: ts ++ [closeParen]

/-- Tokens between brackets. -/
def brackets (ts : List Token) : List Token := openBracket :: ts ++ [closeBracket]

/-- Tokens between braces. -/
def braces (ts : List Token) : List Token := openBrace :: ts ++ [closeBrace]

/-- Items with a comma between neighbours. -/
def commaSeparated (items : List (List Token)) : List Token := List.intercalate (signs [","]) items

/-- The text of a token. -/
def spelling : Token → String
  | word s => s
  | number n type => s!"{n}" ++ type
  | text s => stringLiteral s
  | openParen => "("
  | closeParen => ")"
  | openBracket => "["
  | closeBracket => "]"
  | openBrace => "\x7b"
  | closeBrace => "\x7d"

/-- What stands between two neighbours. -/
def gap : Token → Token → String
  | openParen, _ | openBracket, _ | _, closeParen | _, closeBracket => ""
  | _, _ => " "

/-- The spellings and what stands between them. -/
def pieces : List Token → List String
  | [] => []
  | [t] => [t.spelling]
  | t :: u :: rest => t.spelling :: gap t u :: pieces (u :: rest)

/-- The text of a sequence of tokens. -/
def render (ts : List Token) : String := String.join (pieces ts)

end Token

end ScannerGen
