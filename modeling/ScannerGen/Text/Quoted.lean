import ScannerGen.Sorted
import ScannerGen.Text.CombiningMarks
import ScannerGen.Text.Unprintable

/-
  Written forms of characters and texts. `codeText` shows one code between apostrophes, `quoted`
  shows a text between quotation marks, and `stringLiteral` writes a text so that a scanner's
  source may hold it: there a NUL before an octal digit is spelt in hexadecimal.
-/

namespace ScannerGen

/-- A number in hexadecimal. -/
def hexDigits (n : Nat) : String := String.ofList (Nat.toDigits 16 n)

/-- The escape that names a code by its number. -/
def codeEscape (n : Nat) : String := "\\u\x7b" ++ hexDigits n ++ "\x7d"

/-- A control code. -/
def isControl (n : Nat) : Bool := n ≤ 0x1F || (0x7F ≤ n && n ≤ 0x9F)

/-- Whether `n` belongs to one of the runs, which are in order. -/
def inRuns (runs : Array (Nat × Nat)) (n : Nat) : Bool :=
  (bisect (fun run => if run.2 < n then .lt else if n < run.1 then .gt else .eq) runs).isSome

/-- A code as it stands between apostrophes. -/
def codeText (n : Nat) : String :=
  if !n.isValidChar || isControl n || n == '\''.toNat || n == '\\'.toNat then codeEscape n
  else (Char.ofNat n).toString

/-- A character as it stands between quotation marks. -/
def escapeChar (c : Char) : String :=
  match c with
  | '\x00' => "\\0"
  | '\t' => "\\t"
  | '\r' => "\\r"
  | '\n' => "\\n"
  | '"' => "\\\""
  | '\\' => "\\\\"
  | c =>
    if inRuns combiningMarks c.toNat || inRuns unprintable c.toNat then codeEscape c.toNat
    else c.toString

/-- A text between quotation marks. -/
def quoted (s : String) : String := "\"" ++ String.join (s.toList.map escapeChar) ++ "\""

/-- Whether an octal digit comes first. -/
def startsWithOctal : List Char → Bool
  | [] => false
  | c :: _ => '0' ≤ c && c ≤ '7'

/-- The escapes of a text in a scanner's source. -/
def literalPieces : List Char → List String
  | [] => []
  | c :: rest =>
    (if c == '\x00' && startsWithOctal rest then "\\x00" else escapeChar c) :: literalPieces rest

/-- A text as a literal of a scanner's source. -/
def stringLiteral (s : String) : String :=
  "\"" ++ String.join (literalPieces s.toList) ++ "\""

end ScannerGen
