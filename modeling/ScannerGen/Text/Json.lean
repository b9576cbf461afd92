/-
  JSON documents. Numbers stay as they are written, and texts stay lists of codes, in
  which an escaped surrogate is a code of its own until `decodeText` pairs it. So a document may
  hold numbers and texts that no type could take, as long as nobody asks for them.
-/

namespace ScannerGen

/-- A document. -/
inductive Json where
  | null
  | bool (b : Bool)
  | number (lexeme : List Char)
  | text (codes : List Nat)
  | array (items : List Json)
  | object (members : List (List Nat × Json))

namespace Json

/-- White space between tokens. -/
def isSpace (c : Char) : Bool := c == ' ' || c == '\t' || c == '\n' || c == '\r'

/-- A decimal digit. -/
def isDigit (c : Char) : Bool := '0' ≤ c && c ≤ '9'

/-- The text behind the white space at its beginning. -/
def skipSpace (cs : List Char) : List Char := cs.dropWhile isSpace

/-- What follows the word, if the text begins with it. -/
def afterWord? (word : String) (cs : List Char) : Option (List Char) :=
  if word.toList.isPrefixOf cs then some (cs.drop word.length) else none

/-- One digit or more. -/
def digits? (cs : List Char) : Option (List Char × List Char) :=
  let ds := cs.takeWhile isDigit
  if ds.isEmpty then none else some (ds, cs.dropWhile isDigit)

/-- A number without leading zeros. -/
def whole? : List Char → Option (List Char × List Char)
  | '0' :: rest => some (['0'], rest)
  | cs => digits? cs

/-- The digits after a decimal point, if there is one. -/
def fraction? : List Char → Option (List Char × List Char)
  | '.' :: rest => do
    let (ds, rest) ← digits? rest
    pure ('.' :: ds, rest)
  | cs => some ([], cs)

/-- A power of ten, if there is one. -/
def exponent? : List Char → Option (List Char × List Char)
  | [] => some ([], [])
  | e :: cs =>
    if e = 'e' || e = 'E' then
      match cs with
      | '+' :: rest => do
        let (ds, rest) ← digits? rest
        pure (e :: '+' :: ds, rest)
      | '-' :: rest => do
        let (ds, rest) ← digits? rest
        pure (e :: '-' :: ds, rest)
      | rest => do
        let (ds, rest) ← digits? rest
        pure (e :: ds, rest)
    else some ([], e :: cs)

/-- The spelling of a number. -/
def number? (cs : List Char) : Option (List Char × List Char) := do
  let (sign, cs) := match cs with
    | '-' :: rest => (['-'], rest)
    | cs => ([], cs)
  let (ds, cs) ← whole? cs
  let (frac, cs) ← fraction? cs
  let (exp, cs) ← exponent? cs
  pure (sign ++ ds ++ frac ++ exp, cs)

/-- The value of a hexadecimal digit. -/
def hexDigit? (c : Char) : Option Nat :=
  if isDigit c then some (c.toNat - '0'.toNat)
  else if 'a' ≤ c && c ≤ 'f' then some (c.toNat - 'a'.toNat + 10)
  else if 'A' ≤ c && c ≤ 'F' then some (c.toNat - 'A'.toNat + 10)
  else none

/-- The code that an escaped letter or sign stands for. -/
def escape? : Char → Option Nat
  | '"' => some '"'.toNat
  | '\\' => some '\\'.toNat
  | '/' => some '/'.toNat
  | 'b' => some 0x8
  | 'f' => some 0xC
  | 'n' => some 0xA
  | 'r' => some 0xD
  | 't' => some 0x9
  | _ => none

/-- The codes up to the closing quotation mark. -/
def codes? : List Char → Option (List Nat × List Char)
  | [] => none
  | '"' :: rest => some ([], rest)
  | '\\' :: 'u' :: a :: b :: c :: d :: rest => do
    let a ← hexDigit? a
    let b ← hexDigit? b
    let c ← hexDigit? c
    let d ← hexDigit? d
    let (ns, rest) ← codes? rest
    pure ((((a * 16 + b) * 16 + c) * 16 + d) :: ns, rest)
  | '\\' :: e :: rest => do
    let n ← escape? e
    let (ns, rest) ← codes? rest
    pure (n :: ns, rest)
  | c :: rest =>
    if c.toNat < 0x20 then none
    else do
      let (ns, rest) ← codes? rest
      pure (c.toNat :: ns, rest)

mutual

/-- A value and what follows it. -/
def value? : Nat → List Char → Option (Json × List Char)
  | 0, _ => none
  | fuel + 1, cs =>
    match skipSpace cs with
    | '\x7b' :: rest =>
      match skipSpace rest with
      | '\x7d' :: rest => some (object [], rest)
      | rest => do
        let (ms, rest) ← members? fuel rest
        pure (object ms, rest)
    | '[' :: rest =>
      match skipSpace rest with
      | ']' :: rest => some (array [], rest)
      | rest => do
        let (vs, rest) ← items? fuel rest
        pure (array vs, rest)
    | '"' :: rest => do
      let (ns, rest) ← codes? rest
      pure (text ns, rest)
    | cs =>
      match afterWord? "null" cs, afterWord? "true" cs, afterWord? "false" cs with
      | some rest, _, _ => some (null, rest)
      | _, some rest, _ => some (bool true, rest)
      | _, _, some rest => some (bool false, rest)
      | _, _, _ => do
        let (lexeme, rest) ← number? cs
        pure (number lexeme, rest)

/-- The members of an object, at least one, up to its closing brace. -/
def members? : Nat → List Char → Option (List (List Nat × Json) × List Char)
  | 0, _ => none
  | fuel + 1, cs =>
    match skipSpace cs with
    | '"' :: rest => do
      let (key, rest) ← codes? rest
      match skipSpace rest with
      | ':' :: rest =>
        let (v, rest) ← value? fuel rest
        match skipSpace rest with
        | ',' :: rest =>
          let (ms, rest) ← members? fuel rest
          pure ((key, v) :: ms, rest)
        | '\x7d' :: rest => pure ([(key, v)], rest)
        | _ => none
      | _ => none
    | _ => none

/-- The items of an array, at least one, up to its closing bracket. -/
def items? : Nat → List Char → Option (List Json × List Char)
  | 0, _ => none
  | fuel + 1, cs => do
    let (v, rest) ← value? fuel cs
    match skipSpace rest with
    | ',' :: rest =>
      let (vs, rest) ← items? fuel rest
      pure (v :: vs, rest)
    | ']' :: rest => pure ([v], rest)
    | _ => none

end

/-- The document that a text is. No character is passed by more than two calls. -/
def parse? (s : String) : Option Json :=
  match value? (2 * s.length + 2) s.toList with
  | some (v, rest) => if (skipSpace rest).isEmpty then some v else none
  | none => none

/-- The first half of a surrogate pair. -/
def isHighSurrogate (n : Nat) : Bool := 0xD800 ≤ n && n < 0xDC00

/-- The second half of a surrogate pair. -/
def isLowSurrogate (n : Nat) : Bool := 0xDC00 ≤ n && n < 0xE000

/-- Joins pairs of surrogates; a surrogate alone is no character. -/
def decodeText : List Nat → Option (List Char)
  | [] => some []
  | [n] => if isHighSurrogate n || isLowSurrogate n then none else some [Char.ofNat n]
  | n :: m :: rest =>
    if isHighSurrogate n then
      if isLowSurrogate m then
        (decodeText rest).map
          (Char.ofNat (0x10000 + (n - 0xD800) * 0x400 + (m - 0xDC00)) :: ·)
      else none
    else if isLowSurrogate n then none
    else (decodeText (m :: rest)).map (Char.ofNat n :: ·)

/-- The value of a text, if all its codes are characters. -/
def string? : Json → Option String
  | text codes => (decodeText codes).map String.ofList
  | _ => none

/-- The value of a truth value. -/
def bool? : Json → Option Bool
  | bool b => some b
  | _ => none

/-- The value of a number that is written with digits alone. -/
def natural? : Json → Option Nat
  | number lexeme =>
    if lexeme.all isDigit then
      some (lexeme.foldl (fun n c => n * 10 + (c.toNat - '0'.toNat)) 0)
    else none
  | _ => none

end Json

end ScannerGen
