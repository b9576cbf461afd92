import ScannerGen.Table.Basic
import ScannerGen.Text.Json

/-
  The settings of a run, and their form as a JSON document: an object, where unknown members are
  passed over and missing ones keep their defaults, or an array with the settings in order.
-/

namespace ScannerGen

/-- The settings. -/
structure Config where
  skipMinimization : Bool
  encoding : Encoding
  /-- Tell apart the actions of different rules even if their code is the same. -/
  strict : Bool
  /-- The largest number of states of an automaton. -/
  maxStates : Nat
  /-- The last code of the alphabet. -/
  maxCode : Nat
  deriving DecidableEq, Repr

namespace Encoding

/-- The name of an encoding in a document. -/
def name : Encoding → String
  | dense => "dense"
  | packed => "packed"
  | branches => "inline_branches"

/-- The encoding that has a name. -/
def ofName? (s : String) : Option Encoding := [dense, packed, branches].find? (·.name = s)

/-- The name, alone or as the only member of an object, where it stands for `null`. -/
def ofJson? : Json → Option Encoding
  | .object [(key, .null)] => (Json.string? (.text key)).bind ofName?
  | v => v.string?.bind ofName?

end Encoding

namespace Config

/-- The settings that a document need not give. -/
def default : Config :=
  { skipMinimization := false, encoding := .packed, strict := false, maxStates := 0x100000,
    maxCode := 0x10FFFF }

/-- The names of the settings, in order. -/
def keys : List String :=
  ["skip_minimization", "encoding", "strict_compatibility", "max_states", "max_char"]

/-- A natural number that its type can hold. -/
def naturalBelow? (bound : Nat) (v : Json) : Option Nat := v.natural?.filter (· < bound)

/-- The settings with the one named `key` as `v` gives it; other names set nothing. -/
def set? (c : Config) (key : String) (v : Json) : Option Config :=
  match key with
  | "skip_minimization" => v.bool?.map ({ c with skipMinimization := · })
  | "encoding" => (Encoding.ofJson? v).map ({ c with encoding := · })
  | "strict_compatibility" => v.bool?.map ({ c with strict := · })
  | "max_states" => (naturalBelow? 0x10000000000000000 v).map ({ c with maxStates := · })
  | "max_char" => (naturalBelow? 0x100000000 v).map ({ c with maxCode := · })
  | _ => some c

/-- Reads members one by one; a setting may be given only once. -/
def setMembers? (c : Config) (given : List String) : List (List Nat × Json) → Option Config
  | [] => some c
  | (key, v) :: rest => do
    let key ← Json.string? (.text key)
    if given.contains key then none
    else
      let c ← c.set? key v
      c.setMembers? (if keys.contains key then key :: given else given) rest

/-- Reads the settings in order; the last ones may be missing. -/
def setItems? (c : Config) : List String → List Json → Option Config
  | _, [] => some c
  | [], _ :: _ => none
  | key :: keys, v :: rest => do
    let c ← c.set? key v
    c.setItems? keys rest

/-- The settings that a document gives. -/
def ofJson? : Json → Option Config
  | .object members => default.setMembers? [] members
  | .array items => default.setItems? keys items
  | _ => none

/-- Reads the settings from a text. -/
def parse (s : String) : Except GenerateError Config :=
  match (Json.parse? s).bind ofJson? with
  | some c => .ok c
  | none => .error .invalidConfig

/-- The value of the setting named `key`. -/
def valueText (c : Config) : String → String
  | "skip_minimization" => toString c.skipMinimization
  | "encoding" => "\"" ++ c.encoding.name ++ "\""
  | "strict_compatibility" => toString c.strict
  | "max_states" => toString c.maxStates
  | _ => toString c.maxCode

/-- The settings as an object, one line for each. -/
def print (c : Config) : String :=
  let lines := keys.map fun key => "  \"" ++ key ++ "\": " ++ c.valueText key
  "\x7b\n" ++ ",\n".intercalate lines ++ "\n\x7d"

end Config

end ScannerGen
