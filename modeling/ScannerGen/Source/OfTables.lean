import ScannerGen.Alphabet.Interval
import ScannerGen.Source.Token
import ScannerGen.Table.Basic

/-
  The source of the tables of a scanner and of the functions that look into them: static arrays
  for everything, and for the transitions whatever the encoding calls for.
-/

namespace ScannerGen

open Token

namespace Source

/-- A number of 32 bits. -/
def word32 (n : Nat) : Token := number n "u32"

/-- A length or an index. -/
def length (n : Nat) : Token := number n "usize"

/-- The number that stands for a missing target. -/
def noTarget : Nat := 0xFFFFFFFF

/-- A target as a number. -/
def targetWord (target : Option Nat) : Token := word32 (target.getD noTarget)

/-- A target as an expression, where a missing one has a name. -/
def targetExpr : Option Nat → Token
  | some j => word32 j
  | none => word "NO_TARGET"

/-- A constant of a type without structure. -/
def constant (name type : String) (value : List Token) : List Token :=
  signs ["pub", "const", name, ":", type, "="] ++ value ++ signs [";"]

/-- A static array with elements of the given type. -/
def array (name : String) (type : List Token) (items : List (List Token)) : List Token :=
  signs ["pub", "static", name, ":"] ++
    brackets (type ++ signs [";"] ++ [length items.length]) ++ signs ["="] ++
    brackets (commaSeparated items) ++ signs [";"]

/-- A static array of numbers. -/
def words (name : String) (values : Array Nat) : List Token :=
  array name (signs ["u32"]) (values.toList.map fun n => [word32 n])

/-- A parameter with its type. -/
def param (name : String) (type : List Token) : List Token := signs [name, ":"] ++ type

/-- A function with its parameters, the type of its result, and its body. -/
def function (name : String) (params : List (List Token)) (type body : List Token) : List Token :=
  signs ["pub", "fn", name] ++ parens (commaSeparated params) ++ signs ["->"] ++ type ++
    braces body

/-- A side on which a binary search goes on. -/
def ordering (side : String) : List Token :=
  signs ["::", "core", "::", "cmp", "::", "Ordering", "::", side]

/-- The comparison of an interval with the code `c`. -/
def compareInterval : List Token :=
  signs ["|", "&"] ++ parens (signs ["start", ",", "end", ",", "_"]) ++ signs ["|"] ++
    braces
      (signs ["if", "end", "<", "c"] ++ braces (ordering "Less") ++
        signs ["else", "if", "start", ">", "c"] ++ braces (ordering "Greater") ++
        signs ["else"] ++ braces (ordering "Equal"))

/-- The map from intervals to classes and the search in it. -/
def charClasses (map : List (Interval × Nat)) : List Token :=
  array "CHAR_CLASS" (parens (signs ["u32", ",", "u32", ",", "u32"]))
      (map.map fun (iv, k) =>
        parens (commaSeparated [[word32 iv.lo], [word32 iv.hi], [word32 k]])) ++
    function "class_of" [param "c" (signs ["u32"])] (signs ["Option", "<", "u32", ">"])
      (signs ["CHAR_CLASS", ".", "binary_search_by"] ++ parens compareInterval ++
        signs [".", "ok"] ++ parens [] ++ signs [".", "map"] ++
        parens (signs ["|", "i", "|", "CHAR_CLASS"] ++ brackets (signs ["i"]) ++ signs [".", "2"]))

/-- An entry of a map, as an index. -/
def mapped (map key : String) : List Token :=
  signs [map] ++ brackets (signs [key, "as", "usize"])

/-- The body of a function that looks into the cells by row and column. -/
def cellAt (cells : String) (numCols : Nat) : List Token :=
  signs ["let", "row", "="] ++ mapped "ROW_MAP" "state" ++ signs ["as", "usize", ";"] ++
    signs ["let", "col", "="] ++ mapped "COL_MAP" "class" ++ signs ["as", "usize", ";"] ++
    signs [cells] ++ brackets (signs ["row", "*"] ++ [length numCols] ++ signs ["+", "col"])

/-- The parameters of a look-up. -/
def stateAndClass : List (List Token) :=
  [param "state" (signs ["u32"]), param "class" (signs ["u32"])]

/-- The cells and the function that looks into them. -/
def denseTransitions (cells : List (Option Nat)) (numCols : Nat) : List Token :=
  array "TRANSITIONS" (signs ["u32"]) (cells.map fun target => [targetWord target]) ++
    function "next_state" stateAndClass (signs ["u32"]) (cellAt "TRANSITIONS" numCols)

/-- The function that expands the runs. -/
def unpacking : List Token :=
  function "unpack_transitions" [] (signs ["Vec", "<", "u32", ">"])
    (signs ["let", "mut", "cells", "=", "Vec", "::", "new"] ++ parens [] ++ signs [";"] ++
      signs ["for", "&"] ++ parens (signs ["count", ",", "value"]) ++
      signs ["in", "PACKED_TRANSITIONS", ".", "iter"] ++ parens [] ++
      braces
        (signs ["cells", ".", "extend"] ++
          parens
            (signs ["::", "core", "::", "iter", "::", "repeat"] ++ parens (signs ["value"]) ++
              signs [".", "take"] ++ parens (signs ["count", "as", "usize"])) ++
          signs [";"]) ++
      signs ["cells"])

/-- The runs, the function that expands them, and the one that looks into what they expand to. -/
def packedTransitions (runs : List (Nat × Option Nat)) (numCols : Nat) : List Token :=
  array "PACKED_TRANSITIONS" (parens (signs ["u32", ",", "u32"]))
      (runs.map fun (count, target) =>
        parens (commaSeparated [[word32 count], [targetWord target]])) ++
    unpacking ++
    function "next_state"
      (param "cells" (signs ["&"] ++ brackets (signs ["u32"])) :: stateAndClass) (signs ["u32"])
      (cellAt "cells" numCols)

/-- The arms of a match, each with its value, and the value for all else. -/
def matchOn (subject : String) (arms : List (List Token)) (default : Token) : List Token :=
  signs ["match", subject] ++
    braces (arms.flatMap (· ++ signs [","]) ++ signs ["_", "=>"] ++ [default] ++ signs [","])

/-- The target in a row by its column. -/
def branchExpr (row : BranchRow) : List Token :=
  if row.cases.isEmpty then [targetExpr row.default]
  else
    matchOn "col"
      (row.cases.map fun (target, cols) =>
        List.intercalate (signs ["|"]) (cols.toList.map fun col => [word32 col]) ++
          signs ["=>"] ++ [targetExpr target])
      (targetExpr row.default)

/-- A function with a branch for every row, and the one that takes states and classes to it. -/
def branchTransitions (rows : List BranchRow) : List Token :=
  function "next_row" [param "row" (signs ["u32"]), param "col" (signs ["u32"])] (signs ["u32"])
      (matchOn "row"
        (rows.zipIdx.map fun (row, i) => [word32 i] ++ signs ["=>"] ++ branchExpr row)
        (targetExpr none)) ++
    function "next_state" stateAndClass (signs ["u32"])
      (signs ["next_row"] ++
        parens (commaSeparated [mapped "ROW_MAP" "state", mapped "COL_MAP" "class"]))

/-- The transitions in the form of their encoding. -/
def transitions (table : EncodedTable) (numCols : Nat) : List Token :=
  match table with
  | .dense cells => denseTransitions cells.toList numCols
  | .packed runs => packedTransitions runs numCols
  | .branches rows => branchTransitions rows.toList

/-- Everything that is generated. -/
def tables (t : Tables) (map : List (Interval × Nat)) : List Token :=
  constant "NUM_STATES" "usize" [length t.numStates] ++
    constant "NUM_CLASSES" "usize" [length t.numClasses] ++
    constant "NO_TARGET" "u32" (signs ["u32", "::", "MAX"]) ++
    charClasses map ++
    words "ROW_MAP" t.rowMap ++
    words "COL_MAP" t.colMap ++
    words "LEX_STATE" t.starts ++
    array "ATTRIBUTES" (signs ["u8"]) (t.attributes.toList.map fun n => [number n "u8"]) ++
    words "ACTION" t.actionMap ++
    words "EOF_ACTION" t.eofActionMap ++
    array "ACTION_CODE" (signs ["&", "str"]) (t.actions.toList.map fun a => [text a.code]) ++
    transitions t.table t.numCols

end Source

end ScannerGen
