import ScannerGen.Failure
import ScannerGen.IdSet
import ScannerGen.Spec.Action

/-
  The tables of a scanner. The transitions form a matrix whose equal rows and equal columns are
  stored once; the matrix itself comes as its cells, as runs of equal cells, or as branches on the
  column for every row. A missing target stands for "no transition".
-/

namespace ScannerGen

/-- The form in which the matrix is stored. -/
inductive Encoding where
  | dense
  | packed
  | branches
  deriving DecidableEq, Repr

/-- A row as cases: the targets with their columns, and a target for all other columns. -/
structure BranchRow where
  default : Option Nat
  cases : List (Option Nat × IdSet)
  deriving DecidableEq, Repr

namespace BranchRow

/-- The target of a row in column `col`. -/
def target (row : BranchRow) (col : Nat) : Option Nat :=
  match row.cases.find? (col ∈ ·.2) with
  | some (target, _) => target
  | none => row.default

/-- Words that the row takes: one, and for every case one and its columns. -/
def size (row : BranchRow) : Nat := row.cases.foldr (fun x n => 1 + x.2.size + n) 1

end BranchRow

/-- The matrix of transitions, row by row. -/
inductive EncodedTable where
  | dense (cells : Array (Option Nat))
  | packed (runs : List (Nat × Option Nat))
  | branches (rows : Array BranchRow)
  deriving DecidableEq, Repr

/-- The entry at an index of the list that `runs` stand for; nothing past the end. -/
def runTarget : List (Nat × Option Nat) → Nat → Option Nat
  | [], _ => none
  | (count, target) :: rest, i => if i < count then target else runTarget rest (i - count)

namespace EncodedTable

/-- The form of a table. -/
def encoding : EncodedTable → Encoding
  | dense _ => .dense
  | packed _ => .packed
  | branches _ => .branches

/-- The number of words that the table takes. -/
def size : EncodedTable → Nat
  | dense cells => cells.size
  | packed runs => 2 * runs.length
  | branches rows => rows.foldr (·.size + ·) 0

/-- The target in a row and a column of a matrix with `numCols` columns. Runs have no target past
their end, where the index has to be a word. -/
def target (t : EncodedTable) (numCols row col : Nat) : Except Breach (Option Nat) :=
  match t with
  | dense cells =>
    match cells[row * numCols + col]? with
    | some target => .ok target
    | none => .error .noSuchCell
  | packed runs =>
    let i := row * numCols + col
    if i ≤ maxWord || i < runs.foldr (·.1 + ·) 0 then .ok (runTarget runs i)
    else .error .beyondCapacity
  | branches rows =>
    match rows[row]? with
    | some r => .ok (r.target col)
    | none => .error .noSuchCell

end EncodedTable

/-- Bits of a state's attributes. -/
def finalBit : Nat := 1

/-- The part of a match before its lookahead ends here. -/
def pushbackBit : Nat := 2

/-- The lookahead of a match ends here. -/
def lookEndBit : Nat := 4

/-- There is no transition, so the scanner can stop here. -/
def noLookBit : Nat := 8

/-- The tables of a scanner. -/
structure Tables where
  numStates : Nat
  numClasses : Nat
  numRows : Nat
  numCols : Nat
  /-- The row of every state. -/
  rowMap : Array Nat
  /-- The column of every class. -/
  colMap : Array Nat
  table : EncodedTable
  /-- For every state a sum of attribute bits. -/
  attributes : Array Nat
  /-- For every state the label of its action, or 0. -/
  actionMap : Array Nat
  /-- The action with label `n + 1` is at `n`. -/
  actions : Array Action
  starts : Array Nat
  /-- For every lexical state the label of its action at the end of the input, or 0. -/
  eofActionMap : Array Nat
  deriving DecidableEq, Repr

namespace Tables

/-- The target of a state on a class. -/
def lookup (t : Tables) (state k : Nat) : Except Breach (Option Nat) :=
  match t.rowMap[state]?, t.colMap[k]? with
  | none, _ => .error .noSuchState
  | some _, none => .error .noSuchClass
  | some row, some col => t.table.target t.numCols row col

/-- The action of a state, found by its label. -/
def action? (t : Tables) (state : Nat) : Option Action :=
  match t.actionMap[state]? with
  | some (label + 1) => t.actions[label]?
  | _ => none

end Tables

end ScannerGen
