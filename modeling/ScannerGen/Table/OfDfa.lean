import ScannerGen.Dfa.Basic
import ScannerGen.Grouping
import ScannerGen.Spec.EofActions
import ScannerGen.Table.Packing

/-
  The tables of a deterministic automaton. Classes with equal columns share a column, then states
  with equal rows share a row, and actions with the same code share a label.

  In a machine the ids of classes, states and labels are words of 32 bits. An automaton can have
  more classes than that, at no cost if it has no states, so `tables?` tells what becomes of them.
  States and actions take up memory one by one and are counted without a bound; in the tables of a
  generated scanner all their ids are words (`generate_fits_words`).
-/

namespace ScannerGen

/-- What actions with one label have in common: the code and, if `strict`, also the line and the
white space around the code. -/
structure LabelKey where
  line? : Option Nat
  code : String
  deriving DecidableEq, Repr

namespace LabelKey

instance : Ord LabelKey := ⟨compareLex (compareOn line?) (compareOn code)⟩

instance : Std.TransOrd LabelKey := inferInstanceAs (Std.TransCmp (compareLex _ _))

instance : Std.LawfulEqOrd LabelKey where
  eq_of_compare {a b} h := by
    change compareLex _ _ a b = _ at h
    cases a
    cases b
    simpa [compareLex_eq_eq, compareOn] using h

end LabelKey

/-- The key by which an action shares its label. -/
def Action.labelKey (strict : Bool) (a : Action) : LabelKey :=
  if strict then ⟨some a.priority, a.content⟩ else ⟨none, a.code⟩

/-- Labels from 1 on for the actions that are there, 0 for the others, and the action of every
label. -/
def labelActions (strict : Bool) (actions : List (Option Action)) : Array Action × List Nat :=
  let g := Grouping.ofList (Action.labelKey strict) (actions.filterMap id)
  (g.leaders, spread g.groups.toList actions)
where
  spread : List Nat → List (Option Action) → List Nat
    | i :: is, some _ :: rest => (i + 1) :: spread is rest
    | is, _ :: rest => 0 :: spread is rest
    | _, [] => []

/-- The attribute bits of a state. -/
def DfaState.attributes (s : DfaState) : Nat :=
  (if s.isFinal then finalBit else 0) ||| (if s.isPushback then pushbackBit else 0) |||
    (if s.isLookEnd then lookEndBit else 0) ||| (if s.hasTransitions then 0 else noLookBit)

/-- The rows of a matrix in one of the encodings. -/
def EncodedTable.ofRows (encoding : Encoding) (rows : List (List (Option Nat))) : EncodedTable :=
  match encoding with
  | .dense => dense rows.flatten.toArray
  | .packed => packed (pack rows.flatten)
  | .branches => branches (rows.map branchRow).toArray

namespace Dfa

/-- The targets of every state on class `k`. -/
def column (d : Dfa) (k : Nat) : List (Option Nat) := d.states.toList.map (·.target? k)

/-- The tables that have a column for each of the first `numIds` classes, with actions for the end
of the input in `numLex` lexical states. -/
def foldTables (d : Dfa) (numIds : Nat) (eof : EofActions) (numLex : Nat) (encoding : Encoding)
    (strict : Bool) : Tables :=
  let cols := Grouping.ofList d.column (List.range numIds)
  let rows := Grouping.ofList id (d.states.toList.map fun s => cols.leaders.toList.map s.target?)
  let (actions, labels) := labelActions strict
    (d.states.toList.map (·.action?) ++ (List.range numLex).map eof.action?)
  { numStates := d.size
    numClasses := d.numClasses
    numRows := rows.leaders.size
    numCols := cols.leaders.size
    rowMap := rows.groups
    colMap := cols.groups
    table := .ofRows encoding rows.leaders.toList
    attributes := d.states.map (·.attributes)
    actionMap := (labels.take d.size).toArray
    actions
    starts := d.starts
    eofActionMap := (labels.drop d.size).toArray }

/-- The tables with a column for every class. -/
def tables (d : Dfa) (eof : EofActions) (numLex : Nat) (encoding : Encoding) (strict : Bool) :
    Tables :=
  d.foldTables d.numClasses eof numLex encoding strict

/-- The tables, if the maps of the classes and of the lexical states can be stored. The classes are
counted by their ids, so only the last 32 bits of their number are looked at. -/
def tables? (d : Dfa) (eof : EofActions) (numLex : Nat) (encoding : Encoding) (strict : Bool) :
    Except Breach Tables :=
  if fitsMemory cellBytes d.numClasses && fitsMemory cellBytes numLex then
    .ok (d.foldTables (d.numClasses % (lastWord + 1)) eof numLex encoding strict)
  else .error .beyondCapacity

/-- Unless the ids run out, every class has a column. -/
theorem tables?_eq_ok {d : Dfa} {numLex : Nat} (hclasses : d.numClasses ≤ lastWord)
    (hlex : fitsMemory cellBytes numLex = true) (eof : EofActions) (encoding : Encoding)
    (strict : Bool) :
    d.tables? eof numLex encoding strict = .ok (d.tables eof numLex encoding strict) := by
  rw [tables?, fitsMemory_cells hclasses, hlex, Nat.mod_eq_of_lt (Nat.lt_succ_of_le hclasses)]
  rfl

end Dfa

end ScannerGen
