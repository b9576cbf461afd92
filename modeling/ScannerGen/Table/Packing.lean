import ScannerGen.Sorted
import ScannerGen.Table.Basic

/-
  The packed and the branching form of rows of targets. `pack` joins equal neighbours into runs;
  `branchRow` makes the target that saves most the default of its row. A run ends where its length
  would no longer be a word of 32 bits; columns and targets are words in every table that is
  generated (`generate_fits_words`).
-/

namespace ScannerGen

/-- A run is not longer than this. -/
def maxRun : Nat := 0xFFFFFFFF

/-- The runs of `count` times `target` followed by the list. -/
def packFrom (count : Nat) (target : Option Nat) : List (Option Nat) → List (Nat × Option Nat)
  | [] => [(count, target)]
  | t :: ts =>
    if t = target && count < maxRun then packFrom (count + 1) target ts
    else (count, target) :: packFrom 1 t ts

/-- The runs of a list, none of them longer than `maxRun`. -/
def pack : List (Option Nat) → List (Nat × Option Nat)
  | [] => []
  | t :: ts => packFrom 1 t ts

/-- The list that runs stand for. -/
def unpack (runs : List (Nat × Option Nat)) : List (Option Nat) :=
  runs.flatMap fun (count, target) => List.replicate count target

/-- The targets of a row, each with the columns that hold it. The states ascend, and cells without
a target come last. -/
def targetColumns (row : List (Option Nat)) : List (Option Nat × IdSet) :=
  let cells := row.zipIdx
  let states := gather (cells.filterMap fun (target?, col) => target?.map (·, col))
  let missing := IdSet.ofList (cells.filterMap fun (target?, col) =>
    if target?.isNone then some col else none)
  states.map (fun (j, cols) => (some j, cols)) ++
    if missing.isEmpty then [] else [(none, missing)]

/-- The first of the targets that are counted most. -/
def mostFrequent (counts : List (Option Nat × Nat)) : Option Nat :=
  (counts.foldl (fun best c => if best.2 < c.2 then c else best) (none, 0)).1

/-- The most frequent target is the default. -/
def branchRow (row : List (Option Nat)) : BranchRow :=
  let columns := targetColumns row
  let default := mostFrequent (columns.map fun (target?, cols) => (target?, cols.size))
  ⟨default, columns.filter (·.1 ≠ default)⟩

end ScannerGen
