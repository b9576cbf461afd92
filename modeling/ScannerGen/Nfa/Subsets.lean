import ScannerGen.Failure
import ScannerGen.IdSet
import ScannerGen.Numbering

/-
  The sets of states that can be reached from given ones, numbered in the order in which they are
  found, and the moves between them. Both the complement of a fragment and the deterministic
  automaton are read off such a table.
-/

namespace ScannerGen

/-- A table of reachable sets; the sets without a row are still to be left. -/
structure Subsets where
  sets : Numbering IdSet
  /-- For the first sets, the number of the target by class. -/
  rows : Array (Array (Option Nat))

namespace Subsets

/-- The number of `s` in `sets`, where it is added unless there are `limit` of them. -/
def number (limit : Nat) (sets : Numbering IdSet) (s : IdSet) :
    Except Failure (Numbering IdSet × Nat) :=
  match h : sets.number? s with
  | some i => .ok (sets, i)
  | none =>
    if limit ≤ sets.size then .error (.error (.stateLimit limit))
    else .ok (sets.push s h, sets.size)

/-- The numbers of several sets, one after the other. -/
def numberAll (limit : Nat) :
    List IdSet → Numbering IdSet → Except Failure (Numbering IdSet × List Nat)
  | [], sets => .ok (sets, [])
  | s :: rest, sets => do
    let (sets, i) ← number limit sets s
    let (sets, is) ← numberAll limit rest sets
    pure (sets, i :: is)

/-- Numbers the targets of one set and enters them into its row. -/
def numberRow (limit : Nat) :
    List (Nat × IdSet) → Numbering IdSet → Array (Option Nat) →
      Except Failure (Numbering IdSet × Array (Option Nat))
  | [], sets, row => .ok (sets, row)
  | (k, s) :: rest, sets, row => do
    let (sets, i) ← number limit sets s
    if k < row.size then numberRow limit rest sets (row.setIfInBounds k (some i))
    else throw (.breach .noSuchClass)

/-- Adds the rows that are missing, at most `fuel` of them. -/
def explore (successors : IdSet → Except Failure (List (Nat × IdSet))) (numClasses limit : Nat) :
    Nat → Subsets → Except Failure Subsets
  | 0, t => .ok t
  | fuel + 1, t =>
    match t.sets.values[t.rows.size]? with
    | none => .ok t
    | some s => do
      let (sets, row) ←
        numberRow limit (← successors s) t.sets (Array.replicate numClasses none)
      explore successors numClasses limit fuel ⟨sets, t.rows.push row⟩

/-- Every set found gets a row. There are at most `limit` sets, or only those at the start. -/
def ofStart (successors : IdSet → Except Failure (List (Nat × IdSet))) (numClasses limit : Nat)
    (sets : Numbering IdSet) : Except Failure Subsets :=
  explore successors numClasses limit (limit + sets.size) ⟨sets, #[]⟩

end Subsets

end ScannerGen
