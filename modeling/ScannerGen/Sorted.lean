import ScannerGen.IdSet

/-
  What is kept in ascending order of a key: association lists, into which `upsert` puts one entry
  and which `gather` makes of pairs, and arrays that `bisect` searches by halves.
-/

namespace ScannerGen

/-- Puts `f` of the value under `k`, or of `none`, under `k`. -/
def upsert {κ β : Type} [LT κ] [DecidableLT κ] (k : κ) (f : Option β → β) :
    List (κ × β) → List (κ × β)
  | [] => [(k, f none)]
  | (k', v) :: rest =>
    if k < k' then (k, f none) :: (k', v) :: rest
    else if k' < k then (k', v) :: upsert k f rest
    else (k', f (some v)) :: rest

/-- The keys of `pairs`, ascending, each with the identifiers that come with it. -/
def gather (pairs : List (Nat × Nat)) : List (Nat × IdSet) :=
  (pairs.foldr (fun (k, j) ids => ids.alter k fun js? => some (j :: js?.getD []))
    (∅ : Std.TreeMap Nat (List Nat))).toList.map fun (k, js) => (k, .ofList js)

/-- Halves `[lo, hi)` at most `fuel` times. `order` says on which side of the sought place an entry
lies, so that in a sorted array the entries answer first `lt`, then `eq`, then `gt`. -/
def bisectFrom {α : Type} (order : α → Ordering) (xs : Array α) : Nat → Nat → Nat → Option Nat
  | 0, _, _ => none
  | fuel + 1, lo, hi =>
    if lo < hi then
      let mid := (lo + hi) / 2
      match xs[mid]? with
      | none => none
      | some x =>
        match order x with
        | .lt => bisectFrom order xs fuel (mid + 1) hi
        | .gt => bisectFrom order xs fuel lo mid
        | .eq => some mid
    else none

/-- Every step shortens the searched part, so the size of the array is fuel enough. -/
def bisect {α : Type} (order : α → Ordering) (xs : Array α) : Option Nat :=
  bisectFrom order xs xs.size 0 xs.size

end ScannerGen
