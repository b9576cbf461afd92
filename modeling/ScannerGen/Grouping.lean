import ScannerGen.Numbering

/-
  Grouping by a key. Groups are numbered in the order in which they are met first.
-/

namespace ScannerGen

/-- The entries of a list by groups, where the group at `i` has the key with number `i`. -/
structure Grouping (α κ : Type) [Ord κ] where
  keys : Numbering κ
  /-- The first entry of every group. -/
  leaders : Array α
  /-- The group of every entry. -/
  groups : Array Nat

namespace Grouping

variable {α κ : Type} [Ord κ] [Std.TransOrd κ] [Std.LawfulEqOrd κ]

/-- Adds an entry to the group of its key, which is a new one if the key is new. -/
def add (key : α → κ) (g : Grouping α κ) (x : α) : Grouping α κ :=
  match h : g.keys.number? (key x) with
  | some i => { g with groups := g.groups.push i }
  | none => ⟨g.keys.push (key x) h, g.leaders.push x, g.groups.push g.leaders.size⟩

/-- Groups the entries of a list. -/
def ofList (key : α → κ) (xs : List α) : Grouping α κ := xs.foldl (add key) ⟨.empty, #[], #[]⟩

end Grouping

end ScannerGen
