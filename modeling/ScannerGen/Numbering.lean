import Std.Data.TreeMap

/-
  Distinct values, numbered from 0 in the order in which they were added. A search tree leads from
  a value back to its number (`number?_eq_some_iff`), so no value has two (`eq_of_getElem?`).
-/

namespace ScannerGen

/-- Distinct values, the one at `i` with the number `i`. -/
structure Numbering (κ : Type) [Ord κ] where
  values : Array κ
  tree : Std.TreeMap κ Nat
  tree_eq_some_iff : ∀ (k : κ) (i : Nat), tree[k]? = some i ↔ values[i]? = some k

namespace Numbering

variable {κ : Type} [Ord κ]

/-- How many values there are. -/
def size (n : Numbering κ) : Nat := n.values.size

/-- The number of a value, if it has one. -/
def number? (n : Numbering κ) (k : κ) : Option Nat := n.tree[k]?

theorem number?_eq_some_iff {n : Numbering κ} {k : κ} {i : Nat} :
    n.number? k = some i ↔ n.values[i]? = some k :=
  n.tree_eq_some_iff k i

theorem number?_eq_none_iff {n : Numbering κ} {k : κ} : n.number? k = none ↔ k ∉ n.values := by
  rw [Option.eq_none_iff_forall_ne_some, Array.mem_iff_getElem?]
  simp [number?_eq_some_iff]

theorem eq_of_getElem? {n : Numbering κ} {k : κ} {i j : Nat} (hi : n.values[i]? = some k)
    (hj : n.values[j]? = some k) : i = j := by
  rw [← number?_eq_some_iff] at hi hj
  simpa [hi] using hj

variable [Std.TransOrd κ]

/-- No values. -/
def empty : Numbering κ := ⟨#[], ∅, by simp⟩

variable [Std.LawfulEqOrd κ]

/-- Gives the next number to a value that has none. -/
def push (n : Numbering κ) (k : κ) (h : n.number? k = none) : Numbering κ where
  values := n.values.push k
  tree := n.tree.insert k n.values.size
  tree_eq_some_iff a i := by
    have hk : ∀ j : Nat, n.values[j]? ≠ some k := by
      simpa [number?_eq_none_iff, Array.mem_iff_getElem?] using h
    rw [Std.TreeMap.getElem?_insert]
    by_cases e : k = a
    · subst e
      grind
    · simp only [Std.LawfulEqCmp.compare_eq_iff_eq, e, if_false, n.tree_eq_some_iff]
      grind

/-- One value, with the number 0. -/
def single (k : κ) : Numbering κ := empty.push k (by simp [number?, empty])

end Numbering

end ScannerGen
