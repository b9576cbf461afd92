/-
  Lexical states, numbered in the order of their declaration. An inclusive state takes every rule
  that names no state; an exclusive one only the rules that name it.
-/

namespace ScannerGen

/-- The lexical states of a scanner. -/
structure LexStates where
  names : Array String
  /-- The numbers of the inclusive states, ascending. -/
  inclusive : List Nat
  inclusive_lt : ∀ k ∈ inclusive, k < names.size
  deriving DecidableEq, Repr

namespace LexStates

/-- The state in which every scanner starts. -/
def initialName : String := "INITIAL"

/-- The state in which every scanner starts, which is inclusive, and no others. -/
def initial : LexStates := ⟨#[initialName], [0], by decide⟩

/-- How many states there are. -/
def size (t : LexStates) : Nat := t.names.size

/-- The number of the state with a name, if there is one. -/
def number? (t : LexStates) (name : String) : Option Nat := t.names.toList.idxOf? name

/-- The name of the state with a number, if there is one. -/
def name? (t : LexStates) (number : Nat) : Option String := t.names[number]?

/-- Declares a state, unless its name is declared already. -/
def declare (t : LexStates) (name : String) (isInclusive : Bool) : LexStates :=
  match t.number? name with
  | some _ => t
  | none =>
    { names := t.names.push name
      inclusive := if isInclusive then t.inclusive ++ [t.size] else t.inclusive
      inclusive_lt := fun k hk => by
        rw [Array.size_push]
        split at hk
        · rcases List.mem_append.1 hk with hk | hk
          · exact Nat.lt_succ_of_lt (t.inclusive_lt k hk)
          · rw [List.mem_singleton.1 hk]
            exact Nat.lt_succ_self _
        · exact Nat.lt_succ_of_lt (t.inclusive_lt k hk) }

end LexStates

end ScannerGen
