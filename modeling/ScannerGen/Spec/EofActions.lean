import ScannerGen.Sorted
import ScannerGen.Spec.Action

/-
  What a scanner does at the end of its input, for each lexical state, with a default for the
  states that have no action of their own.
-/

namespace ScannerGen

/-- The actions registered so far. -/
structure EofActions where
  /-- Ascending by lexical state. -/
  own : List (Nat × Action)
  default? : Option Action
  deriving DecidableEq, Repr

namespace EofActions

/-- No action for any state. -/
def empty : EofActions := ⟨[], none⟩

/-- Registers `a` for each of `states`; of two actions of one state the earlier stays. -/
def add (t : EofActions) (states : List Nat) (a : Action) : EofActions :=
  { t with
    own := states.foldl
      (fun own k => upsert k (fun | none => a | some b => b.earlier a) own) t.own }

/-- Makes `a` the default; it also replaces the states' own actions of later lines. -/
def setDefault (t : EofActions) (a : Action) : EofActions :=
  { own := t.own.map fun (k, b) => (k, b.earlier a),
    default? := Action.merge t.default? (some a) }

/-- The action of a state: its own one, else the default. -/
def action? (t : EofActions) (state : Nat) : Option Action :=
  (t.own.lookup state).or t.default?

/-- How many actions are stored. -/
def size (t : EofActions) : Nat := t.own.length + t.default?.toList.length

end EofActions

end ScannerGen
