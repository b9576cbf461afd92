import ScannerGen.Failure
import ScannerGen.Spec.Action

/-
  Deterministic automata over character classes. A missing target means that the automaton is
  stuck. `step` and `run` refuse states and classes that the automaton does not have.
-/

namespace ScannerGen

/-- A state of a deterministic automaton. -/
structure DfaState where
  /-- The target for every class. -/
  targets : Array (Option Nat)
  isFinal : Bool
  /-- Here ends the part of a match before its lookahead. -/
  isPushback : Bool
  /-- Here ends the lookahead of a match. -/
  isLookEnd : Bool
  action? : Option Action
  deriving DecidableEq, Repr

namespace DfaState

/-- No transitions, no match. -/
def blank (numClasses : Nat) : DfaState :=
  ⟨Array.replicate numClasses none, false, false, false, none⟩

/-- A row with a target for every class, of which the last ones may be missing from `targets`. -/
def row? (numClasses : Nat) (targets : List (Option Nat)) :
    Except Breach (Array (Option Nat)) :=
  if !fitsMemory cellBytes numClasses then .error .beyondCapacity
  else if numClasses < targets.length then .error .noSuchClass
  else .ok (targets ++ List.replicate (numClasses - targets.length) none).toArray

/-- The target on class `k`, unless it is missing. -/
def target? (s : DfaState) (k : Nat) : Option Nat := s.targets[k]?.join

/-- Whether any class has a target. -/
def hasTransitions (s : DfaState) : Bool := s.targets.any (·.isSome)

end DfaState

/-- A deterministic automaton. -/
structure Dfa where
  states : Array DfaState
  numClasses : Nat
  /-- For lexical state `k` the start states `2 * k` and `2 * k + 1`, the second one for the
  beginning of a line. -/
  starts : Array Nat
  deriving DecidableEq, Repr

namespace Dfa

/-- The number of states. -/
def size (d : Dfa) : Nat := d.states.size

/-- The start state of a lexical state, if it has one. -/
def start? (d : Dfa) (lex : Nat) (atLineStart : Bool) : Option Nat :=
  d.starts[2 * lex + atLineStart.toNat]?

/-- The start state of a lexical state that need not exist, if the index of its entry is a word. -/
def startAt (d : Dfa) (lex : Nat) (atLineStart : Bool) : Except Breach (Option Nat) :=
  if 2 * lex + atLineStart.toNat ≤ maxWord then .ok (d.start? lex atLineStart)
  else .error .beyondCapacity

/-- The target of state `i` on class `k`, unless it is missing. -/
def target? (d : Dfa) (i k : Nat) : Option Nat := d.states[i]?.bind (·.target? k)

/-- The target of state `i` on class `k`, both of which have to exist. -/
def step (d : Dfa) (i k : Nat) : Except Breach (Option Nat) :=
  match d.states[i]? with
  | none => .error .noSuchState
  | some s =>
    match s.targets[k]? with
    | none => .error .noSuchClass
    | some target => .ok target

/-- The automaton with another target for state `i` on class `k`. -/
def setTarget (d : Dfa) (i k : Nat) (target : Option Nat) : Except Breach Dfa :=
  match d.states[i]? with
  | none => .error .noSuchState
  | some s =>
    if k < s.targets.size then
      .ok { d with states := d.states.modify i fun s =>
        { s with targets := s.targets.modify k fun _ => target } }
    else .error .noSuchClass

/-- Whether any class has a target. -/
def hasTransitions (d : Dfa) (i : Nat) : Except Breach Bool :=
  match d.states[i]? with
  | none => .error .noSuchState
  | some s => .ok s.hasTransitions

/-- The state reached from `i` by reading `word`, or nothing if the automaton gets stuck. -/
def run (d : Dfa) (i : Nat) : List Nat → Except Breach (Option Nat)
  | [] => .ok (some i)
  | k :: word => do
    match ← d.step i k with
    | some j => d.run j word
    | none => .ok none

/-- Every target and every start is a state. -/
def InRange (d : Dfa) : Prop :=
  (∀ s ∈ d.states, ∀ target ∈ s.targets, ∀ j ∈ target, j < d.size) ∧ ∀ i ∈ d.starts, i < d.size

instance (d : Dfa) : Decidable d.InRange := inferInstanceAs (Decidable (_ ∧ _))

/-- Pairs of lexical states that share both start states, the lower number first. -/
def equivalentLexStates (d : Dfa) : List (Nat × Nat) :=
  let numLex := (d.starts.size + 1) / 2
  let pair (k : Nat) : Option Nat × Option Nat :=
    (d.starts[2 * k]?, d.starts[2 * k + 1]?.or d.starts[2 * k]?)
  (List.range numLex).flatMap fun i =>
    ((List.range numLex).filter fun j => i < j && pair i = pair j).map (i, ·)

end Dfa

end ScannerGen
