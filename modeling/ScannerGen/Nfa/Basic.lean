import ScannerGen.IdSet
import ScannerGen.Spec.Action

/-
  Nondeterministic automata over character classes. The states `2 * k` and `2 * k + 1` are where
  lexical state `k` is entered, the second one at the beginning of a line.
-/

namespace ScannerGen

/-- A state of a nondeterministic automaton. -/
structure NfaState where
  /-- Class and target of every labelled edge, in the order in which they were added. -/
  moves : List (Nat × Nat)
  /-- The targets of the edges without a label. -/
  epsilon : IdSet
  isFinal : Bool
  /-- Here ends the part of a match before its lookahead. -/
  isPushback : Bool
  action? : Option Action
  deriving DecidableEq, Repr

/-- No edges, no match. -/
def NfaState.blank : NfaState := ⟨[], ∅, false, false, none⟩

/-- A nondeterministic automaton. -/
structure Nfa where
  states : Array NfaState
  numClasses : Nat
  numLex : Nat
  deriving DecidableEq, Repr

/-- Part of an automaton that is entered at `start` and left at `stop`. -/
structure Fragment where
  start : Nat
  stop : Nat
  deriving DecidableEq, Repr

namespace Nfa

/-- Only the entries of the lexical states. -/
def entries (numClasses numLex : Nat) : Nfa :=
  ⟨Array.replicate (2 * numLex) .blank, numClasses, numLex⟩

/-- The number of states. -/
def size (nfa : Nfa) : Nat := nfa.states.size

/-- The automaton with one more state. -/
def push (nfa : Nfa) (s : NfaState) : Nfa := { nfa with states := nfa.states.push s }

/-- Changes state `i`, if there is one. -/
def modify (nfa : Nfa) (i : Nat) (f : NfaState → NfaState) : Nfa :=
  { nfa with states := nfa.states.modify i f }

/-- An edge without a label from `i` to `j`. -/
def addEpsilon (nfa : Nfa) (i j : Nat) : Nfa :=
  nfa.modify i fun s => { s with epsilon := s.epsilon.insert j }

/-- Labelled edges that leave `i`, given by class and target. -/
def addMoves (nfa : Nfa) (i : Nat) (moves : List (Nat × Nat)) : Nfa :=
  nfa.modify i fun s => { s with moves := s.moves ++ moves }

/-- The targets of the edges of `i` without a label. -/
def epsilonOf (nfa : Nfa) (i : Nat) : IdSet :=
  match nfa.states[i]? with
  | some s => s.epsilon
  | none => ∅

/-- The labelled edges of `i`. -/
def movesOf (nfa : Nfa) (i : Nat) : List (Nat × Nat) :=
  match nfa.states[i]? with
  | some s => s.moves
  | none => []

end Nfa

end ScannerGen
