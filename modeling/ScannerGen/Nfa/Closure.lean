import ScannerGen.Failure
import ScannerGen.Nfa.Basic
import ScannerGen.Sorted

/-
  Which states an automaton can be in. `closure` adds what is reached without reading, `closedMoves`
  tells what can be read next and where that leads.
-/

namespace ScannerGen

namespace Nfa

/-- A shortest path leaves no state twice, so it has at most as many edges as there are states. -/
def closure (nfa : Nfa) (s : IdSet) : IdSet :=
  reach (fun i => (nfa.epsilonOf i).toList) nfa.size s

/-- The closure, if all of it are states of the automaton. -/
def closure? (nfa : Nfa) (s : IdSet) : Except Breach IdSet :=
  let c := nfa.closure s
  if c.toList.all (· < nfa.size) then .ok c else .error .noSuchState

/-- The labelled edges that leave `s`, from the lowest state on. -/
def movesFrom (nfa : Nfa) (s : IdSet) : List (Nat × Nat) := s.toList.flatMap nfa.movesOf

/-- What follows a set of states, by class. -/
def closedMoves (nfa : Nfa) (s : IdSet) : Except Failure (List (Nat × IdSet)) :=
  (gather (nfa.movesFrom s)).mapM fun (k, targets) =>
    match nfa.closure? targets with
    | .ok c => .ok (k, c)
    | .error b => .error (.breach b)

end Nfa

end ScannerGen
