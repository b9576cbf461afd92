import ScannerGen.Dfa.Basic
import ScannerGen.Nfa.Closure
import ScannerGen.Nfa.Subsets

/-
  The deterministic automaton of a nondeterministic one. Its states are the sets of states that can
  be reached together, numbered as they are found from the entries on. A set takes the action of
  the earliest rule that is complete in it.
-/

namespace ScannerGen

namespace Nfa

/-- The action of the final members; on a tie that of the highest-numbered one. -/
def actionOf (nfa : Nfa) (s : IdSet) : Option Action :=
  s.toList.foldl
    (fun acc i =>
      match nfa.states[i]? with
      | some st => if st.isFinal then Action.merge acc st.action? else acc
      | none => acc)
    none

/-- Whether a match can end in one of the states of `s`. -/
def hasFinal (nfa : Nfa) (s : IdSet) : Bool :=
  s.toList.any fun i => nfa.states[i]?.any (·.isFinal)

/-- Whether the part of a match before its lookahead can end in one of the states of `s`. -/
def hasPushback (nfa : Nfa) (s : IdSet) : Bool :=
  s.toList.any fun i => nfa.states[i]?.any (·.isPushback)

/-- The state that stands for `s` and has the transitions `row`. -/
def subsetState (nfa : Nfa) (s : IdSet) (row : Array (Option Nat)) : DfaState :=
  let action? := nfa.actionOf s
  { targets := row
    isFinal := nfa.hasFinal s
    isPushback := nfa.hasPushback s
    isLookEnd := action?.any (·.isLookahead)
    action? }

/-- Whether every edge without a label leads to a state. -/
def epsilonInRange (nfa : Nfa) : Bool :=
  nfa.states.all fun s => s.epsilon.toList.all (· < nfa.size)

/-- The closures of the entries that are states. -/
def entryClosures (nfa : Nfa) : List IdSet :=
  (List.range (min nfa.size (2 * nfa.numLex))).map fun i => nfa.closure (.single i)

/-- The deterministic automaton, if it has at most `limit` states. -/
def determinize (nfa : Nfa) (limit : Nat) : Except Failure Dfa :=
  if !nfa.epsilonInRange then .error (.breach .noSuchState)
  else do
    let (sets, starts) ← Subsets.numberAll limit nfa.entryClosures .empty
    if nfa.size < 2 * nfa.numLex then throw (.breach .noSuchState)
    else
      let t ← Subsets.ofStart nfa.closedMoves nfa.numClasses limit sets
      pure
        { states := (t.sets.values.toList.zipWith nfa.subsetState t.rows.toList).toArray
          numClasses := nfa.numClasses
          starts := starts.toArray }

/-- The deterministic automaton, unless the entries cannot be counted or the row of the first state
cannot be stored. -/
def determinize? (nfa : Nfa) (limit : Nat) : Except Failure Dfa :=
  if maxWord < 2 * nfa.numLex then .error (.breach .beyondCapacity)
  else if 0 < nfa.numLex && 0 < limit && !fitsMemory cellBytes nfa.numClasses then
    .error (.breach .beyondCapacity)
  else nfa.determinize limit

end Nfa

end ScannerGen
