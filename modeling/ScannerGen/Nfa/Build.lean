import ScannerGen.Failure
import ScannerGen.Nfa.Closure
import ScannerGen.Nfa.Subsets

/-
  Growing an automaton. A step that fails leaves the states that it has added. `complement` turns a
  fragment into one for the words that the fragment rejects: it makes the fragment deterministic in
  new states, sends missing moves to an error state, and lets every state leave that does not
  contain the old end. `trim` then drops the edges to new states from which the end is out of
  reach.

  The number of a state is its index and may be any number. In a machine it is a word of 32 bits,
  which is enough as long as the limit is a word (`generate_fits_words`).
-/

namespace ScannerGen

/-- An action on an automaton that can fail. -/
abbrev Build := EStateM Failure Nfa

/-- The memory that a state takes, in bytes. -/
def Nfa.stateBytes : Nat := 64

namespace Build

/-- The result of an action, and the automaton that it leaves if it succeeds. -/
def run {α : Type} (act : Build α) (nfa : Nfa) : Except Failure (α × Nfa) :=
  match act nfa with
  | .ok a nfa => .ok (a, nfa)
  | .error e _ => .error e

/-- A value that does not depend on the automaton. -/
def liftExcept {α : Type} : Except Failure α → Build α
  | .ok a => pure a
  | .error e => throw e

/-- A value whose absence is a breach. -/
def demand {α : Type} : Except Breach α → Build α
  | .ok a => pure a
  | .error b => throw (.breach b)

/-- A new state, unless there are `limit` states or one more cannot be stored. -/
def newState (limit : Nat) : Build Nat := do
  let nfa ← get
  if limit ≤ nfa.size || !fitsMemory Nfa.stateBytes (nfa.size + 1) then
    throw (.error (.stateLimit limit))
  else
    set (nfa.push .blank)
    pure nfa.size

/-- `n` new states. -/
def newStates (limit : Nat) : Nat → Build Unit
  | 0 => pure ()
  | n + 1 => do
    let _ ← newState limit
    newStates limit n

/-- A change of state `i`, which has to exist. -/
def change (i : Nat) (f : Nfa → Nfa) : Build Unit := fun nfa =>
  if i < nfa.size then .ok () (f nfa) else .error (.breach .noSuchState) nfa

/-- An edge without a label from `i`, which has to exist, to `j`. -/
def addEpsilon (i j : Nat) : Build Unit := change i (·.addEpsilon i j)

/-- Labelled edges from `i`, which has to exist. -/
def addEdges (i : Nat) (moves : List (Nat × Nat)) : Build Unit := change i (·.addMoves i moves)

/-- An edge from `i` to `j` for each of `classes`. -/
def addMoves (i : Nat) (classes : List Nat) (j : Nat) : Build Unit :=
  addEdges i (classes.map (·, j))

end Build

namespace Nfa

/-- The states that an edge leads to from `i`. -/
def targetsOf (nfa : Nfa) (i : Nat) : List Nat :=
  (nfa.movesOf i).map (·.2) ++ (nfa.epsilonOf i).toList

/-- For every state those from `lo` on that have an edge into it. -/
def sources (nfa : Nfa) (lo : Nat) : Array (List Nat) :=
  (List.range' lo (nfa.size - lo)).foldr
    (fun i sources => (nfa.targetsOf i).foldl (fun sources j => sources.modify j (i :: ·)) sources)
    (Array.replicate nfa.size [])

/-- The states from `lo` on from which `stop` can be reached among them. -/
def live (nfa : Nfa) (lo stop : Nat) : IdSet :=
  let sources := nfa.sources lo
  reach (sources.getD · []) (nfa.size - lo) (.single stop)

/-- Drops the edges of the states from `lo` on that lead to one of them that is not live. -/
def trim (nfa : Nfa) (lo stop : Nat) : Nfa :=
  let live := (nfa.live lo stop).mask nfa.size
  let keeps (j : Nat) : Bool := j < lo || live.getD j true
  { nfa with
    states := nfa.states.mapIdx fun i s =>
      if i < lo then s
      else { s with moves := s.moves.filter (keeps ·.2), epsilon := s.epsilon.filter keeps } }

end Nfa

namespace Build

/-- The states of a complement that stand for the sets of `t`, the first of them being `first`.
A missing move leads to `error`. -/
def addSubsets (t : Subsets) (old first error stop : Nat) : Build Unit :=
  (t.sets.values.toList.zip t.rows.toList).zipIdx.forM fun ((s, row), i) => do
    unless old ∈ s do addEpsilon (first + i) stop
    addEdges (first + i) (row.toList.zipIdx.map fun (target?, k) =>
      (k, match target? with
        | some j => first + j
        | none => error))

/-- A fragment for the words that `f` rejects. -/
def complement (limit : Nat) (f : Fragment) : Build Fragment := do
  let nfa ← get
  let n := nfa.numClasses
  let c ← demand (nfa.closure? (.single f.start))
  match Subsets.ofStart nfa.closedMoves n limit (.single c) with
  | .error e => throw e
  | .ok t =>
    let first := nfa.size
    newStates limit t.sets.size
    let start ← newState limit
    let error ← newState limit
    let stop ← newState limit
    addMoves error (List.range n) error
    addEpsilon error stop
    addEpsilon start first
    addSubsets t f.stop first error stop
    modify (·.trim first stop)
    pure ⟨start, stop⟩

end Build

end ScannerGen
