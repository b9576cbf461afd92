import ScannerGen.Nfa.OfRegex
import ScannerGen.Spec.Basic

/-
  The automaton of a specification: a fragment for every rule, linked to the entries of the lexical
  states in which the rule is active.
-/

namespace ScannerGen

namespace Build

/-- Links an entry pair to a fragment, the one for the middle of a line unless `atLineStart`. -/
def enter (rule : Rule) (start k : Nat) : Build Unit := do
  let numLex := (← get).numLex
  if k < numLex then
    unless rule.atLineStart do addEpsilon (2 * k) start
    addEpsilon (2 * k + 1) start
  else throw (.error (.inconsistent (.noSuchLexState rule.line k numLex)))

/-- Lets a match with the action `a` end in state `i`. -/
def accept (i : Nat) (a : Action) : Build Unit :=
  change i (·.modify i ({ · with isFinal := true, action? := some a }))

/-- Lets the part of a match before its lookahead end in state `i`. -/
def markPushback (i : Nat) : Build Unit := change i (·.modify i ({ · with isPushback := true }))

/-- The fragments of a rule, entered from its lexical states. -/
def addRule (p : Partition) (limit : Nat) (t : MacroTable) (lex : LexStates) (rule : Rule) :
    Build Unit := do
  let f ← insert p limit t rule.regex
  (if rule.states.isEmpty then lex.inclusive else rule.states).forM (enter rule f.start)
  match rule.lookahead? with
  | some r =>
    let g ← insert p limit t r
    addEpsilon f.stop g.start
    markPushback f.stop
    accept g.stop rule.action.asLookahead
  | none => accept f.stop rule.action

/-- What a scanner does that echoes what no rule matches. -/
def echo : Action := ⟨"echo", 0xFFFFFFFF, false⟩

/-- The rule of lowest priority, which matches any one code everywhere. -/
def addEcho (limit : Nat) : Build Unit := do
  let start ← newState limit
  let stop ← newState limit
  addMoves start (List.range (← get).numClasses) stop
  (List.range (2 * (← get).numLex)).forM (addEpsilon · start)
  accept stop echo

end Build

namespace Nfa

/-- The entries of the lexical states, in a memory that holds `estimate` states or as many as the
limit allows. -/
def start (numClasses numLex estimate limit : Nat) : Except Failure Nfa :=
  if limit < 2 * numLex || !fitsMemory stateBytes (max (2 * numLex) (min estimate limit)) then
    .error (.error (.stateLimit limit))
  else .ok (entries numClasses numLex)

/-- The automaton of a specification over the classes of `p`. -/
def ofSpec (spec : Spec) (p : Partition) (limit : Nat) : Except Failure Nfa := do
  let numLex := spec.states.size
  let nfa ← start p.numClasses numLex (estimateStates spec.macros spec.rules numLex) limit
  let (_, nfa) ← Build.run
    (do
      spec.rules.forM (Build.addRule p limit spec.macros spec.states)
      if spec.standalone then Build.addEcho limit)
    nfa
  pure nfa

end Nfa

end ScannerGen
