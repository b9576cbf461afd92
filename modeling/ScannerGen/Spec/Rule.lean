import ScannerGen.Spec.Action
import ScannerGen.Spec.Analyses

/-
  Rules of a specification: an expression, the action for its matches, and where the rule is in
  force.
-/

namespace ScannerGen

/-- A rule. -/
structure Rule where
  line : Nat
  /-- The lexical states in which the rule is active; none stands for every inclusive state. -/
  states : List Nat
  regex : Regex
  action : Action
  /-- Active only at the beginning of a line. -/
  atLineStart : Bool
  /-- What has to follow a match without being part of it. -/
  lookahead? : Option Regex
  deriving DecidableEq, Repr

namespace Rule

/-- A rule for every inclusive state, wherever a match begins. -/
def new (line : Nat) (regex : Regex) (code : String) : Rule :=
  { line, states := [], regex, action := ⟨code, line, false⟩, atLineStart := false,
    lookahead? := none }

/-- The rule for those of its matches that are followed by a match of `r`. -/
def withLookahead (rule : Rule) (r : Regex) : Rule :=
  { rule with lookahead? := some r, action := rule.action.asLookahead }

/-- The rule as errors about its macros name it. -/
def describe (rule : Rule) : String := s!"rule at line {rule.line}"

/-- The states that the expressions of a rule are expected to need. -/
def estimate (t : MacroTable) (rule : Rule) : Nat :=
  cappedAdd (t.estimate rule.regex)
    (match rule.lookahead? with
      | some r => t.estimate r
      | none => 0)

end Rule

/-- The states expected for all rules and the entries of `numLex` lexical states. -/
def estimateStates (t : MacroTable) (rules : List Rule) (numLex : Nat) : Nat :=
  (rules.map (Rule.estimate t)).foldl cappedAdd (2 * numLex + 2)

/-- The estimate, if the entries can be counted. -/
def estimateStates? (t : MacroTable) (rules : List Rule) (numLex : Nat) : Except Breach Nat :=
  if 2 * numLex + 2 ≤ maxWord then .ok (estimateStates t rules numLex)
  else .error .beyondCapacity

end ScannerGen
