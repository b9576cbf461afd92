import ScannerGen.Regex.Display

/-
  What a run reports besides its result.
-/

namespace ScannerGen

/-- Sizes observed on the way from a specification to its tables. -/
structure Stats where
  numRules : Nat
  numMacros : Nat
  numClasses : Nat
  numNfaStates : Nat
  numDfaStates : Nat
  numMinimizedStates : Nat
  numRows : Nat
  numCols : Nat
  encodedSize : Nat
  numActions : Nat
  deriving DecidableEq, Repr

/-- A message to the author of a specification. -/
inductive LogRecord where
  | unusedMacro (name : String)
  | ambiguousLookahead (line : Nat) (r s : Regex)
  | equivalentStates (first second : String)
  | finished (stats : Stats)
  deriving DecidableEq, Repr

namespace LogRecord

/-- How serious a record is. -/
def level : LogRecord → String
  | unusedMacro _ | equivalentStates _ _ => "WARN"
  | ambiguousLookahead _ _ _ => "ERROR"
  | finished _ => "INFO"

/-- The wording of a record. -/
def message : LogRecord → String
  | unusedMacro name => s!"macro `{name}` is defined but never used"
  | ambiguousLookahead line r s =>
    s!"line {line}: trailing context " ++ r.display ++ " / " ++ s.display ++ " is ambiguous"
  | equivalentStates first second => s!"lexical states `{first}` and `{second}` are equivalent"
  | finished st =>
    s!"{st.numRules} rules, {st.numClasses} classes: {st.numNfaStates} NFA states, " ++
      s!"{st.numDfaStates} DFA states, {st.numMinimizedStates} after minimization, " ++
      s!"{st.numRows}x{st.numCols} table ({st.encodedSize} words)"

/-- A record as one line of a log. -/
def line (record : LogRecord) : String := record.level ++ " " ++ record.message

end LogRecord

end ScannerGen
