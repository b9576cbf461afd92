import ScannerGen.Log
import ScannerGen.Spec.EofActions
import ScannerGen.Spec.LexStates
import ScannerGen.Spec.Rule

/-
  Scanner specifications and their preparation: marking and expanding macros and checking that
  every lookahead leaves no doubt where a match ends. A preparation that fails keeps what it did
  up to there.
-/

namespace ScannerGen

/-- A specification. -/
structure Spec where
  macros : MacroTable
  /-- In the order in which they are written. -/
  rules : List Rule
  states : LexStates
  eof : EofActions
  /-- Echo every character that no rule matches. -/
  standalone : Bool
  deriving DecidableEq, Repr

/-- Marks the macros that the rules use. -/
def markRules (rules : List Rule) : MacroTable.Edit Unit :=
  rules.forM fun rule =>
    (rule.regex :: rule.lookahead?.toList).forM (MacroTable.markUses · rule.describe)

/-- The rules whose lookahead does not tell where the match ends. -/
def ambiguousRules (t : MacroTable) (top : Nat) (rules : List Rule) : List (Rule × Regex) :=
  rules.filterMap fun rule => rule.lookahead?.bind fun s =>
    if t.splits top rule.regex s then none else some (rule, s)

/-- Reports every ambiguous lookahead and fails with the first. -/
def checkLookaheads (t : MacroTable) (top : Nat) (rules : List Rule) :
    List LogRecord × Except GenerateError Unit :=
  let bad := ambiguousRules t top rules
  (bad.map fun (rule, s) => .ambiguousLookahead rule.line rule.regex s,
    match bad with
    | [] => .ok ()
    | (rule, _) :: _ => .error (.ambiguousLookahead rule.line))

/-- What a preparation leaves, reports and answers. -/
structure Preparation where
  spec : Spec
  log : List LogRecord
  result : Except GenerateError Unit

/-- Prepares a specification over an alphabet that ends at `top`. -/
def Spec.prepare (spec : Spec) (top : Nat) : Preparation :=
  match (do markRules spec.rules; MacroTable.expand : MacroTable.Edit Unit) spec.macros with
  | .error e t => { spec := { spec with macros := t }, log := [], result := .error e }
  | .ok () t =>
    let (log, result) := checkLookaheads t top spec.rules
    { spec := { spec with macros := t }, log := t.unused.map .unusedMacro ++ log, result }

end ScannerGen
