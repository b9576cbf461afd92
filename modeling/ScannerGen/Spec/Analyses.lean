import ScannerGen.Regex.Edges
import ScannerGen.Regex.Estimate
import ScannerGen.Spec.MacroTable

/-
  The analyses of an expression over a macro table: a use of a macro counts as its definition. A
  name without a definition may match anything. Where an answer does not hang on a definition, the
  definition is not looked at.
-/

namespace ScannerGen

namespace MacroTable

/-- The states that the automaton of `r` is expected to need. -/
def estimate (t : MacroTable) (r : Regex) : Nat := t.follow (fun _ => 2) Regex.estimate r

/-- Whether `r` is an alternation of patterns for a single code. -/
def isCodeClass (t : MacroTable) (r : Regex) : Bool := t.follow (fun _ => false) Regex.isCodeClass r

/-- The length of every match of `r`, if all have the same. -/
def length? (t : MacroTable) (r : Regex) : Option Nat := t.follow (fun _ => none) Regex.length? r

/-- Whether `r` matches the empty word. -/
def matchesEmpty (t : MacroTable) (r : Regex) : Bool :=
  t.follow (fun _ => true) Regex.matchesEmpty r

/-- The codes that can begin a match of `r`. -/
def first (t : MacroTable) (top : Nat) (r : Regex) : CodeSet :=
  t.follow (fun _ => .upTo top) (Regex.first top fun name => t.matchesEmpty (.use name)) r

/-- The codes that can end a match of `r`. -/
def last (t : MacroTable) (top : Nat) (r : Regex) : CodeSet :=
  t.follow (fun _ => .upTo top) (Regex.last top fun name => t.matchesEmpty (.use name)) r

/-- What is asked of `r` with the lookahead `s`: all matches of `r` have one length, not zero, or no
code can both end `r` and begin `s`. -/
def splits (t : MacroTable) (top : Nat) (r s : Regex) : Bool :=
  (match t.length? r with
    | some n => 0 < n
    | none => false) ||
    ((t.last top r).inter (t.first top s)).isEmpty

end MacroTable

end ScannerGen
