import ScannerGen.Config
import ScannerGen.Dfa.Minimize
import ScannerGen.Dfa.OfNfa
import ScannerGen.Nfa.OfRules
import ScannerGen.Source.OfTables
import ScannerGen.Spec.Alphabet
import ScannerGen.Table.OfDfa

/-
  From a specification to the tables of its scanner.
-/

namespace ScannerGen

/-- What is generated. -/
structure Scanner where
  dfa : Dfa
  tables : Tables
  /-- The classes of the alphabet by intervals, in order of the codes. -/
  charMap : Array (Interval × Nat)
  stats : Stats

/-- The source text of the tables. -/
def Scanner.source (s : Scanner) : String :=
  Token.render (Source.tables s.tables s.charMap.toList)

/-- A result with what was reported on the way. -/
structure Report (α : Type) where
  log : List LogRecord
  result : Except Failure α

/-- The automata of a prepared specification: the deterministic one, the number of states it had
before it was minimized, and that of the nondeterministic one. -/
structure Automata where
  dfa : Dfa
  numDfaStates : Nat
  numNfaStates : Nat

/-- The automata of `spec` over the classes of `p`. -/
def Automata.ofSpec (spec : Spec) (p : Partition) (config : Config) : Except Failure Automata := do
  let nfa ← Nfa.ofSpec spec p config.maxStates
  let full ← nfa.determinize config.maxStates
  let dfa ←
    if config.skipMinimization then pure full
    else
      match full.minimize? config.strict with
      | .ok dfa => pure dfa
      | .error b => throw (.breach b)
  pure ⟨dfa, full.size, nfa.size⟩

/-- The pairs of lexical states that a minimal automaton does not tell apart. -/
def equivalenceRecords (states : LexStates) (dfa : Dfa) : List LogRecord :=
  dfa.equivalentLexStates.map fun (i, j) =>
    .equivalentStates ((states.name? i).getD "?") ((states.name? j).getD "?")

/-- Generates from a prepared specification over a given partition of the alphabet. -/
def generateWith (spec : Spec) (p : Partition) (config : Config) : Report Scanner :=
  match Automata.ofSpec spec p config with
  | .error e => ⟨[], .error e⟩
  | .ok a =>
    let tables := a.dfa.tables spec.eof spec.states.size config.encoding config.strict
    let stats : Stats :=
      { numRules := spec.rules.length
        numMacros := spec.macros.size
        numClasses := p.numClasses
        numNfaStates := a.numNfaStates
        numDfaStates := a.numDfaStates
        numMinimizedStates := a.dfa.size
        numRows := tables.numRows
        numCols := tables.numCols
        encodedSize := tables.table.size
        numActions := tables.actions.size }
    let warnings :=
      if config.skipMinimization then [] else equivalenceRecords spec.states a.dfa
    ⟨warnings ++ [.finished stats], .ok ⟨a.dfa, tables, p.intervals, stats⟩⟩

/-- Prepares a specification and generates from it over the partition that it calls for. The
specification comes back as the preparation leaves it. -/
def generate (spec : Spec) (config : Config) : Spec × Report Scanner :=
  let prepared := spec.prepare config.maxCode
  match prepared.result with
  | .error e => (prepared.spec, ⟨prepared.log, .error (.error e)⟩)
  | .ok () =>
    match Partition.ofRules? prepared.spec.rules prepared.spec.macros config.maxCode with
    | .error b => (prepared.spec, ⟨prepared.log, .error (.breach b)⟩)
    | .ok p =>
      let report := generateWith prepared.spec p config
      (prepared.spec, ⟨prepared.log ++ report.log, report.result⟩)

end ScannerGen
