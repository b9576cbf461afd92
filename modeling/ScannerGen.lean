import ScannerGen.Generate
import ScannerGen.Proofs.Dfa.Minimal
import ScannerGen.Proofs.Scanner.Correctness
import ScannerGen.Proofs.Scanner.Limit
import ScannerGen.Proofs.Scanner.Safety
import ScannerGen.Proofs.Dfa.Exactness
import ScannerGen.Proofs.Alphabet.Algebra
import ScannerGen.Proofs.Alphabet.Coarsest
import ScannerGen.Proofs.Regex.Edges
import ScannerGen.Proofs.Spec.Repetition
import ScannerGen.Proofs.Spec.Lookahead
import ScannerGen.Proofs.Nfa.FirstMatch
import ScannerGen.Proofs.Scanner.Precedence
import ScannerGen.Proofs.Spec.Alphabet
import ScannerGen.Proofs.Spec.Analyses
import ScannerGen.Proofs.Spec.Blame
import ScannerGen.Proofs.Spec.Invariance
import ScannerGen.Proofs.Table.Irredundant
import ScannerGen.Proofs.Dfa.Canonical
import ScannerGen.Proofs.Dfa.EquivalentStarts
import ScannerGen.Proofs.Spec.Resumption
import ScannerGen.Proofs.Table.Labels
import ScannerGen.Proofs.Spec.EofActions
import ScannerGen.Proofs.Spec.CharMap
import ScannerGen.Proofs.Scanner.LookEnd
import ScannerGen.Proofs.Table.Branches
import ScannerGen.Proofs.Nfa.Isolation
import ScannerGen.Proofs.Alphabet.Caseless
import ScannerGen.Proofs.Source.Faithful
import ScannerGen.Proofs.Table.Runs
import ScannerGen.Proofs.Alphabet.Queries
import ScannerGen.Proofs.Nfa.ClosureUnion
import ScannerGen.Proofs.Dfa.RefinementRun
import ScannerGen.Proofs.Nfa.Estimate
import ScannerGen.Proofs.Scanner.Words
