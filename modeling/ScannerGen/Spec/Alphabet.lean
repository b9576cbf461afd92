import ScannerGen.Alphabet.Partition
import ScannerGen.Spec.Rule

/-
  The partition of the alphabet that a specification calls for: refined by every leaf of its rules,
  of their lookaheads, and of the macros that these reach. The definition of a macro is visited
  where the macro is used first, and only there.
-/

namespace ScannerGen

/-- The sets of codes that a leaf tells apart from the rest of the alphabet. -/
def Leaf.sets : Leaf → List CodeSet
  | .one (.code c caseless) => [(CodeSet.single c).withCase caseless]
  | .one (.oneOf s) | .one (.noneOf s) => [s]
  | .text s caseless => s.toList.map fun c => (CodeSet.single c.toNat).withCase caseless
  | .use _ => []

/-- The sets met so far, in order, and the macros whose definitions were visited. -/
structure Survey where
  sets : Array CodeSet
  visited : List String

/-- Visits a leaf. A definition is visited by `enter`. -/
def Survey.visitLeaf (t : MacroTable) (enter : Survey → List Leaf → Survey) (v : Survey) :
    Leaf → Survey
  | .use name =>
    if v.visited.contains name then v
    else
      let v := { v with visited := name :: v.visited }
      match t.definition? name with
      | some d => enter v d.leaves
      | none => v
  | l => { v with sets := v.sets ++ l.sets }

/-- Visits `leaves`, going into definitions at most `depth` deep. -/
def Survey.visit (v : Survey) (t : MacroTable) : Nat → List Leaf → Survey
  | 0, _ => v
  | depth + 1, leaves => leaves.foldl (Survey.visitLeaf t fun v leaves => v.visit t depth leaves) v

/-- Visits the expressions of a rule. No definition is visited inside itself, so the size of the
table bounds the depth. -/
def Survey.visitRule (t : MacroTable) (v : Survey) (rule : Rule) : Survey :=
  (rule.regex :: rule.lookahead?.toList).foldl (fun v r => v.visit t (t.size + 1) r.leaves) v

/-- The sets that the rules call for. -/
def Survey.ofRules (rules : List Rule) (t : MacroTable) : Survey :=
  rules.foldl (Survey.visitRule t) ⟨#[], []⟩

namespace Partition

/-- The alphabet up to `top`, refined by all that the rules call for. -/
def ofRules (rules : List Rule) (t : MacroTable) (top : Nat) : Partition :=
  (Survey.ofRules rules t).sets.toList.foldl refine (.whole top)

/-- `ofRules` by operations that refuse what they are not made for. -/
def ofRules? (rules : List Rule) (t : MacroTable) (top : Nat) : Except Breach Partition :=
  (Survey.ofRules rules t).sets.toList.foldlM refine? (.whole top)

end Partition

end ScannerGen
