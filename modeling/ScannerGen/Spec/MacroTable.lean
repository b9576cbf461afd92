import ScannerGen.Failure
import ScannerGen.Regex.Basic
import ScannerGen.Sorted
import Std.Data.TreeSet

/-
  Named regular expressions. `followWithin` evaluates an expression together with the macros that
  it uses, as deep as it is told; a table without cycles nests no deeper than its size. `resolve`
  is the expression that results if uses are replaced by what they stand for. `expand` does the
  same to the used definitions themselves and stops at the first cycle or missing name, with what
  it has expanded so far.
-/

namespace ScannerGen

/-- The definition of a macro and what has been done to it. -/
structure MacroEntry where
  definition : Regex
  isUsed : Bool
  isExpanded : Bool
  deriving DecidableEq, Repr

/-- The entries ascend by name. -/
structure MacroTable where
  entries : List (String × MacroEntry)
  deriving DecidableEq, Repr

namespace MacroTable

/-- No macros. -/
def empty : MacroTable := ⟨[]⟩

/-- The number of macros. -/
def size (t : MacroTable) : Nat := t.entries.length

/-- The entry of a name. -/
def entry? (t : MacroTable) (name : String) : Option MacroEntry := t.entries.lookup name

/-- Whether a macro of this name is defined. -/
def contains (t : MacroTable) (name : String) : Bool := (t.entry? name).isSome

/-- The definition of a name. -/
def definition? (t : MacroTable) (name : String) : Option Regex :=
  (t.entry? name).map (·.definition)

/-- Whether `name` is defined and has been marked as used. -/
def isUsed (t : MacroTable) (name : String) : Bool :=
  match t.entry? name with
  | some e => e.isUsed
  | none => false

/-- Defines `name` anew, as a macro that is not used yet. -/
def define (t : MacroTable) (name : String) (r : Regex) : MacroTable :=
  ⟨upsert name (fun _ => ⟨r, false, false⟩) t.entries⟩

/-- Changes the entry of `name`, if there is one. -/
def update (t : MacroTable) (name : String) (f : MacroEntry → MacroEntry) : MacroTable :=
  ⟨t.entries.map fun (n, e) => (n, if n = name then f e else e)⟩

/-- Marks `name` as used, if it is defined. -/
def markUsed (t : MacroTable) (name : String) : MacroTable :=
  t.update name ({ · with isUsed := true })

/-- Marks those of `names` that are defined. -/
def markAll (t : MacroTable) (names : List String) : MacroTable :=
  let used := Std.TreeSet.ofList names
  ⟨t.entries.map fun (n, e) => (n, { e with isUsed := e.isUsed || used.contains n })⟩

/-- The macros that are defined and not used, by name. -/
def unused (t : MacroTable) : List String :=
  t.entries.filterMap fun (n, e) => if e.isUsed then none else some n

/-- The value of `r` under `eval`, which is told the values of the macros that `r` uses. Definitions
are followed at most `depth` deep; a use without one, or too deep, has the value `unknown`. -/
def followWithin {α : Type} (t : MacroTable) (unknown : String → α)
    (eval : (String → α) → Regex → α) : Nat → Regex → α
  | 0 => eval unknown
  | depth + 1 => eval fun name =>
    match t.definition? name with
    | some d => t.followWithin unknown eval depth d
    | none => unknown name

/-- Follows definitions as deep as a table without cycles can nest them. -/
def follow {α : Type} (t : MacroTable) (unknown : String → α)
    (eval : (String → α) → Regex → α) (r : Regex) : α :=
  t.followWithin unknown eval t.size r

/-- Replaces every use of a macro by what the macro stands for. -/
def resolve (t : MacroTable) (r : Regex) : Regex := t.follow .use .subst r

/-- An action on the table that stops at an error and keeps what it did before. -/
abbrev Edit := EStateM GenerateError MacroTable

/-- Marks what `r` uses, from left to right. -/
def markUses (r : Regex) (referrer : String) : Edit Unit :=
  r.macroUses.forM fun name => do
    let t ← get
    if t.contains name then set (t.markUsed name)
    else throw (.macroUndefined name referrer)

/-- The expansion of `r`, which stands in the definition of `current`; `outer` are the macros whose
definitions led there. No macro occurs twice among them, so `depth` is never used up if it is the
size of the table. -/
def expandWithin (t : MacroTable) : Nat → String → List String → Regex →
    Except GenerateError Regex
  | 0, _, _, r => pure r
  | depth + 1, current, outer, r => r.substM fun name =>
    if name = current || outer.contains name then throw (.macroCycle name)
    else
      match t.definition? name with
      | none => throw (.macroUndefined name current)
      | some d => t.expandWithin depth name (current :: outer) d

/-- The macros that `r` uses, directly or through definitions at most `depth` deep. -/
def usesWithin (t : MacroTable) : Nat → Regex → List String
  | 0, r => r.macroUses
  | depth + 1, r => r.macroUses.flatMap fun name =>
    name ::
      match t.definition? name with
      | some d => t.usesWithin depth d
      | none => []

/-- Expands the definition of `name` and marks all that it uses. -/
def expandEntry (name : String) : Edit Unit := do
  let t ← get
  match t.definition? name with
  | none => pure ()
  | some d =>
    match t.expandWithin t.size name [] d with
    | .error e => throw e
    | .ok r =>
      let t' := t.update name ({ · with definition := r, isExpanded := true })
      set (t'.markAll (t.usesWithin t.size d))

/-- The macros still to be expanded, by name. -/
def pending (t : MacroTable) : List String :=
  t.entries.filterMap fun (n, e) => if e.isUsed && !e.isExpanded then some n else none

/-- Expands pending macros until none is left, in at most `rounds` rounds. -/
def expandRounds : Nat → Edit Unit
  | 0 => pure ()
  | rounds + 1 => do
    let names := (← get).pending
    if names.isEmpty then pure ()
    else
      names.forM expandEntry
      expandRounds rounds

/-- Every round expands a macro, so there are no more rounds than macros. -/
def expand : Edit Unit := do expandRounds (← get).size

end MacroTable

end ScannerGen
