import ScannerGen.Alphabet.Partition
import ScannerGen.Nfa.Build
import ScannerGen.Regex.Display
import ScannerGen.Spec.Analyses

/-
  The fragment of an expression. Operators link the fragments of their operands through new states;
  an alternation of patterns for a single code takes two states and an edge for every class. The
  use of a macro is built as a copy of its definition.
-/

namespace ScannerGen

/-- The classes whose codes match a pattern. -/
def Partition.classesOf (p : Partition) : CodePattern → Except Breach (List Nat)
  | .code c caseless => .ok (p.classesOfCode c caseless).toList
  | .oneOf s => p.classesIn s false
  | .noneOf s => .ok (p.classesOutside s)

/-- The classes of an alternation of patterns for a single code. -/
def Partition.collect (p : Partition) (ofUse : String → Except Failure (List Nat)) :
    Regex → Except Failure (List Nat)
  | .alt r s => do
    let ks ← p.collect ofUse r
    let ls ← p.collect ofUse s
    pure (ks ++ ls)
  | .leaf (.one q) =>
    match p.classesOf q with
    | .ok ks => .ok ks
    | .error b => .error (.breach b)
  | .leaf (.use name) => ofUse name
  | r => .error (.error (.inconsistent (.notClass r.display)))

/-- The use of a macro that no preparation lets through. -/
def MacroTable.noDefinition {α : Type} (name : String) : Except Failure α :=
  .error (.error (.inconsistent (.undefinedMacro name)))

/-- The classes of an alternation over a macro table. -/
def MacroTable.collect (t : MacroTable) (p : Partition) (r : Regex) : Except Failure (List Nat) :=
  t.follow noDefinition p.collect r

namespace Build

/-- A fragment for one code of any of the classes. -/
def insertClasses (limit : Nat) (classes : Except Failure (List Nat)) : Build Fragment := do
  let ks ← liftExcept classes
  let start ← newState limit
  let stop ← newState limit
  addMoves start (IdSet.ofList ks).toList stop
  pure ⟨start, stop⟩

/-- A chain of states from `i` on that reads `cs`; the result is its last state. -/
def insertChars (p : Partition) (limit : Nat) (caseless : Bool) (i : Nat) :
    List Char → Build Nat
  | [] => pure i
  | c :: cs => do
    let j ← newState limit
    addMoves i (p.classesOfCode c.toNat caseless).toList j
    insertChars p limit caseless j cs

/-- A fragment for one text. -/
def insertText (p : Partition) (limit : Nat) (s : String) (caseless : Bool) : Build Fragment := do
  let start ← newState limit
  if s.isEmpty then
    let stop ← newState limit
    addEpsilon start stop
    pure ⟨start, stop⟩
  else
    let stop ← insertChars p limit caseless start s.toList
    pure ⟨start, stop⟩

/-- A fragment that is passed once or more often, or also not at all if `skip`. -/
def repeated (limit : Nat) (skip : Bool) (f : Fragment) : Build Fragment := do
  let start ← newState limit
  let stop ← newState limit
  addEpsilon start f.start
  addEpsilon f.stop stop
  addEpsilon f.stop f.start
  if skip then addEpsilon start stop
  pure ⟨start, stop⟩

/-- The fragment of an expression whose macros have the fragments `ofUse`. For those that are
classes, as `isClass` tells, `classes` gives what they stand for. -/
def insertWith (p : Partition) (limit : Nat) (isClass : String → Bool)
    (classes : String → Except Failure (List Nat)) (ofUse : String → Build Fragment)
    (r : Regex) : Build Fragment :=
  if r.isCodeClass isClass then insertClasses limit (p.collect classes r)
  else
    match r with
    | .alt r s => do
      let f ← insertWith p limit isClass classes ofUse r
      let g ← insertWith p limit isClass classes ofUse s
      let start ← newState limit
      let stop ← newState limit
      addEpsilon start f.start
      addEpsilon start g.start
      addEpsilon f.stop stop
      addEpsilon g.stop stop
      pure ⟨start, stop⟩
    | .cat r s => do
      let f ← insertWith p limit isClass classes ofUse r
      let g ← insertWith p limit isClass classes ofUse s
      addEpsilon f.stop g.start
      pure ⟨f.start, g.stop⟩
    | .star r => do repeated limit true (← insertWith p limit isClass classes ofUse r)
    | .plus r => do repeated limit false (← insertWith p limit isClass classes ofUse r)
    | .opt r => do
      let f ← insertWith p limit isClass classes ofUse r
      addEpsilon f.start f.stop
      pure f
    | .compl r => do complement limit (← insertWith p limit isClass classes ofUse r)
    | .upTo r => do
      let start ← newState limit
      let before ← newState limit
      let after ← newState limit
      let stop ← newState limit
      let inner ← insertWith p limit isClass classes ofUse r
      let all := List.range (← get).numClasses
      addMoves before all before
      addMoves after all after
      addEpsilon start before
      addEpsilon before inner.start
      addEpsilon inner.stop after
      addEpsilon after stop
      let without ← complement limit ⟨start, stop⟩
      let found ← insertWith p limit isClass classes ofUse r
      addEpsilon without.stop found.start
      pure ⟨without.start, found.stop⟩
    | .leaf (.one q) => throw (.error (.inconsistent (.missedClass q.display)))
    | .leaf (.text s caseless) => insertText p limit s caseless
    | .leaf (.use name) => ofUse name

/-- The fragment of an expression over a macro table. Of more definitions than the table has, each
inside the one before, two are the same; between them a state has been added, or the building would
never end. So a building that stops at `limit` states follows definitions no deeper than this. -/
def insert (p : Partition) (limit : Nat) (t : MacroTable) : Regex → Build Fragment :=
  t.followWithin (fun name => liftExcept (MacroTable.noDefinition name))
    (insertWith p limit (fun name => t.isCodeClass (.use name))
      fun name => t.collect p (.use name))
    (t.size * (limit + 1))

end Build

end ScannerGen
