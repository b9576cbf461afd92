import ScannerGen.Dfa.Basic
import ScannerGen.Grouping
import ScannerGen.IdSet

/-
  Minimization by partition refinement. The states start in blocks of equal attributes. A block and
  a class split every block of which only a part moves into the first block on that class. The
  smaller half of a block that is split becomes a block of its own, and it has to split the others
  again, on every class. What is left in the end are the classes of equivalent states; each of them
  becomes a state, numbered by its lowest member.

  States and classes are any numbers here. Where they are words of 32 bits, the automaton is taken
  to have less than `2 ^ 32` of either, as every generated one has (`generate_fits_words`).
-/

namespace ScannerGen

/-- What equivalent states have in common before anything is read. -/
structure StateKey where
  isFinal : Bool
  isPushback : Bool
  isLookEnd : Bool
  code? : Option String
  /-- The line of the rule, where rules with the same code are told apart. -/
  line? : Option Nat
  deriving DecidableEq, Repr

namespace StateKey

instance : Ord StateKey :=
  ⟨compareLex (compareOn isFinal) <| compareLex (compareOn isPushback) <|
    compareLex (compareOn isLookEnd) <| compareLex (compareOn code?) (compareOn line?)⟩

instance : Std.TransOrd StateKey := inferInstanceAs (Std.TransCmp (compareLex _ _))

instance : Std.LawfulEqOrd StateKey where
  eq_of_compare {a b} h := by
    change compareLex _ (compareLex _ (compareLex _ (compareLex _ _))) a b = _ at h
    cases a
    cases b
    simpa [compareLex_eq_eq, compareOn] using h

end StateKey

/-- What a state has in common with the states equivalent to it. -/
def DfaState.key (strict : Bool) (s : DfaState) : StateKey :=
  { isFinal := s.isFinal
    isPushback := s.isPushback
    isLookEnd := s.isLookEnd
    code? := s.action?.map (·.code)
    line? := if strict then s.action?.map (·.priority) else none }

/-- A partition of states, and what is still to be split by. -/
structure Blocks where
  members : Array (List Nat)
  /-- The block of every state. -/
  blockOf : Array Nat
  /-- Blocks and classes. -/
  pending : List (Nat × Nat)
  deriving DecidableEq, Repr

namespace Blocks

/-- One block for every key, all of them pending on every class. -/
def ofKeys (keys : List StateKey) (numClasses : Nat) : Blocks :=
  let blockOf := (Grouping.ofList id keys).groups
  let numBlocks := (Grouping.ofList id keys).leaders.size
  { members := blockOf.toList.zipIdx.foldr (fun (b, i) members => members.modify b (i :: ·))
      (Array.replicate numBlocks [])
    blockOf
    pending := (List.range numBlocks).flatMap fun b => (List.range numClasses).map (b, ·) }

/-- Whether state `i` moves into block `b` on class `k`. -/
def movesInto (t : Blocks) (d : Dfa) (b k i : Nat) : Bool :=
  match d.target? i k with
  | some j => t.blockOf[j]? == some b
  | none => false

/-- Moves `moved` out of block `b`, in which `kept` stays, into a new block. -/
def divide (t : Blocks) (numClasses b : Nat) (moved kept : List Nat) : Blocks :=
  let new := t.members.size
  { members := (t.members.setIfInBounds b kept).push moved
    blockOf := moved.foldl (fun blockOf i => blockOf.setIfInBounds i new) t.blockOf
    pending := (List.range numClasses).map (new, ·) ++ t.pending }

/-- Splits block `b` by the moves into `splitter` on class `k`. -/
def splitBlock (d : Dfa) (splitter k : Nat) (t : Blocks) (b : Nat) : Blocks :=
  let members := t.members.getD b []
  let (inside, outside) := members.partition (t.movesInto d splitter k)
  if inside.isEmpty || outside.isEmpty then t
  else if inside.length ≤ outside.length then t.divide d.numClasses b inside outside
  else t.divide d.numClasses b outside inside

/-- The blocks with a member that moves into block `b`; `sources` lists the states that move into
a state. -/
def touching (t : Blocks) (sources : Array (List Nat)) (b : Nat) : IdSet :=
  .ofList (((t.members.getD b []).flatMap (sources.getD · [])).filterMap (t.blockOf[·]?))

/-- Takes a pending pair and splits every block by it. -/
def step (d : Dfa) (sources : Array (Array (List Nat))) (t : Blocks) : Option Blocks :=
  match t.pending with
  | [] => none
  | (splitter, k) :: pending =>
    some ((t.touching (sources.getD k #[]) splitter).toList.foldl (splitBlock d splitter k)
      { t with pending })

/-- At most `fuel` steps. -/
def refine (d : Dfa) (sources : Array (Array (List Nat))) : Nat → Blocks → Blocks
  | 0, t => t
  | fuel + 1, t =>
    match t.step d sources with
    | none => t
    | some t' => refine d sources fuel t'

end Blocks

namespace Dfa

/-- For every state those that move into it on class `k`. -/
def sourcesOn (d : Dfa) (k : Nat) : Array (List Nat) :=
  (List.range d.size).foldr
    (fun i sources =>
      match d.target? i k with
      | some j => sources.modify j (i :: ·)
      | none => sources)
    (Array.replicate d.size [])

/-- The moves of every class, backwards. -/
def sources (d : Dfa) : Array (Array (List Nat)) := (Array.range d.numClasses).map d.sourcesOn

/-- The block of every state at the end. There are at most as many blocks as states, and each is
pending once on every class. -/
def finalBlocks (d : Dfa) (strict : Bool) : Blocks :=
  (Blocks.ofKeys (d.states.toList.map (·.key strict)) d.numClasses).refine d d.sources
    (d.numClasses * d.size)

/-- One state for every group of states, with the transitions of its leader. -/
def quotient (d : Dfa) (leaders : Array Nat) (groupOf : Array Nat) : Dfa :=
  { d with
    states := leaders.map fun i =>
      let s := d.states.getD i (.blank d.numClasses)
      { s with targets := s.targets.map (·.bind (groupOf[·]?)) }
    starts := d.starts.map (groupOf.getD · 0) }

/-- The minimal automaton of one whose targets and starts are states. -/
def minimize (d : Dfa) (strict : Bool) : Dfa :=
  if d.size ≤ 1 then d
  else
    let blockOf := (d.finalBlocks strict).blockOf
    let g := Grouping.ofList (blockOf[·]?) (List.range d.size)
    d.quotient g.leaders g.groups

/-- The minimal automaton, if every target and every start is a state. -/
def minimize? (d : Dfa) (strict : Bool) : Except Breach Dfa :=
  if d.size ≤ 1 || decide d.InRange then .ok (d.minimize strict) else .error .noSuchState

end Dfa

end ScannerGen
