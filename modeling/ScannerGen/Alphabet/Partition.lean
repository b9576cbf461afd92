import ScannerGen.Alphabet.Caseless
import ScannerGen.IdSet

/-
  Partitions of an alphabet `[0, top]` into character classes, numbered from 0. A partition is
  refined by sets, each of which becomes a union of classes; codes that no set told apart stay in
  one class. The automata know codes only by their classes.
-/

namespace ScannerGen

/-- A partition of the codes up to `top`. -/
structure Partition where
  classes : Array CodeSet
  /-- The last code of the alphabet. -/
  top : Nat
  deriving DecidableEq, Repr

namespace Partition

/-- One class. -/
def whole (top : Nat) : Partition := ⟨#[.upTo top], top⟩

/-- The number of classes. -/
def numClasses (p : Partition) : Nat := p.classes.size

/-- Splits every class that lies partly in `s`. The first result is what is left of the classes
outside `s` and of those that lie in `s` whole; the second are the parts cut out, in order. -/
def split (s : CodeSet) : List CodeSet → List CodeSet × List CodeSet
  | [] => ([], [])
  | k :: ks =>
    if s.isEmpty then (k :: ks, [])
    else
      let common := k.inter s
      let (kept, cut) := split (s.diff common) ks
      if common.isEmpty || common = k then (k :: kept, cut)
      else (k.diff common :: kept, common :: cut)

/-- Makes the part of `s` in the alphabet a union of classes. -/
def refine (p : Partition) (s : CodeSet) : Partition :=
  let (kept, cut) := split (s.inter (.upTo p.top)) p.classes.toList
  { p with classes := (kept ++ cut).toArray }

/-- `split` by differences that demand containment. -/
def split? (s : CodeSet) : List CodeSet → Except Breach (List CodeSet × List CodeSet)
  | [] => .ok ([], [])
  | k :: ks =>
    if s.isEmpty then .ok (k :: ks, [])
    else do
      let common := k.inter s
      let (kept, cut) ← split? (← s.sub common) ks
      if common.isEmpty || common = k then pure (k :: kept, cut)
      else pure ((← k.sub common) :: kept, common :: cut)

/-- `refine` by differences that demand containment. -/
def refine? (p : Partition) (s : CodeSet) : Except Breach Partition := do
  let (kept, cut) ← split? (s.inter (.upTo p.top)) p.classes.toList
  pure { p with classes := (kept ++ cut).toArray }

/-- Refines by a set or by its caseless closure. -/
def refineSet (p : Partition) (s : CodeSet) (caseless : Bool) : Partition :=
  p.refine (s.withCase caseless)

/-- Refines by a code or by its case variants. -/
def refineCode (p : Partition) (c : Nat) (caseless : Bool) : Partition :=
  p.refineSet (.single c) caseless

/-- Gives every character of a text a class of its own. -/
def refineText (p : Partition) (s : String) (caseless : Bool) : Partition :=
  s.toList.foldl (fun p c => p.refineCode c.toNat caseless) p

/-- The class of a code, and 0 for a code outside the alphabet. -/
def classOf (p : Partition) (c : Nat) : Nat := (p.classes.findIdx? (·.contains c)).getD 0

/-- The classes of which `s`, or its caseless closure, is the union; a class that lies in it only
partly is a breach. -/
def classesIn (p : Partition) (s : CodeSet) (caseless : Bool) : Except Breach (List Nat) :=
  let s := s.withCase caseless
  p.classes.toList.zipIdx.filterMapM fun (k, i) => do
    if s.containsSet k then pure (some i)
    else if (s.inter k).isEmpty then pure none
    else throw .straddledClass

/-- The classes that are disjoint from `s`. -/
def classesOutside (p : Partition) (s : CodeSet) : List Nat :=
  p.classes.toList.zipIdx.filterMap fun (k, i) => if (s.inter k).isEmpty then some i else none

/-- The classes of a code of the alphabet and, if `caseless`, of its case variants, ascending. -/
def classesOfCode (p : Partition) (c : Nat) (caseless : Bool) : IdSet :=
  .ofList (((c :: if caseless then caseVariants c else []).filter (· ≤ p.top)).map p.classOf)

/-- Every interval of every class with the number of its class, in order of the codes. -/
def intervals (p : Partition) : Array (Interval × Nat) :=
  ((p.classes.toList.zipIdx.flatMap fun (k, i) => k.toList.map (·, i)).mergeSort
    fun a b => a.1.lo ≤ b.1.lo).toArray

end Partition

/-- The class that a sorted map of intervals gives to a code. -/
def classAt? (map : Array (Interval × Nat)) (c : Nat) : Option Nat :=
  (bisect (·.1.side c) map).bind fun i => map[i]?.map (·.2)

end ScannerGen
