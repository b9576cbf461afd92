import ScannerGen.Alphabet.Spaced
import ScannerGen.Sorted

/-
  Sets of character codes as sorted lists of intervals with gaps between neighbours, so that every
  set has one form. `sub` is the difference that demands containment, `diff` the one that does not.
-/

namespace ScannerGen

/-- A set of codes. -/
structure CodeSet where
  intervals : Array Interval
  spaced : Interval.Spaced intervals.toList
  deriving DecidableEq, Repr

namespace CodeSet

/-- The intervals in order. -/
def toList (s : CodeSet) : List Interval := s.intervals.toList

theorem spaced_toList (s : CodeSet) : Interval.Spaced s.toList := s.spaced

/-- The set with the given intervals. -/
def ofSpaced (l : List Interval) (h : Interval.Spaced l) : CodeSet := ⟨l.toArray, h⟩

/-- `c` belongs to the set. -/
def Mem (s : CodeSet) (c : Nat) : Prop := ∃ iv ∈ s.toList, iv.contains c = true

instance : Membership Nat CodeSet := ⟨Mem⟩

/-- The set without members. -/
def empty : CodeSet := ofSpaced [] Interval.spaced_nil

instance : EmptyCollection CodeSet := ⟨empty⟩

instance : Inhabited CodeSet := ⟨empty⟩

/-- Whether the set has no members. -/
def isEmpty (s : CodeSet) : Bool := s.intervals.isEmpty

/-- The codes of an interval. -/
def ofInterval (iv : Interval) : CodeSet := ofSpaced [iv] (Interval.spaced_singleton iv)

/-- One code. -/
def single (c : Nat) : CodeSet := ofInterval (.single c)

/-- All codes up to `last`. -/
def upTo (last : Nat) : CodeSet := ofInterval ⟨0, last, Nat.zero_le last⟩

/-- The set together with the codes of an interval. -/
def insert (s : CodeSet) (iv : Interval) : CodeSet :=
  ofSpaced (iv.place s.toList) (s.spaced_toList.place iv)

/-- The set together with one code. -/
def insertCode (s : CodeSet) (c : Nat) : CodeSet := s.insert (.single c)

/-- The codes of intervals that come in any order and may overlap. -/
def ofList (ivs : List Interval) : CodeSet := ivs.foldl insert ∅

/-- The codes of either set; the intervals of `t` are inserted one after the other. -/
def union (s t : CodeSet) : CodeSet := t.toList.foldl insert s

/-- The codes that both sets have. -/
def inter (s t : CodeSet) : CodeSet :=
  ofSpaced (Interval.shared s.toList t.toList) (s.spaced_toList.shared t.spaced_toList)

/-- The codes of `s` that `t` does not have. -/
def diff (s t : CodeSet) : CodeSet :=
  ofSpaced (Interval.carved s.toList t.toList) (s.spaced_toList.carved t.toList)

/-- Whether a code belongs to the set, by binary search. -/
def contains (s : CodeSet) (c : Nat) : Bool := (bisect (·.side c) s.intervals).isSome

/-- Whether `t` is contained in `s`, by one sweep along both. -/
def containsSet (s t : CodeSet) : Bool := Interval.encloses s.toList t.toList

/-- The difference, for a `t` contained in `s`. -/
def sub (s t : CodeSet) : Except Breach CodeSet :=
  if s.containsSet t then .ok (s.diff t) else .error .notContained

/-- The codes up to `last` that are not in `s`. -/
def complement (s : CodeSet) (last : Nat) : CodeSet :=
  (upTo last).diff (s.inter (upTo last))

/-- `complement` by the difference that demands containment. -/
def complement? (s : CodeSet) (last : Nat) : Except Breach CodeSet :=
  (upTo last).sub (s.inter (upTo last))

/-- The number of codes. -/
def size (s : CodeSet) : Nat := s.toList.foldr (·.size + ·) 0

/-- The least code. -/
def first? (s : CodeSet) : Option Nat := s.toList.head?.map (·.lo)

end CodeSet

end ScannerGen
