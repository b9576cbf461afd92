import ScannerGen.Alphabet.CodeSet
import ScannerGen.Failure

/-
  The arithmetic of sets whose codes are words of 32 bits. The part of an interval before a hole
  ends one code before it, and the part behind a hole begins one code behind it; both codes have to
  be words. No bounds that an interval is made of may be reversed, which is looked at every time.
  Whether intervals touch is asked of a sum that is clipped, which is a word in any case. Codes are
  counted in words of 64 bits.
-/

namespace ScannerGen

/-- A sum of counts. -/
def countSum (m n : Nat) : Except Breach Nat :=
  if m + n ≤ maxWord then .ok (m + n) else .error .beyondCapacity

namespace Interval

/-- The code before `c`. -/
def wordBefore (c : Nat) : Except Breach Nat :=
  if 0 < c then .ok (c - 1) else .error .beyondCapacity

/-- The code behind `c`. -/
def wordAfter (c : Nat) : Except Breach Nat :=
  if c < lastWord then .ok (c + 1) else .error .beyondCapacity

/-- The next code, or the last one again. -/
def clippedAfter (c : Nat) : Nat := min (c + 1) lastWord

/-- How far `b` is behind `a`. -/
def wordDistance (a b : Nat) : Except Breach Nat :=
  if a ≤ b then .ok (b - a) else .error .beyondCapacity

/-- `size` in words. -/
def sizeInWords (iv : Interval) : Except Breach Nat := do
  countSum (← wordDistance iv.lo iv.hi) 1

/-- The codes from `lo` on that come before `hole`. -/
def partBefore (lo : Nat) (hole : Interval) : Except Breach (List Interval) :=
  if lo < hole.lo then do pure [← ofBounds lo (← wordBefore hole.lo)] else pure []

/-- `carve` in words, for the interval from `lo` to `hi`. -/
def carveInWords (lo hi : Nat) : List Interval → Except Breach (List Interval)
  | [] => do pure [← ofBounds lo hi]
  | hole :: holes =>
    if hole.hi < lo then carveInWords lo hi holes
    else if hi < hole.lo then do pure [← ofBounds lo hi]
    else do
      let left ← partBefore lo hole
      if hi ≤ hole.hi then pure left
      else do
        let right ← carveInWords (← wordAfter hole.hi) hi holes
        pure (left ++ right)

/-- `carved` in words. -/
def carvedInWords : List Interval → List Interval → Except Breach (List Interval)
  | [], _ => pure []
  | iv :: rest, holes => do
    let holes := holes.dropWhile (·.hi < iv.lo)
    let here ← carveInWords iv.lo iv.hi holes
    let later ← carvedInWords rest holes
    pure (here ++ later)

/-- The codes that two intervals have in common. -/
def meetInWords (a b : Interval) : Except Breach (List Interval) :=
  if max a.lo b.lo ≤ min a.hi b.hi then
    do pure [← ofBounds (max a.lo b.lo) (min a.hi b.hi)]
  else pure []

/-- The parts that the intervals of a list have in common with `iv`. -/
def commonInWords (iv : Interval) : List Interval → Except Breach (List Interval)
  | [] => pure []
  | cur :: rest => do
    let here ← iv.meetInWords cur
    let later ← iv.commonInWords rest
    pure (here ++ later)

/-- `shared` in words. -/
def sharedInWords : List Interval → List Interval → Except Breach (List Interval)
  | [], _ => pure []
  | iv :: rest, others => do
    let others := others.dropWhile (·.hi < iv.lo)
    let here ← iv.commonInWords (others.takeWhile (·.lo ≤ iv.hi))
    let later ← sharedInWords rest others
    pure (here ++ later)

/-- `place` in words. -/
def placeInWords (iv : Interval) : List Interval → List Interval
  | [] => [iv]
  | cur :: rest =>
    if clippedAfter cur.hi < iv.lo then cur :: placeInWords iv rest
    else if clippedAfter iv.hi < cur.lo then iv :: cur :: rest
    else placeInWords (iv.hull cur) rest

/-- The difference in words, for lists of which the first encloses the second. -/
def subInWords (l m : List Interval) : Except Breach (List Interval) :=
  if encloses l m then carvedInWords l m else .error .notContained

/-- The complement in words. -/
def complementInWords (l : List Interval) (last : Nat) : Except Breach (List Interval) := do
  let all := [← ofBounds 0 last]
  subInWords all (← sharedInWords l all)

end Interval

namespace CodeSet

/-- The intervals of `insert`, found in words. -/
def insertInWords (s : CodeSet) (iv : Interval) : List Interval := iv.placeInWords s.toList

/-- The intervals of `inter`, found in words. -/
def interInWords (s t : CodeSet) : Except Breach (List Interval) :=
  Interval.sharedInWords s.toList t.toList

/-- The intervals of `sub`, found in words. -/
def subInWords (s t : CodeSet) : Except Breach (List Interval) :=
  Interval.subInWords s.toList t.toList

/-- The intervals of `complement`, found in words. -/
def complementInWords (s : CodeSet) (last : Nat) : Except Breach (List Interval) :=
  Interval.complementInWords s.toList last

/-- `size` in words, interval by interval. -/
def sizeInWords (s : CodeSet) : Except Breach Nat :=
  s.toList.foldlM (fun n iv => do countSum n (← iv.sizeInWords)) 0

end CodeSet

end ScannerGen
