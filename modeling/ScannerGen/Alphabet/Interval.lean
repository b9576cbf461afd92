import ScannerGen.Failure

/-
  Closed intervals of character codes. A code is a number, not a character: the alphabet may end
  anywhere, also beyond the last Unicode scalar value. No interval is reversed; bounds that come
  from elsewhere are looked at before they make one (`ofBounds`).
-/

namespace ScannerGen

/-- The codes from `lo` to `hi`. -/
structure Interval where
  lo : Nat
  hi : Nat
  lo_le_hi : lo ≤ hi
  deriving DecidableEq, Repr

namespace Interval

/-- The interval with the given ends, unless they are reversed. -/
def ofBounds (lo hi : Nat) : Except Breach Interval :=
  if h : lo ≤ hi then .ok ⟨lo, hi, h⟩ else .error .reversedInterval

/-- One code. -/
def single (c : Nat) : Interval := ⟨c, c, Nat.le_refl c⟩

/-- Whether a code lies in the interval. -/
def contains (iv : Interval) (c : Nat) : Bool := iv.lo ≤ c && c ≤ iv.hi

/-- The number of codes. -/
def size (iv : Interval) : Nat := iv.hi - iv.lo + 1

/-- On which side of the code `c` the interval lies. -/
def side (iv : Interval) (c : Nat) : Ordering :=
  if iv.hi < c then .lt else if c < iv.lo then .gt else .eq

/-- The least interval around two. -/
def hull (a b : Interval) : Interval where
  lo := min a.lo b.lo
  hi := max a.hi b.hi
  lo_le_hi := Nat.le_trans (Nat.min_le_left ..) (Nat.le_trans a.lo_le_hi (Nat.le_max_left ..))

/-- The common part, unless it is empty. -/
def inter? (a b : Interval) : Option Interval :=
  if h : max a.lo b.lo ≤ min a.hi b.hi then some ⟨max a.lo b.lo, min a.hi b.hi, h⟩ else none

/-- The part of an interval before a hole. -/
def before (iv hole : Interval) : List Interval :=
  if h : iv.lo < hole.lo then [⟨iv.lo, hole.lo - 1, Nat.le_sub_one_of_lt h⟩] else []

/-- What the sorted `holes` leave of an interval. -/
def carve (iv : Interval) : List Interval → List Interval
  | [] => [iv]
  | hole :: holes =>
    if hole.hi < iv.lo then iv.carve holes
    else if iv.hi < hole.lo then [iv]
    else
      iv.before hole ++
        if h : hole.hi < iv.hi then carve ⟨hole.hi + 1, iv.hi, h⟩ holes else []

theorem contains_iff {iv : Interval} {c : Nat} : iv.contains c = true ↔ iv.lo ≤ c ∧ c ≤ iv.hi := by
  simp [contains]

theorem side_eq_iff {iv : Interval} {c : Nat} : iv.side c = .eq ↔ iv.contains c = true := by
  unfold side contains
  split
  · simp; omega
  · split <;> simp <;> omega

theorem inter?_bounds {a b iv : Interval} (h : a.inter? b = some iv) :
    a.lo ≤ iv.lo ∧ b.lo ≤ iv.lo ∧ iv.hi ≤ a.hi ∧ iv.hi ≤ b.hi := by
  unfold inter? at h
  split at h
  · rw [Option.some.injEq] at h
    subst h
    simp only
    omega
  · simp at h

theorem mem_before {iv hole b : Interval} (h : b ∈ iv.before hole) :
    b.lo = iv.lo ∧ b.hi + 1 = hole.lo := by
  unfold before at h
  split at h
  · next hlt =>
    rw [List.mem_singleton] at h
    subst h
    exact ⟨rfl, Nat.sub_add_cancel (Nat.zero_lt_of_lt hlt)⟩
  · simp at h

theorem carve_bounds {iv : Interval} {holes : List Interval} :
    ∀ b ∈ iv.carve holes, iv.lo ≤ b.lo ∧ b.hi ≤ iv.hi := by
  induction holes generalizing iv with
  | nil => simp [carve]
  | cons hole holes ih =>
    intro b hb
    unfold carve at hb
    split at hb
    · exact ih b hb
    · split at hb
      · rw [List.mem_singleton] at hb
        subst hb
        exact ⟨Nat.le_refl _, Nat.le_refl _⟩
      · rcases List.mem_append.1 hb with hb | hb
        · have := mem_before hb
          omega
        · split at hb
          · have := hole.lo_le_hi
            obtain ⟨hlo, hhi⟩ := ih b hb
            exact ⟨by simp only at hlo; omega, hhi⟩
          · simp at hb

end Interval

end ScannerGen
