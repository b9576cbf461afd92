import ScannerGen.Alphabet.Interval

/-
  Sorted lists of intervals with a gap of at least one code between neighbours, so that the same
  codes have one list only. The operations on them are sweeps from left to right; what they make of
  such lists is such a list.
-/

namespace ScannerGen

namespace Interval

/-- The intervals are in order, and neighbours have a gap between them. -/
def Spaced (l : List Interval) : Prop := l.Pairwise fun a b => a.hi + 1 < b.lo

instance (l : List Interval) : Decidable (Spaced l) :=
  inferInstanceAs (Decidable (List.Pairwise _ l))

/-- Merges `iv` with every interval that it overlaps or touches. -/
def place (iv : Interval) : List Interval → List Interval
  | [] => [iv]
  | cur :: rest =>
    if cur.hi + 1 < iv.lo then cur :: place iv rest
    else if iv.hi + 1 < cur.lo then iv :: cur :: rest
    else place (iv.hull cur) rest

/-- What two sorted lists have in common. -/
def shared : List Interval → List Interval → List Interval
  | [], _ => []
  | iv :: rest, others =>
    let others := others.dropWhile (·.hi < iv.lo)
    (others.takeWhile (·.lo ≤ iv.hi)).filterMap iv.inter? ++ shared rest others

/-- What the sorted `holes` leave of a sorted list. -/
def carved : List Interval → List Interval → List Interval
  | [], _ => []
  | iv :: rest, holes =>
    let holes := holes.dropWhile (·.hi < iv.lo)
    iv.carve holes ++ carved rest holes

/-- Each interval of the second list lies in one of the first; both are swept once. -/
def encloses : List Interval → List Interval → Bool
  | _, [] => true
  | outer, iv :: rest =>
    match outer.dropWhile (·.hi < iv.lo) with
    | [] => false
    | cur :: outer => cur.lo ≤ iv.lo && iv.hi ≤ cur.hi && encloses (cur :: outer) rest

variable {iv : Interval} {l m : List Interval}

theorem spaced_nil : Spaced [] := List.Pairwise.nil

theorem spaced_singleton (iv : Interval) : Spaced [iv] := List.pairwise_singleton _ iv

theorem spaced_cons : Spaced (iv :: l) ↔ (∀ b ∈ l, iv.hi + 1 < b.lo) ∧ Spaced l :=
  List.pairwise_cons

theorem spaced_append :
    Spaced (l ++ m) ↔ Spaced l ∧ Spaced m ∧ ∀ a ∈ l, ∀ b ∈ m, a.hi + 1 < b.lo :=
  List.pairwise_append

theorem Spaced.tail (h : Spaced (iv :: l)) : Spaced l := (spaced_cons.1 h).2

theorem Spaced.dropWhile (h : Spaced l) (p : Interval → Bool) : Spaced (l.dropWhile p) :=
  h.sublist (List.dropWhile_sublist p)

theorem Spaced.takeWhile (h : Spaced l) (p : Interval → Bool) : Spaced (l.takeWhile p) :=
  h.sublist (List.takeWhile_sublist p)

/-! ## Insertion -/

theorem place_lo {n : Nat} (hiv : n ≤ iv.lo) (hl : ∀ b ∈ l, n ≤ b.lo) :
    ∀ b ∈ place iv l, n ≤ b.lo := by
  induction l generalizing iv with
  | nil => simpa [place] using hiv
  | cons cur rest ih =>
    obtain ⟨hcur, hrest⟩ := List.forall_mem_cons.1 hl
    unfold place
    split
    · exact List.forall_mem_cons.2 ⟨hcur, ih hiv hrest⟩
    · split
      · exact List.forall_mem_cons.2 ⟨hiv, hl⟩
      · exact ih (Nat.le_min.2 ⟨hiv, hcur⟩) hrest

theorem Spaced.place (hl : Spaced l) (iv : Interval) : Spaced (iv.place l) := by
  induction l generalizing iv with
  | nil => exact spaced_singleton iv
  | cons cur rest ih =>
    obtain ⟨hcur, hrest⟩ := spaced_cons.1 hl
    unfold Interval.place
    split
    · next h => exact spaced_cons.2 ⟨place_lo h hcur, ih hrest iv⟩
    · split
      · next h =>
        refine spaced_cons.2 ⟨List.forall_mem_cons.2 ⟨h, fun b hb => ?_⟩, hl⟩
        have := hcur b hb
        have := cur.lo_le_hi
        omega
      · exact ih hrest _

/-! ## Intersection -/

theorem shared_bounds : ∀ iv ∈ shared l m, ∃ b ∈ l, b.lo ≤ iv.lo ∧ iv.hi ≤ b.hi := by
  induction l generalizing m with
  | nil => simp [shared]
  | cons cur rest ih =>
    intro iv hiv
    simp only [shared, List.mem_append] at hiv
    rcases hiv with hiv | hiv
    · obtain ⟨b, -, hb⟩ := List.mem_filterMap.1 hiv
      have := inter?_bounds hb
      exact ⟨cur, List.mem_cons_self .., by omega, by omega⟩
    · obtain ⟨b, hb, hbounds⟩ := ih iv hiv
      exact ⟨b, List.mem_cons_of_mem _ hb, hbounds⟩

/-- The parts of intervals with gaps between them have gaps between them. -/
theorem Spaced.filterMap_inter? (h : Spaced l) (iv : Interval) :
    Spaced (l.filterMap iv.inter?) := by
  unfold Spaced
  rw [List.pairwise_filterMap]
  apply h.imp
  intro a b hab x hx y hy
  have := inter?_bounds hx
  have := inter?_bounds hy
  omega

theorem Spaced.shared (hl : Spaced l) (hm : Spaced m) : Spaced (shared l m) := by
  induction l generalizing m with
  | nil => exact spaced_nil
  | cons cur rest ih =>
    obtain ⟨hcur, hrest⟩ := spaced_cons.1 hl
    have hd := hm.dropWhile (·.hi < cur.lo)
    refine spaced_append.2 ⟨(hd.takeWhile _).filterMap_inter? cur, ih hrest hd, ?_⟩
    intro a ha b hb
    obtain ⟨x, -, hx⟩ := List.mem_filterMap.1 ha
    obtain ⟨y, hy, hbounds⟩ := shared_bounds b hb
    have := inter?_bounds hx
    have := hcur y hy
    omega

/-! ## Difference -/

theorem spaced_before (iv hole : Interval) : Spaced (iv.before hole) := by
  unfold before
  split
  · exact spaced_singleton _
  · exact spaced_nil

theorem spaced_carve (iv : Interval) (holes : List Interval) : Spaced (iv.carve holes) := by
  induction holes generalizing iv with
  | nil => exact spaced_singleton iv
  | cons hole holes ih =>
    unfold carve
    split
    · exact ih iv
    · split
      · exact spaced_singleton iv
      · refine spaced_append.2 ⟨spaced_before iv hole, ?_, fun a ha b hb => ?_⟩
        · split
          · exact ih _
          · exact spaced_nil
        · have := mem_before ha
          have := hole.lo_le_hi
          split at hb
          · have hlo := (carve_bounds b hb).1
            simp only at hlo
            omega
          · simp at hb

theorem carved_bounds : ∀ iv ∈ carved l m, ∃ b ∈ l, b.lo ≤ iv.lo := by
  induction l generalizing m with
  | nil => simp [carved]
  | cons cur rest ih =>
    intro iv hiv
    simp only [carved, List.mem_append] at hiv
    rcases hiv with hiv | hiv
    · exact ⟨cur, List.mem_cons_self .., (carve_bounds iv hiv).1⟩
    · obtain ⟨b, hb, hle⟩ := ih iv hiv
      exact ⟨b, List.mem_cons_of_mem _ hb, hle⟩

theorem Spaced.carved (hl : Spaced l) (m : List Interval) : Spaced (carved l m) := by
  induction l generalizing m with
  | nil => exact spaced_nil
  | cons cur rest ih =>
    obtain ⟨hcur, hrest⟩ := spaced_cons.1 hl
    refine spaced_append.2 ⟨spaced_carve .., ih hrest _, fun a ha b hb => ?_⟩
    obtain ⟨x, hx, hle⟩ := carved_bounds b hb
    have := carve_bounds a ha
    have := hcur x hx
    omega

end Interval

end ScannerGen
