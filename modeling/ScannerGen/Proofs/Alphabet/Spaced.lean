import Mathlib.Data.List.Pairwise
import Mathlib.Tactic.Tauto
import ScannerGen.Alphabet.Spaced
import ScannerGen.Proofs.Sorted

/-
  What lists of intervals cover. A list with gaps between neighbours is determined by the codes that
  it covers (`Spaced.ext`). The sweeps unite, meet and part what their lists cover, one decides
  inclusion (`encloses_iff`), and the search by halves finds the interval of a code
  (`bisect_isSome`).
-/

namespace ScannerGen

namespace Interval

/-- Some interval of the list contains `c`. -/
def Covers (l : List Interval) (c : Nat) : Prop := ∃ iv ∈ l, iv.lo ≤ c ∧ c ≤ iv.hi

variable {iv cur : Interval} {l m : List Interval} {c : Nat}

@[simp] theorem not_covers_nil (c : Nat) : ¬Covers [] c := by simp [Covers]

theorem covers_cons : Covers (iv :: l) c ↔ (iv.lo ≤ c ∧ c ≤ iv.hi) ∨ Covers l c := by
  simp [Covers]

theorem covers_append : Covers (l ++ m) c ↔ Covers l c ∨ Covers m c := by
  simp only [Covers, List.mem_append, or_and_right, exists_or]

theorem covers_singleton : Covers [iv] c ↔ iv.lo ≤ c ∧ c ≤ iv.hi := by
  simp [Covers]

theorem covers_head (iv : Interval) (l : List Interval) : Covers (iv :: l) iv.lo :=
  covers_cons.2 (.inl ⟨Nat.le_refl _, iv.lo_le_hi⟩)

theorem Spaced.lt_of_covers_tail (h : Spaced (iv :: l)) (hc : Covers l c) : iv.hi + 1 < c := by
  obtain ⟨b, hb, hlo, -⟩ := hc
  have := (spaced_cons.1 h).1 b hb
  omega

theorem Spaced.lo_le_of_covers (h : Spaced (iv :: l)) (hc : Covers (iv :: l) c) : iv.lo ≤ c := by
  have := iv.lo_le_hi
  rcases covers_cons.1 hc with hc | hc
  · exact hc.1
  · have := h.lt_of_covers_tail hc
    omega

theorem Spaced.covers_tail_iff (h : Spaced (iv :: l)) :
    Covers l c ↔ Covers (iv :: l) c ∧ iv.hi < c := by
  constructor
  · intro hc
    exact ⟨covers_cons.2 (.inr hc), Nat.lt_of_succ_lt (h.lt_of_covers_tail hc)⟩
  · rintro ⟨hc, hlt⟩
    rcases covers_cons.1 hc with hc | hc
    · omega
    · exact hc

/-- An interval without a gap, of which the first interval does not end before the start, lies in
it: the code behind it belongs to no interval. -/
theorem Spaced.within_head (h : Spaced (cur :: l)) (hlo : iv.lo ≤ cur.hi)
    (hc : ∀ c, iv.lo ≤ c → c ≤ iv.hi → Covers (cur :: l) c) : cur.lo ≤ iv.lo ∧ iv.hi ≤ cur.hi := by
  refine ⟨h.lo_le_of_covers (hc iv.lo (Nat.le_refl _) iv.lo_le_hi),
    Nat.le_of_not_lt fun hlt => ?_⟩
  rcases covers_cons.1 (hc (cur.hi + 1) (by omega) hlt) with hc | hc
  · omega
  · exact absurd (h.lt_of_covers_tail hc) (Nat.lt_irrefl _)

theorem Spaced.mem_dropWhile (h : Spaced l) {a : Nat} :
    iv ∈ l.dropWhile (·.hi < a) ↔ iv ∈ l ∧ a ≤ iv.hi := by
  induction l with
  | nil => simp
  | cons cur l ih =>
    obtain ⟨hcur, hl⟩ := spaced_cons.1 h
    rw [List.dropWhile_cons]
    split
    · next hlt =>
      rw [decide_eq_true_eq] at hlt
      rw [ih hl, List.mem_cons]
      constructor
      · exact fun h => ⟨.inr h.1, h.2⟩
      · rintro ⟨rfl | h, ha⟩
        · omega
        · exact ⟨h, ha⟩
    · next hlt =>
      rw [decide_eq_true_eq] at hlt
      rw [List.mem_cons]
      refine ⟨fun hm => ⟨hm, ?_⟩, fun h => h.1⟩
      rcases hm with rfl | hm
      · omega
      · have := hcur iv hm
        have := iv.lo_le_hi
        omega

theorem Spaced.mem_takeWhile (h : Spaced l) {b : Nat} :
    iv ∈ l.takeWhile (·.lo ≤ b) ↔ iv ∈ l ∧ iv.lo ≤ b := by
  induction l with
  | nil => simp
  | cons cur l ih =>
    obtain ⟨hcur, hl⟩ := spaced_cons.1 h
    rw [List.takeWhile_cons]
    split
    · next hle =>
      rw [decide_eq_true_eq] at hle
      rw [List.mem_cons, ih hl, List.mem_cons]
      constructor
      · rintro (rfl | h)
        · exact ⟨.inl rfl, hle⟩
        · exact ⟨.inr h.1, h.2⟩
      · rintro ⟨rfl | h, hb⟩
        · exact .inl rfl
        · exact .inr ⟨h, hb⟩
    · next hle =>
      rw [decide_eq_true_eq] at hle
      rw [List.mem_cons]
      refine ⟨fun h => absurd h (List.not_mem_nil), ?_⟩
      rintro ⟨rfl | hm, hb⟩
      · omega
      · have := hcur iv hm
        have := cur.lo_le_hi
        omega

/-- Codes from `a` on are covered by the intervals that do not end before `a`. -/
theorem Spaced.covers_dropWhile (h : Spaced l) {a : Nat} (hc : a ≤ c) :
    Covers (l.dropWhile (·.hi < a)) c ↔ Covers l c := by
  unfold Covers
  constructor
  · intro ⟨iv, hiv, hle⟩
    exact ⟨iv, (h.mem_dropWhile.1 hiv).1, hle⟩
  · intro ⟨iv, hiv, hle⟩
    exact ⟨iv, h.mem_dropWhile.2 ⟨hiv, by omega⟩, hle⟩

/-- Codes up to `b` are covered by the intervals that begin by then. -/
theorem Spaced.covers_takeWhile (h : Spaced l) {b : Nat} (hc : c ≤ b) :
    Covers (l.takeWhile (·.lo ≤ b)) c ↔ Covers l c := by
  unfold Covers
  constructor
  · intro ⟨iv, hiv, hle⟩
    exact ⟨iv, (h.mem_takeWhile.1 hiv).1, hle⟩
  · intro ⟨iv, hiv, hle⟩
    exact ⟨iv, h.mem_takeWhile.2 ⟨hiv, by omega⟩, hle⟩

/-- A spaced list is determined by the codes that it covers. -/
theorem Spaced.ext (hl : Spaced l) (hm : Spaced m) (h : ∀ c, Covers l c ↔ Covers m c) : l = m := by
  induction l generalizing m with
  | nil =>
    cases m with
    | nil => rfl
    | cons b m => exact absurd ((h b.lo).2 (covers_head b m)) (not_covers_nil _)
  | cons a l ih =>
    have ha := (h a.lo).1 (covers_head a l)
    cases m with
    | nil => exact absurd ha (not_covers_nil _)
    | cons b m =>
      have hb := (h b.lo).2 (covers_head b m)
      have hlo : a.lo = b.lo := Nat.le_antisymm (hl.lo_le_of_covers hb) (hm.lo_le_of_covers ha)
      have hab : a.hi ≤ b.hi := by
        refine (hm.within_head (hlo ▸ b.lo_le_hi) fun c h₁ h₂ => (h c).1 ?_).2
        exact covers_cons.2 (.inl ⟨h₁, h₂⟩)
      have hba : b.hi ≤ a.hi := by
        refine (hl.within_head (hlo ▸ a.lo_le_hi) fun c h₁ h₂ => (h c).2 ?_).2
        exact covers_cons.2 (.inl ⟨h₁, h₂⟩)
      have hhi := Nat.le_antisymm hab hba
      have hrest : l = m := by
        refine ih hl.tail hm.tail fun c => ?_
        rw [hl.covers_tail_iff, hm.covers_tail_iff, h c, hhi]
      obtain ⟨alo, ahi, _⟩ := a
      obtain ⟨blo, bhi, _⟩ := b
      obtain rfl : alo = blo := hlo
      obtain rfl : ahi = bhi := hhi
      rw [hrest]

/-! ## What the sweeps cover -/

theorem covers_place : Covers (iv.place l) c ↔ (iv.lo ≤ c ∧ c ≤ iv.hi) ∨ Covers l c := by
  induction l generalizing iv with
  | nil => exact covers_cons
  | cons cur rest ih =>
    unfold place
    rw [covers_cons]
    split
    · rw [covers_cons, ih]
      tauto
    · split
      · rw [covers_cons, covers_cons]
      · -- the two intervals have no gap between them
        have hunion : ((iv.hull cur).lo ≤ c ∧ c ≤ (iv.hull cur).hi) ↔
            (iv.lo ≤ c ∧ c ≤ iv.hi) ∨ (cur.lo ≤ c ∧ c ≤ cur.hi) := by
          have := iv.lo_le_hi
          have := cur.lo_le_hi
          unfold hull
          simp only
          omega
        rw [ih, ← or_assoc]
        exact or_congr_left hunion

theorem covers_filterMap_inter? :
    Covers (l.filterMap iv.inter?) c ↔ (iv.lo ≤ c ∧ c ≤ iv.hi) ∧ Covers l c := by
  induction l with
  | nil => simp
  | cons cur l ih =>
    rw [List.filterMap_cons, Interval.inter?, covers_cons]
    split
    · next h =>
      split at h
      · simp at h
      · rw [ih]
        constructor
        · exact fun h => ⟨h.1, .inr h.2⟩
        · rintro ⟨h, h' | h'⟩
          · omega
          · exact ⟨h, h'⟩
    · next common h =>
      split at h
      · rw [Option.some.injEq] at h
        subst h
        rw [covers_cons, ih]
        have hcommon : (max iv.lo cur.lo ≤ c ∧ c ≤ min iv.hi cur.hi) ↔
            (iv.lo ≤ c ∧ c ≤ iv.hi) ∧ (cur.lo ≤ c ∧ c ≤ cur.hi) := by omega
        simp only
        rw [hcommon]
        tauto
      · simp at h

theorem covers_shared (hl : Spaced l) (hm : Spaced m) :
    Covers (shared l m) c ↔ Covers l c ∧ Covers m c := by
  induction l generalizing m with
  | nil => simp [shared]
  | cons iv rest ih =>
    have hd := hm.dropWhile (·.hi < iv.lo)
    have hdrop := hm.covers_dropWhile (a := iv.lo) (c := c)
    have hhere : (iv.lo ≤ c ∧ c ≤ iv.hi) ∧
        Covers ((m.dropWhile (·.hi < iv.lo)).takeWhile (·.lo ≤ iv.hi)) c ↔
          (iv.lo ≤ c ∧ c ≤ iv.hi) ∧ Covers m c := by
      apply and_congr_right
      intro hc
      rw [hd.covers_takeWhile hc.2, hdrop hc.1]
    have hlater : Covers rest c ∧ Covers (m.dropWhile (·.hi < iv.lo)) c ↔
        Covers rest c ∧ Covers m c :=
      and_congr_right fun hc => hdrop (hl.lo_le_of_covers (covers_cons.2 (.inr hc)))
    simp only [shared]
    rw [covers_append, covers_filterMap_inter?, ih hl.tail hd, hhere, hlater, covers_cons,
      or_and_right]

theorem covers_before {hole : Interval} :
    Covers (iv.before hole) c ↔ iv.lo ≤ c ∧ c < hole.lo := by
  unfold before
  split
  · rw [covers_singleton]
    simp only
    omega
  · simp only [not_covers_nil, false_iff]
    omega

theorem covers_carve {holes : List Interval} (hh : Spaced holes) :
    Covers (iv.carve holes) c ↔ (iv.lo ≤ c ∧ c ≤ iv.hi) ∧ ¬Covers holes c := by
  induction holes generalizing iv with
  | nil => simp [carve, Covers]
  | cons hole holes ih =>
    have htail : Covers holes c → hole.hi + 1 < c := hh.lt_of_covers_tail
    have := hole.lo_le_hi
    have hafter :
        Covers (if h : hole.hi < iv.hi then carve ⟨hole.hi + 1, iv.hi, h⟩ holes else []) c ↔
          (hole.hi < c ∧ c ≤ iv.hi) ∧ ¬Covers holes c := by
      split
      · rw [ih hh.tail, Nat.succ_le_iff]
      · simp only [not_covers_nil, false_iff]
        omega
    unfold carve
    rw [covers_cons]
    split
    · -- the hole lies before the interval
      rw [ih hh.tail, not_or]
      refine and_congr_right fun hc => (and_iff_right ?_).symm
      omega
    · split
      · -- all holes lie behind the interval
        rw [covers_singleton]
        refine (and_iff_left_of_imp fun hc => ?_).symm
        rintro (h | h)
        · omega
        · have := htail h
          omega
      · rw [covers_append, covers_before, hafter]
        by_cases hc : Covers holes c
        · have := htail hc
          simp only [hc, not_true, and_false, or_true, or_false, iff_false]
          omega
        · simp only [hc, not_false_eq_true, and_true, or_false]
          omega

theorem covers_carved (hl : Spaced l) (hm : Spaced m) :
    Covers (carved l m) c ↔ Covers l c ∧ ¬Covers m c := by
  induction l generalizing m with
  | nil => simp [carved]
  | cons iv rest ih =>
    have hd := hm.dropWhile (·.hi < iv.lo)
    have hdrop := hm.covers_dropWhile (a := iv.lo) (c := c)
    have hhere : (iv.lo ≤ c ∧ c ≤ iv.hi) ∧ ¬Covers (m.dropWhile (·.hi < iv.lo)) c ↔
        (iv.lo ≤ c ∧ c ≤ iv.hi) ∧ ¬Covers m c :=
      and_congr_right fun hc => not_congr (hdrop hc.1)
    have hlater : Covers rest c ∧ ¬Covers (m.dropWhile (·.hi < iv.lo)) c ↔
        Covers rest c ∧ ¬Covers m c :=
      and_congr_right fun hc => not_congr (hdrop (hl.lo_le_of_covers (covers_cons.2 (.inr hc))))
    simp only [carved]
    rw [covers_append, covers_carve hd, ih hl.tail hd, hhere, hlater, covers_cons, or_and_right]

theorem encloses_iff (hl : Spaced l) (hm : Spaced m) :
    encloses l m = true ↔ ∀ c, Covers m c → Covers l c := by
  induction m generalizing l with
  | nil => simp [encloses]
  | cons iv rest ih =>
    have hd := hl.dropWhile (·.hi < iv.lo)
    have hdrop : (∀ c, Covers (iv :: rest) c → Covers l c) ↔
        ∀ c, Covers (iv :: rest) c → Covers (l.dropWhile (·.hi < iv.lo)) c :=
      forall_congr' fun c => imp_congr_right fun hc =>
        (hl.covers_dropWhile (hm.lo_le_of_covers hc)).symm
    have hfirst : ∀ b ∈ l.dropWhile (·.hi < iv.lo), iv.lo ≤ b.hi := fun b hb =>
      (hl.mem_dropWhile.1 hb).2
    rw [hdrop, encloses]
    generalize l.dropWhile (·.hi < iv.lo) = outer at hd hfirst
    cases outer with
    | nil =>
      simp only [Bool.false_eq_true, false_iff]
      exact fun h => not_covers_nil _ (h iv.lo (covers_head iv rest))
    | cons cur outer =>
      have hcur := hfirst cur (List.mem_cons_self ..)
      simp only [Bool.and_eq_true, decide_eq_true_eq, ih hd hm.tail]
      constructor
      · rintro ⟨⟨hlo, hhi⟩, hrest⟩ c hc
        rcases covers_cons.1 hc with hc | hc
        · exact covers_cons.2 (.inl (by omega))
        · exact hrest c hc
      · intro h
        refine ⟨hd.within_head hcur fun c hlo hhi => ?_, fun c hc => ?_⟩
        · exact h c (covers_cons.2 (.inl ⟨hlo, hhi⟩))
        · exact h c (covers_cons.2 (.inr hc))

/-! ## The side of a code -/

theorem side_eq_lt {iv : Interval} {c : Nat} : iv.side c = .lt ↔ iv.hi < c := by
  unfold side
  split
  · simp only [true_iff]
    assumption
  · split <;> simp <;> omega

theorem side_eq_gt {iv : Interval} {c : Nat} : iv.side c = .gt ↔ c < iv.lo ∧ c ≤ iv.hi := by
  unfold side
  split
  · simp only [reduceCtorEq, false_iff]
    omega
  · split
    · simp only [true_iff]
      omega
    · simp only [reduceCtorEq, false_iff]
      omega

/-- Among spaced intervals the search finds the one that contains a code. -/
theorem bisect_isSome {α : Type} {f : α → Interval} {xs : Array α} {c : Nat}
    (h : (xs.toList.map f).Pairwise fun a b => a.hi < b.lo)
    {x : α} (hx : x ∈ xs) (hc : (f x).contains c = true) :
    (bisect (fun x => (f x).side c) xs).isSome := by
  rw [List.pairwise_map] at h
  obtain ⟨i, hi⟩ := Array.mem_iff_getElem?.1 hx
  refine bisectFrom_isSome ?_ ?_ (by omega) (Nat.le_refl _) (Nat.zero_le i)
    (Array.getElem?_eq_some_iff.1 hi).1 hi (side_eq_iff.2 hc)
  · intro i j x y hij hx hy
    have := rel_of_pairwise h hij hx hy
    have := (f y).lo_le_hi
    rw [side_eq_lt, side_eq_lt]
    omega
  · intro i j x y hij hx hy
    have := rel_of_pairwise h hij hx hy
    have := (f y).lo_le_hi
    rw [side_eq_gt, side_eq_gt]
    omega

end Interval

end ScannerGen
