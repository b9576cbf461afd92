import Mathlib.Data.Set.Card
import Mathlib.Order.Interval.Finset.Nat
import ScannerGen.Proofs.Alphabet.Algebra

/-
  Questions about sets of codes. The two searches decide membership and inclusion, and the sizes of
  the intervals add up to the number of members (`encard_members`). Of words there are few enough
  that no count leaves its word (`OfWords.sizeInWords_eq`).
-/

namespace ScannerGen

theorem countSum_eq_ok {m n : Nat} (h : m + n ≤ maxWord) : countSum m n = .ok (m + n) := by
  unfold countSum
  rw [if_pos h]

namespace Interval

/-- The codes of all intervals of a list. -/
def sizeSum (l : List Interval) : Nat := l.foldr (·.size + ·) 0

theorem sizeSum_cons (iv : Interval) (l : List Interval) :
    sizeSum (iv :: l) = iv.size + sizeSum l := rfl

theorem encard_setOf_contains (iv : Interval) :
    {c | iv.lo ≤ c ∧ c ≤ iv.hi}.encard = iv.size := by
  have hset : {c | iv.lo ≤ c ∧ c ≤ iv.hi} = ↑(Finset.Icc iv.lo iv.hi) := by
    ext c
    rw [Finset.mem_coe, Finset.mem_Icc]
    rfl
  have hcard : (Finset.Icc iv.lo iv.hi).card = iv.size := by
    have := iv.lo_le_hi
    rw [Nat.card_Icc, size]
    omega
  rw [hset, Set.encard_coe_eq_coe_finsetCard, hcard]

/-- The intervals of a sorted list with gaps have no code in common. -/
theorem Spaced.encard_setOf_covers {l : List Interval} (h : Spaced l) :
    {c | Covers l c}.encard = sizeSum l := by
  induction l with
  | nil => simp [sizeSum]
  | cons iv l ih =>
    have hunion : {c | Covers (iv :: l) c} = {c | iv.lo ≤ c ∧ c ≤ iv.hi} ∪ {c | Covers l c} := by
      ext c
      exact covers_cons
    have hdisjoint : Disjoint {c | iv.lo ≤ c ∧ c ≤ iv.hi} {c | Covers l c} := by
      rw [Set.disjoint_left]
      intro c hc hrest
      have hgap : iv.hi + 1 < c := h.lt_of_covers_tail hrest
      exact absurd hc.2 (by omega)
    rw [hunion, Set.encard_union_eq hdisjoint, encard_setOf_contains iv, ih h.tail,
      sizeSum_cons, Nat.cast_add]

theorem IsWord.sizeInWords_eq {iv : Interval} (h : iv.IsWord) : iv.sizeInWords = .ok iv.size := by
  have hdistance : wordDistance iv.lo iv.hi = .ok (iv.hi - iv.lo) := if_pos iv.lo_le_hi
  have hword : iv.hi - iv.lo + 1 ≤ maxWord := by
    unfold IsWord lastWord at h
    unfold maxWord
    omega
  unfold sizeInWords
  rw [hdistance]
  exact countSum_eq_ok hword

/-- Counting on from `n` stays within words if the end of the count is a word. -/
theorem foldlM_sizeInWords {l : List Interval} {n : Nat} (hl : ∀ iv ∈ l, iv.IsWord)
    (hn : n + sizeSum l ≤ maxWord) :
    l.foldlM (fun n iv => do countSum n (← iv.sizeInWords)) n = .ok (n + sizeSum l) := by
  induction l generalizing n with
  | nil => rfl
  | cons iv l ih =>
    obtain ⟨hiv, hl⟩ := List.forall_mem_cons.1 hl
    rw [sizeSum_cons, ← Nat.add_assoc] at hn
    have hstep : countSum n iv.size = .ok (n + iv.size) := countSum_eq_ok (by omega)
    rw [List.foldlM_cons, hiv.sizeInWords_eq]
    show (countSum n iv.size >>= _) = _
    rw [hstep, sizeSum_cons, ← Nat.add_assoc]
    exact ih hl hn

end Interval

namespace CodeSet

variable {s t : CodeSet} {c : Nat}

theorem encard_members (s : CodeSet) : {c | c ∈ s}.encard = s.size := by
  simp only [mem_iff_covers]
  exact Interval.Spaced.encard_setOf_covers s.spaced_toList

/-- There are no more words than that. -/
theorem OfWords.size_le (hs : s.OfWords) : s.size ≤ lastWord + 1 := by
  have hsub : {c | c ∈ s} ⊆ {c | 0 ≤ c ∧ c ≤ lastWord} := fun c hc =>
    ⟨Nat.zero_le c, hs c hc⟩
  have hle := Set.encard_le_encard hsub
  rw [encard_members, Interval.encard_setOf_contains ⟨0, lastWord, Nat.zero_le _⟩] at hle
  exact_mod_cast hle

theorem OfWords.sizeInWords_eq (hs : s.OfWords) : s.sizeInWords = .ok s.size := by
  have hbound : 0 + Interval.sizeSum s.toList ≤ maxWord := by
    have := hs.size_le
    rw [Nat.zero_add]
    exact Nat.le_trans this (by decide)
  unfold sizeInWords
  rw [Interval.foldlM_sizeInWords hs.isWord hbound, Nat.zero_add]
  rfl

/-- The binary search finds a code exactly if an interval contains it, the sweep along two sets
decides inclusion, and the size is the number of members. Of words there are at most `lastWord + 1`,
so that the count never leaves its word. -/
theorem queries_are_exact (s t : CodeSet) (c : Nat) :
    (s.contains c = true ↔ ∃ iv ∈ s.toList, iv.lo ≤ c ∧ c ≤ iv.hi) ∧
      (s.containsSet t = true ↔ ∀ d, d ∈ t → d ∈ s) ∧
      {d | d ∈ s}.encard = s.size ∧
      ((∀ d ∈ s, d ≤ lastWord) → s.size ≤ lastWord + 1 ∧ s.sizeInWords = .ok s.size) := by
  refine ⟨contains_iff.trans mem_iff_covers, containsSet_iff, encard_members s, fun hwords => ?_⟩
  have hs : s.OfWords := hwords
  exact ⟨hs.size_le, hs.sizeInWords_eq⟩

/-- Gaps of one code, and the last word. -/
def gapped : CodeSet :=
  ofSpaced [⟨0, 9, by decide⟩, ⟨11, 20, by decide⟩, .single 22, .single lastWord] (by decide)

theorem queries_are_exact_gapped :
    gapped.contains 22 = true ∧ gapped.contains 21 = false ∧
      (∀ d, d ∈ ofList [.single 22, ⟨11, 15, by decide⟩, ⟨3, 9, by decide⟩] → d ∈ gapped) ∧
      ¬(∀ d, d ∈ ofInterval ⟨9, 11, by decide⟩ → d ∈ gapped) ∧
      {d | d ∈ gapped}.encard = (22 : Nat) ∧
      (upTo lastWord).sizeInWords = .ok 0x100000000 := by
  have hexact := queries_are_exact gapped
  refine ⟨?_, ?_, ?_, fun h => ?_, (hexact ∅ 0).2.2.1, ?_⟩
  · exact (hexact ∅ 22).1.2 ⟨.single 22, by decide, by decide, by decide⟩
  · rw [← Bool.not_eq_true, (hexact ∅ 21).1]
    decide
  · exact (hexact _ 0).2.1.1 (by decide)
  · exact absurd ((hexact _ 0).2.1.2 h) (by decide)
  · exact ((queries_are_exact (upTo lastWord) ∅ 0).2.2.2 fun d hd => mem_upTo.1 hd).2

/-- Intervals that touch do not count as one: the sweep compares with single intervals. -/
example : Interval.encloses [⟨0, 3, by decide⟩, ⟨4, 6, by decide⟩] [⟨2, 5, by decide⟩] = false := by
  decide

end CodeSet

end ScannerGen
