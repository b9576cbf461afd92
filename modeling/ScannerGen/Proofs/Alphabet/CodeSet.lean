import ScannerGen.Alphabet.Caseless
import ScannerGen.Proofs.Alphabet.Spaced

/-
  Sets of codes. The members of what an operation gives are those that its name says. A set is
  determined by its members (`ext`), and the two searches decide membership (`contains_iff`) and
  inclusion (`containsSet_iff`).
-/

namespace ScannerGen

/-! ## Members -/

namespace CodeSet

variable {s t : CodeSet} {c : Nat}

theorem mem_iff_covers : c ∈ s ↔ Interval.Covers s.toList c := by
  show (∃ iv ∈ s.toList, iv.contains c = true) ↔ _
  simp only [Interval.contains_iff, Interval.Covers]

@[simp] theorem toList_ofSpaced (l : List Interval) (h : Interval.Spaced l) :
    toList (ofSpaced l h) = l := rfl

/-- Sets with the same members are equal. -/
theorem ext (h : ∀ c, c ∈ s ↔ c ∈ t) : s = t := by
  simp only [mem_iff_covers] at h
  have hl := s.spaced_toList.ext t.spaced_toList h
  obtain ⟨xs, _⟩ := s
  obtain ⟨ys, _⟩ := t
  obtain rfl : xs = ys := Array.toList_inj.1 hl
  rfl

@[simp] theorem not_mem_empty : c ∉ (∅ : CodeSet) := by
  rw [mem_iff_covers]
  exact Interval.not_covers_nil c

@[simp] theorem mem_ofInterval {iv : Interval} : c ∈ ofInterval iv ↔ iv.lo ≤ c ∧ c ≤ iv.hi := by
  rw [mem_iff_covers, ofInterval, toList_ofSpaced, Interval.covers_singleton]

@[simp] theorem mem_single {d : Nat} : c ∈ single d ↔ c = d := by
  unfold single
  rw [mem_ofInterval]
  simp only [Interval.single]
  omega

@[simp] theorem mem_upTo {last : Nat} : c ∈ upTo last ↔ c ≤ last := by
  unfold upTo
  rw [mem_ofInterval]
  simp

theorem mem_insert {iv : Interval} : c ∈ s.insert iv ↔ (iv.lo ≤ c ∧ c ≤ iv.hi) ∨ c ∈ s := by
  rw [mem_iff_covers, mem_iff_covers, insert, toList_ofSpaced, Interval.covers_place]

@[simp] theorem mem_insertCode {d : Nat} : c ∈ s.insertCode d ↔ c = d ∨ c ∈ s := by
  unfold insertCode
  rw [mem_insert, Interval.single]
  exact or_congr_left (by simp only; omega)

/-- Inserting one interval after the other. -/
theorem mem_foldl_insert {l : List Interval} :
    c ∈ l.foldl CodeSet.insert s ↔ c ∈ s ∨ Interval.Covers l c := by
  induction l generalizing s with
  | nil => simp
  | cons iv l ih =>
    rw [List.foldl_cons, ih, mem_insert, Interval.covers_cons]
    tauto

theorem mem_ofList {l : List Interval} : c ∈ ofList l ↔ Interval.Covers l c := by
  unfold ofList
  rw [mem_foldl_insert]
  simp

@[simp] theorem mem_union : c ∈ s.union t ↔ c ∈ s ∨ c ∈ t := by
  unfold CodeSet.union
  rw [mem_foldl_insert, mem_iff_covers (s := t)]

@[simp] theorem mem_inter : c ∈ s.inter t ↔ c ∈ s ∧ c ∈ t := by
  simp only [mem_iff_covers, CodeSet.inter, toList_ofSpaced]
  exact Interval.covers_shared s.spaced_toList t.spaced_toList

@[simp] theorem mem_diff : c ∈ s.diff t ↔ c ∈ s ∧ c ∉ t := by
  simp only [mem_iff_covers, CodeSet.diff, toList_ofSpaced]
  exact Interval.covers_carved s.spaced_toList t.spaced_toList

@[simp] theorem mem_complement {last : Nat} : c ∈ s.complement last ↔ c ≤ last ∧ c ∉ s := by
  unfold complement
  rw [mem_diff, mem_inter, mem_upTo]
  tauto

/-! ## Questions about sets -/

theorem contains_iff : s.contains c = true ↔ c ∈ s := by
  unfold CodeSet.contains
  constructor
  · intro h
    obtain ⟨i, hi⟩ := Option.isSome_iff_exists.1 h
    obtain ⟨iv, hiv, hside⟩ := bisectFrom_eq_some hi
    refine ⟨iv, ?_, Interval.side_eq_iff.1 hside⟩
    unfold toList
    rw [Array.mem_toList_iff]
    exact Array.mem_of_getElem? hiv
  · intro ⟨iv, hiv, hc⟩
    unfold toList at hiv
    rw [Array.mem_toList_iff] at hiv
    refine Interval.bisect_isSome (f := id) ?_ hiv hc
    rw [List.map_id]
    exact s.spaced_toList.imp fun h => Nat.lt_of_succ_lt h

theorem containsSet_iff : s.containsSet t = true ↔ ∀ c, c ∈ t → c ∈ s := by
  unfold containsSet
  rw [Interval.encloses_iff s.spaced_toList t.spaced_toList]
  simp only [mem_iff_covers]

theorem isEmpty_iff : s.isEmpty = true ↔ ∀ c, c ∉ s := by
  unfold isEmpty
  rw [Array.isEmpty_iff, ← Array.toList_eq_nil_iff]
  simp only [mem_iff_covers, Interval.Covers, toList]
  constructor
  · intro h c
    simp [h]
  · intro h
    exact List.eq_nil_iff_forall_not_mem.2 fun iv hiv =>
      h iv.lo ⟨iv, hiv, Nat.le_refl _, iv.lo_le_hi⟩

/-! ## The forms that can fail -/

theorem sub_eq_ok (h : ∀ c, c ∈ t → c ∈ s) : s.sub t = .ok (s.diff t) :=
  if_pos (containsSet_iff.2 h)

theorem sub_eq_error (h : ¬∀ c, c ∈ t → c ∈ s) : s.sub t = .error .notContained :=
  if_neg fun hc => h (containsSet_iff.1 hc)

/-- A complement subtracts only what is there. -/
theorem complement?_eq_ok (s : CodeSet) (last : Nat) :
    s.complement? last = .ok (s.complement last) :=
  sub_eq_ok fun _ hc => (mem_inter.1 hc).2

/-! ## Without regard to case -/

theorem mem_foldl_insertCode {l : List Nat} :
    c ∈ l.foldl CodeSet.insertCode s ↔ c ∈ s ∨ c ∈ l := by
  induction l generalizing s with
  | nil => simp
  | cons d l ih =>
    rw [List.foldl_cons, ih, mem_insertCode, List.mem_cons]
    tauto

theorem mem_foldl_insertVariants {l : List Nat} :
    c ∈ l.foldl (fun acc c => (caseVariants c).foldl CodeSet.insertCode acc) s ↔
      c ∈ s ∨ ∃ d ∈ l, c ∈ caseVariants d := by
  induction l generalizing s with
  | nil => simp
  | cons d l ih =>
    rw [List.foldl_cons, ih, mem_foldl_insertCode, or_assoc]
    simp only [List.mem_cons, exists_eq_or_imp]

theorem mem_caseless : c ∈ s.caseless ↔ c ∈ s ∨ ∃ d ∈ s, c ∈ caseVariants d := by
  unfold CodeSet.caseless
  rw [mem_foldl_insertVariants]
  refine or_congr_right (exists_congr fun d => ?_)
  rw [List.mem_filter, contains_iff]
  constructor
  · exact fun h => ⟨h.1.2, h.2⟩
  · exact fun h => ⟨⟨mem_casedCodes h.2, h.1⟩, h.2⟩

theorem mem_withCase_single {d : Nat} {caseless : Bool} :
    c ∈ (single d).withCase caseless ↔ c ∈ d :: if caseless then caseVariants d else [] := by
  unfold CodeSet.withCase
  split
  · rw [mem_caseless, mem_single, List.mem_cons]
    simp
  · simp

/-! ## Digits and letters -/

/-- The codes of the digits. -/
def digits : CodeSet := ofInterval ⟨48, 57, by decide⟩

/-- The codes of the small letters without marks. -/
def smallLetters : CodeSet := ofInterval ⟨97, 122, by decide⟩

end CodeSet

end ScannerGen
