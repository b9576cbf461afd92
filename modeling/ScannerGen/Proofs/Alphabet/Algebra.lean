import ScannerGen.Alphabet.Word
import ScannerGen.Proofs.Alphabet.CodeSet

/-
  Sets of words form a Boolean algebra. All that can be formed by the operations is made of words
  (`Formed.ofWords`), every operation changes the members as its name says (`exact`), and no sum or
  difference on the way leaves the words (`OfWords.staysInWords`). So a set is its members, however
  it was put together.
-/

namespace ScannerGen

/-! ## The arithmetic of the sweeps -/

namespace Interval

/-- Both ends are words. -/
def IsWord (iv : Interval) : Prop := iv.hi ≤ lastWord

instance (iv : Interval) : Decidable iv.IsWord := inferInstanceAs (Decidable (_ ≤ _))

variable {iv : Interval} {l m : List Interval}

theorem ofBounds_eq_ok {lo hi : Nat} (h : lo ≤ hi) : ofBounds lo hi = .ok ⟨lo, hi, h⟩ := by
  unfold ofBounds
  rw [dif_pos h]

theorem wordBefore_eq_ok {a c : Nat} (h : a < c) : wordBefore c = .ok (c - 1) := by
  unfold wordBefore
  rw [if_pos (by omega)]

theorem wordAfter_eq_ok {c b : Nat} (h : c < b) (hb : b ≤ lastWord) :
    wordAfter c = .ok (c + 1) := by
  unfold wordAfter
  rw [if_pos (by omega)]

/-- A clipped sum compares with words as the sum does. -/
theorem clippedAfter_lt_iff {c d : Nat} (hd : d ≤ lastWord) :
    clippedAfter c < d ↔ c + 1 < d := by
  unfold clippedAfter
  omega

theorem placeInWords_eq (hiv : iv.IsWord) (hl : ∀ b ∈ l, b.IsWord) :
    placeInWords iv l = place iv l := by
  induction l generalizing iv with
  | nil => rfl
  | cons cur rest ih =>
    obtain ⟨hcur, hrest⟩ := List.forall_mem_cons.1 hl
    have hhull : (iv.hull cur).IsWord := Nat.max_le.2 ⟨hiv, hcur⟩
    unfold placeInWords place
    rw [ih hiv hrest, ih hhull hrest]
    simp only [clippedAfter_lt_iff (Nat.le_trans iv.lo_le_hi hiv),
      clippedAfter_lt_iff (Nat.le_trans cur.lo_le_hi hcur)]

theorem meetInWords_eq_ok (a b : Interval) : meetInWords a b = .ok (a.inter? b).toList := by
  unfold meetInWords inter?
  split
  · next h =>
    rw [ofBounds_eq_ok h]
    rfl
  · rfl

theorem commonInWords_eq_ok (iv : Interval) (l : List Interval) :
    commonInWords iv l = .ok (l.filterMap iv.inter?) := by
  induction l with
  | nil => rfl
  | cons cur rest ih =>
    unfold commonInWords
    rw [meetInWords_eq_ok, ih, List.filterMap_cons]
    cases iv.inter? cur <;> rfl

theorem sharedInWords_eq_ok (l m : List Interval) : sharedInWords l m = .ok (shared l m) := by
  induction l generalizing m with
  | nil => rfl
  | cons iv rest ih =>
    simp only [sharedInWords, shared, commonInWords_eq_ok, ih]
    rfl

theorem partBefore_eq_ok (iv hole : Interval) :
    partBefore iv.lo hole = .ok (iv.before hole) := by
  unfold partBefore before
  split
  · next h =>
    rw [wordBefore_eq_ok h]
    show (ofBounds iv.lo (hole.lo - 1) >>= _) = _
    rw [ofBounds_eq_ok (Nat.le_sub_one_of_lt h)]
    rfl
  · rfl

/-- The parts that holes leave begin and end at words. -/
theorem carveInWords_eq_ok {holes : List Interval} (hiv : iv.IsWord) :
    carveInWords iv.lo iv.hi holes = .ok (iv.carve holes) := by
  induction holes generalizing iv with
  | nil =>
    unfold carveInWords carve
    rw [ofBounds_eq_ok iv.lo_le_hi]
    rfl
  | cons hole holes ih =>
    unfold carveInWords carve
    split
    · exact ih hiv
    · split
      · rw [ofBounds_eq_ok iv.lo_le_hi]
        rfl
      · rw [partBefore_eq_ok]
        show (if iv.hi ≤ hole.hi then _ else wordAfter hole.hi >>= _) = _
        split
        · next h =>
          rw [dif_neg (Nat.not_lt.2 h), List.append_nil]
          rfl
        · next h =>
          have h := Nat.lt_of_not_le h
          rw [dif_pos h, wordAfter_eq_ok h hiv]
          show (carveInWords (hole.hi + 1) iv.hi holes >>= _) = _
          rw [@ih ⟨hole.hi + 1, iv.hi, h⟩ hiv]
          rfl

theorem carvedInWords_eq_ok (hl : ∀ iv ∈ l, iv.IsWord) :
    carvedInWords l m = .ok (carved l m) := by
  induction l generalizing m with
  | nil => rfl
  | cons iv rest ih =>
    obtain ⟨hiv, hrest⟩ := List.forall_mem_cons.1 hl
    simp only [carvedInWords, carved]
    rw [carveInWords_eq_ok hiv, ih hrest]
    rfl

end Interval

namespace CodeSet

variable {s t : CodeSet} {c : Nat} {iv : Interval}

/-! ## Sets of words -/

/-- All members are words. -/
def OfWords (s : CodeSet) : Prop := ∀ c ∈ s, c ≤ lastWord

theorem OfWords.isWord (hs : s.OfWords) : ∀ iv ∈ s.toList, iv.IsWord := fun iv hiv =>
  hs iv.hi ⟨iv, hiv, Interval.contains_iff.2 ⟨iv.lo_le_hi, Nat.le_refl _⟩⟩

theorem OfWords.mono (hs : s.OfWords) (h : ∀ c ∈ t, c ∈ s) : t.OfWords :=
  fun c hc => hs c (h c hc)

theorem ofWords_upTo {last : Nat} (h : last ≤ lastWord) : (upTo last).OfWords :=
  fun _ hc => Nat.le_trans (mem_upTo.1 hc) h

theorem ofWords_ofInterval (hiv : iv.IsWord) : (ofInterval iv).OfWords :=
  fun _ hc => Nat.le_trans (mem_ofInterval.1 hc).2 hiv

theorem ofWords_ofList {ivs : List Interval} (h : ∀ iv ∈ ivs, iv.IsWord) :
    (ofList ivs).OfWords := by
  intro c hc
  obtain ⟨iv, hiv, -, hle⟩ := mem_ofList.1 hc
  exact Nat.le_trans hle (h iv hiv)

theorem OfWords.insert (hs : s.OfWords) (hiv : iv.IsWord) : (s.insert iv).OfWords := by
  intro c hc
  rcases mem_insert.1 hc with hc | hc
  · exact Nat.le_trans hc.2 hiv
  · exact hs c hc

theorem OfWords.union (hs : s.OfWords) (ht : t.OfWords) : (s.union t).OfWords := by
  intro c hc
  rcases mem_union.1 hc with hc | hc
  · exact hs c hc
  · exact ht c hc

/-- The counterparts of all codes are words. -/
theorem caseVariants_le {d : Nat} (h : d ∈ caseVariants c) : d ≤ lastWord := by
  have hruns : ∀ run ∈ lowerRuns ++ upperRuns,
      run.image + (run.last - run.first) ≤ lastWord := by decide +kernel
  obtain ⟨run, hrun, hc⟩ := exists_run_of_mem_caseVariants h
  obtain ⟨hcodes, rfl⟩ := CaseRun.move?_eq_some.1 hc
  have := hruns run hrun
  omega

theorem OfWords.caseless (hs : s.OfWords) : s.caseless.OfWords := by
  intro c hc
  rcases mem_caseless.1 hc with hc | ⟨_, -, hc⟩
  · exact hs c hc
  · exact caseVariants_le hc

/-! ## What the operations do -/

/-- Every operation on `s` and `t` has the members that its name says. -/
structure Exact (s t : CodeSet) : Prop where
  mem_insert : ∀ (iv : Interval) (c : Nat), c ∈ s.insert iv ↔ c ∈ s ∨ iv.lo ≤ c ∧ c ≤ iv.hi
  mem_insertCode : ∀ d c, c ∈ s.insertCode d ↔ c ∈ s ∨ c = d
  mem_union : ∀ c, c ∈ s.union t ↔ c ∈ s ∨ c ∈ t
  mem_inter : ∀ c, c ∈ s.inter t ↔ c ∈ s ∧ c ∈ t
  sub_of_subset : (∀ c, c ∈ t → c ∈ s) → ∃ u, s.sub t = .ok u ∧ ∀ c, c ∈ u ↔ c ∈ s ∧ c ∉ t
  sub_of_not_subset : ¬(∀ c, c ∈ t → c ∈ s) → s.sub t = .error .notContained
  mem_complement : ∀ last c, c ∈ s.complement last ↔ c ≤ last ∧ c ∉ s
  mem_caseless : ∀ c, c ∈ s.caseless ↔ c ∈ s ∨ ∃ d ∈ s, c ∈ caseVariants d

theorem exact (s t : CodeSet) : Exact s t where
  mem_insert iv c := by rw [CodeSet.mem_insert, or_comm]
  mem_insertCode d c := by rw [CodeSet.mem_insertCode, or_comm]
  mem_union _ := CodeSet.mem_union
  mem_inter _ := CodeSet.mem_inter
  sub_of_subset h := ⟨s.diff t, sub_eq_ok h, fun _ => mem_diff⟩
  sub_of_not_subset := sub_eq_error
  mem_complement _ _ := CodeSet.mem_complement
  mem_caseless _ := CodeSet.mem_caseless

/-- The operations come to the same in words: no sum or difference leaves them, and no bounds that
an interval is made of are reversed. -/
structure StaysInWords (s t : CodeSet) : Prop where
  insert : ∀ iv : Interval, iv.IsWord → s.insertInWords iv = (s.insert iv).toList
  inter : s.interInWords t = .ok (s.inter t).toList
  sub : s.subInWords t = (s.sub t).map toList
  complement : ∀ last ≤ lastWord, s.complementInWords last = .ok (s.complement last).toList

theorem OfWords.subInWords_eq (hs : s.OfWords) : s.subInWords t = (s.sub t).map toList := by
  unfold subInWords Interval.subInWords sub containsSet
  split
  · rw [Interval.carvedInWords_eq_ok hs.isWord]
    rfl
  · rfl

theorem OfWords.staysInWords (hs : s.OfWords) : StaysInWords s t where
  insert _ hiv := Interval.placeInWords_eq hiv hs.isWord
  inter := Interval.sharedInWords_eq_ok s.toList t.toList
  sub := hs.subInWords_eq
  complement last hlast := by
    have h : (upTo last).subInWords (s.inter (upTo last)) = _ := (ofWords_upTo hlast).subInWords_eq
    rw [← complement?, complement?_eq_ok] at h
    unfold complementInWords Interval.complementInWords
    rw [Interval.ofBounds_eq_ok (Nat.zero_le last)]
    show (Interval.sharedInWords s.toList (upTo last).toList >>= _) = _
    rw [Interval.sharedInWords_eq_ok]
    exact h

/-! ## All that can be formed -/

/-- The sets that result from the operations on intervals of words. -/
inductive Formed : CodeSet → Prop where
  | empty : Formed ∅
  | ofInterval {iv : Interval} (hiv : iv.IsWord) : Formed (.ofInterval iv)
  | ofList {ivs : List Interval} (hivs : ∀ iv ∈ ivs, iv.IsWord) : Formed (.ofList ivs)
  | insert {s : CodeSet} {iv : Interval} (hs : Formed s) (hiv : iv.IsWord) : Formed (s.insert iv)
  | insertCode {s : CodeSet} {c : Nat} (hs : Formed s) (hc : c ≤ lastWord) : Formed (s.insertCode c)
  | union {s t : CodeSet} (hs : Formed s) (ht : Formed t) : Formed (s.union t)
  | inter {s t : CodeSet} (hs : Formed s) (ht : Formed t) : Formed (s.inter t)
  | sub {s t u : CodeSet} (hs : Formed s) (ht : Formed t) (hu : s.sub t = .ok u) : Formed u
  | complement {s : CodeSet} {last : Nat} (hs : Formed s) (hlast : last ≤ lastWord) :
    Formed (s.complement last)
  | caseless {s : CodeSet} (hs : Formed s) : Formed s.caseless

theorem Formed.ofWords (h : Formed s) : s.OfWords := by
  induction h with
  | empty => exact fun _ hc => absurd hc not_mem_empty
  | ofInterval hiv => exact ofWords_ofInterval hiv
  | ofList hivs => exact ofWords_ofList hivs
  | insert _ hiv ihs => exact ihs.insert hiv
  | insertCode _ hc ihs => exact ihs.insert hc
  | union _ _ ihs iht => exact ihs.union iht
  | inter _ _ ihs _ => exact ihs.mono fun c hc => (mem_inter.1 hc).1
  | @sub s t u _ _ hu ihs _ =>
    have hsub : ∀ c, c ∈ t → c ∈ s := by
      by_contra hnot
      rw [sub_eq_error hnot] at hu
      cases hu
    rw [sub_eq_ok hsub] at hu
    obtain rfl := Except.ok.inj hu
    exact ihs.mono fun c hc => (mem_diff.1 hc).1
  | complement _ hlast ihs =>
    exact (ofWords_upTo hlast).mono fun c hc => mem_upTo.2 (mem_complement.1 hc).1
  | caseless _ ihs => exact ihs.caseless

/-- Sets formed from intervals of words consist of words, in intervals that are in order, not
reversed, and neither overlap nor touch. The operations on them are those of an algebra of sets,
their arithmetic stays in words, and a set is the same as another if it has the same members, in
whatever order and with whatever overlaps these were added. -/
theorem formed_sets_are_an_algebra (hs : Formed s) (t : CodeSet) :
    ((∀ iv ∈ s.toList, iv.lo ≤ iv.hi) ∧ s.toList.Pairwise fun a b => a.hi + 1 < b.lo) ∧
      (∀ c ∈ s, c ≤ lastWord) ∧ Exact s t ∧ StaysInWords s t ∧
      (s = t ↔ ∀ c, c ∈ s ↔ c ∈ t) ∧
      ∀ ivs : List Interval, (∀ iv ∈ ivs, iv.IsWord) →
        (s = ofList ivs ↔ ∀ c, c ∈ s ↔ ∃ iv ∈ ivs, iv.lo ≤ c ∧ c ≤ iv.hi) := by
  refine ⟨⟨fun iv _ => iv.lo_le_hi, s.spaced_toList⟩, hs.ofWords, exact s t,
    hs.ofWords.staysInWords, ⟨fun h c => h ▸ Iff.rfl, ext⟩, fun ivs _ => ?_⟩
  constructor
  · rintro rfl c
    exact mem_ofList
  · exact fun h => ext fun c => (h c).trans mem_ofList.symm

/-- Both ends of the words, in three parts that touch. -/
def bothEnds : CodeSet :=
  .ofList [⟨lastWord, lastWord, by decide⟩, ⟨4, 6, by decide⟩, ⟨0, 3, by decide⟩]

theorem formed_sets_are_an_algebra_bothEnds :
    Formed bothEnds ∧ Formed (bothEnds.complement lastWord) ∧
    bothEnds = ofList [⟨0, 6, by decide⟩, ⟨lastWord, lastWord, by decide⟩] ∧
    bothEnds.sub (bothEnds.complement lastWord) = .error .notContained ∧
    bothEnds.complementInWords lastWord = .ok [⟨7, lastWord - 1, by decide⟩] := by
  have hs : Formed bothEnds := .ofList (by decide)
  obtain ⟨-, -, hexact, hwords, -, hlist⟩ :=
    formed_sets_are_an_algebra hs (bothEnds.complement lastWord)
  refine ⟨hs, hs.complement (Nat.le_refl lastWord), ?_, hexact.sub_of_not_subset fun h => ?_, ?_⟩
  · refine (hlist _ (by decide)).2 fun c => ?_
    rw [bothEnds, mem_ofList]
    simp only [Interval.covers_cons, List.mem_cons, List.not_mem_nil, or_false, exists_eq_or_imp,
      exists_eq_left, Interval.not_covers_nil]
    omega
  · have h7 : 7 ∉ bothEnds := by
      rw [← contains_iff]
      decide
    exact h7 (h 7 ((hexact.mem_complement lastWord 7).2 ⟨by decide, h7⟩))
  · rw [hwords.complement lastWord (Nat.le_refl _)]
    exact congrArg Except.ok (by decide)

end CodeSet

end ScannerGen
