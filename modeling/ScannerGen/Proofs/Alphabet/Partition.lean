import ScannerGen.Alphabet.Partition
import ScannerGen.Proofs.Alphabet.CodeSet

/-
  Partitions under refinement. The classes of a valid partition are not empty, apart from each
  other, and together all of the alphabet; refinement keeps this (`Valid.refine`). A partition is
  fine for a set that is a union of its classes: it is fine for every set that it was refined by
  (`Valid.fine_refine`) and stays fine for the others (`Fine.refine`). No difference is taken of
  sets of which one does not contain the other (`refine?_eq_ok`).
-/

namespace ScannerGen

/-- Sets, none of them empty, without a common code. -/
structure Classes (ks : List CodeSet) : Prop where
  nonempty : ∀ k ∈ ks, ∃ c, c ∈ k
  apart : ks.Pairwise fun k k' => ∀ c, c ∈ k → c ∉ k'

namespace Classes

variable {k s : CodeSet} {ks : List CodeSet}

theorem cons_iff : Classes (k :: ks) ↔
    (∃ c, c ∈ k) ∧ (∀ k' ∈ ks, ∀ c, c ∈ k → c ∉ k') ∧ Classes ks := by
  constructor
  · intro h
    obtain ⟨hn, hns⟩ := List.forall_mem_cons.1 h.nonempty
    obtain ⟨ha, has⟩ := List.pairwise_cons.1 h.apart
    exact ⟨hn, ha, hns, has⟩
  · intro ⟨hn, ha, h⟩
    exact ⟨List.forall_mem_cons.2 ⟨hn, h.nonempty⟩, List.pairwise_cons.2 ⟨ha, h.apart⟩⟩

/-- The order of the classes does not matter. -/
theorem perm {ks' : List CodeSet} (h : Classes ks) (hp : ks.Perm ks') : Classes ks' where
  nonempty k hk := h.nonempty k (hp.mem_iff.2 hk)
  apart := (hp.pairwise_iff fun hab c hb ha => hab c ha hb).1 h.apart

end Classes

namespace Partition

/-- `x` is what lies inside `s` of one of the sets, or what lies outside. -/
def IsPart (s : CodeSet) (ks : List CodeSet) (x : CodeSet) : Prop :=
  ∃ k ∈ ks, (∀ c, c ∈ x ↔ c ∈ k ∧ c ∈ s) ∨ ∀ c, c ∈ x ↔ c ∈ k ∧ c ∉ s

theorem IsPart.cons {s k : CodeSet} {ks : List CodeSet} {x : CodeSet} (h : IsPart s ks x) :
    IsPart s (k :: ks) x := by
  obtain ⟨k', hk', h⟩ := h
  exact ⟨k', List.mem_cons_of_mem _ hk', h⟩

/-- The sets are split into parts, and nothing is lost. -/
structure Splits (s : CodeSet) (ks parts : List CodeSet) : Prop extends Classes parts where
  isPart : ∀ x ∈ parts, IsPart s ks x
  cover : ∀ c, (∃ x ∈ parts, c ∈ x) ↔ ∃ k ∈ ks, c ∈ k

variable {s k : CodeSet} {ks parts : List CodeSet}

theorem Splits.perm {parts' : List CodeSet} (h : Splits s ks parts) (hp : parts.Perm parts') :
    Splits s ks parts' where
  toClasses := h.toClasses.perm hp
  isPart x hx := h.isPart x (hp.mem_iff.2 hx)
  cover c := by
    rw [← h.cover c]
    exact exists_congr fun x => and_congr_left' hp.symm.mem_iff

theorem Splits.nil : Splits s [] [] where
  nonempty := by simp
  apart := List.Pairwise.nil
  isPart := by simp
  cover := by simp

/-- Nothing has to be split by the empty set. -/
theorem Splits.refl (hks : Classes ks) (hs : ∀ c, c ∉ s) : Splits s ks ks where
  toClasses := hks
  isPart x hx := ⟨x, hx, .inr fun c => by simp [hs c]⟩
  cover _ := Iff.rfl

/-- The parts of the other classes do not meet `k`. -/
theorem Splits.apart_of_cons (h : Splits s ks parts) (hk : ∀ k' ∈ ks, ∀ c, c ∈ k → c ∉ k') :
    ∀ x ∈ parts, ∀ c, c ∈ k → c ∉ x := by
  intro x hx c hc hcx
  obtain ⟨k', hk', hck'⟩ := (h.cover c).1 ⟨x, hx, hcx⟩
  exact hk k' hk' c hc hck'

/-- The rest of `s` splits the other classes as `s` does. -/
theorem Splits.of_diff {t : CodeSet} (h : Splits t ks parts)
    (ht : ∀ c, c ∈ t ↔ c ∈ s ∧ c ∉ k) (hk : ∀ k' ∈ ks, ∀ c, c ∈ k → c ∉ k') :
    Splits s ks parts where
  toClasses := h.toClasses
  isPart x hx := by
    obtain ⟨k', hk', hx⟩ := h.isPart x hx
    have hsame : ∀ c, c ∈ k' → (c ∈ t ↔ c ∈ s) := fun c hc => by
      rw [ht, and_iff_left]
      exact fun hck => hk k' hk' c hck hc
    refine ⟨k', hk', hx.imp (fun hx c => ?_) fun hx c => ?_⟩
    · rw [hx c]
      exact and_congr_right (hsame c)
    · rw [hx c]
      exact and_congr_right fun hc => not_congr (hsame c hc)
  cover := h.cover

theorem Splits.keep (h : Splits s ks parts) (hks : Classes (k :: ks))
    (hk : (∀ c, c ∈ k → c ∈ s) ∨ ∀ c, c ∈ k → c ∉ s) : Splits s (k :: ks) (k :: parts) where
  toClasses := by
    obtain ⟨hn, ha, -⟩ := Classes.cons_iff.1 hks
    exact Classes.cons_iff.2 ⟨hn, h.apart_of_cons ha, h.toClasses⟩
  isPart := by
    refine List.forall_mem_cons.2 ⟨⟨k, List.mem_cons_self .., ?_⟩, fun x hx => (h.isPart x hx).cons⟩
    exact hk.imp (fun hk c => ⟨fun hc => ⟨hc, hk c hc⟩, And.left⟩)
      fun hk c => ⟨fun hc => ⟨hc, hk c hc⟩, And.left⟩
  cover c := by
    simp only [List.mem_cons, exists_eq_or_imp, h.cover c]

theorem Splits.divide (h : Splits s ks parts) (hks : Classes (k :: ks)) {a b : CodeSet}
    (hac : ∀ c, c ∈ a ↔ c ∈ k ∧ c ∉ s) (hbc : ∀ c, c ∈ b ↔ c ∈ k ∧ c ∈ s)
    (hna : ∃ c, c ∈ a) (hnb : ∃ c, c ∈ b) :
    Splits s (k :: ks) (a :: b :: parts) where
  toClasses := by
    obtain ⟨-, hk, -⟩ := Classes.cons_iff.1 hks
    have hout := h.apart_of_cons hk
    refine Classes.cons_iff.2 ⟨hna, ?_, Classes.cons_iff.2 ⟨hnb, ?_, h.toClasses⟩⟩
    · refine List.forall_mem_cons.2 ⟨fun c h1 h2 => ?_, fun x hx c h1 => ?_⟩
      · exact ((hac c).1 h1).2 ((hbc c).1 h2).2
      · exact hout x hx c ((hac c).1 h1).1
    · exact fun x hx c h1 => hout x hx c ((hbc c).1 h1).1
  isPart := by
    refine List.forall_mem_cons.2 ⟨⟨k, List.mem_cons_self .., .inr hac⟩, ?_⟩
    refine List.forall_mem_cons.2 ⟨⟨k, List.mem_cons_self .., .inl hbc⟩, ?_⟩
    exact fun x hx => (h.isPart x hx).cons
  cover c := by
    simp only [List.mem_cons, exists_eq_or_imp, h.cover c, hac c, hbc c]
    by_cases hc : c ∈ s <;> simp [hc]

/-- What is left of `s` once the codes of `k` are taken out of it. -/
theorem mem_rest {c : Nat} : c ∈ s.diff (k.inter s) ↔ c ∈ s ∧ c ∉ k := by
  rw [CodeSet.mem_diff, CodeSet.mem_inter]
  by_cases hc : c ∈ s <;> simp [hc]

/-- What is left of `k` once the codes of `s` are taken out of it. -/
theorem mem_left {c : Nat} : c ∈ k.diff (k.inter s) ↔ c ∈ k ∧ c ∉ s := by
  rw [CodeSet.mem_diff, CodeSet.mem_inter]
  by_cases hc : c ∈ k <;> simp [hc]

theorem split_spec (s : CodeSet) (hks : Classes ks) :
    Splits s ks ((split s ks).1 ++ (split s ks).2) := by
  induction ks generalizing s with
  | nil => exact Splits.nil
  | cons k ks ih =>
    obtain ⟨-, ha, hks'⟩ := Classes.cons_iff.1 hks
    unfold split
    split
    · next he =>
      rw [List.append_nil]
      exact Splits.refl hks (CodeSet.isEmpty_iff.1 he)
    · have htail := (ih (s.diff (k.inter s)) hks').of_diff (fun c => mem_rest) ha
      simp only
      split
      · next he =>
        rw [List.cons_append]
        apply htail.keep hks
        rw [Bool.or_eq_true, decide_eq_true_eq] at he
        rcases he with he | he
        · exact .inr fun c hc hcs => CodeSet.isEmpty_iff.1 he c (CodeSet.mem_inter.2 ⟨hc, hcs⟩)
        · refine .inl fun c hc => ?_
          rw [← he, CodeSet.mem_inter] at hc
          exact hc.2
      · next he =>
        rw [Bool.or_eq_true, decide_eq_true_eq, not_or] at he
        have hnb : ∃ c, c ∈ k.inter s := by
          by_contra h
          exact he.1 (CodeSet.isEmpty_iff.2 fun c hc => h ⟨c, hc⟩)
        have hna : ∃ c, c ∈ k.diff (k.inter s) := by
          -- otherwise `k` lies in `s` as a whole
          by_contra h
          refine he.2 (CodeSet.ext fun c => ?_)
          rw [CodeSet.mem_inter, and_iff_left_iff_imp]
          intro hc
          by_contra hcs
          exact h ⟨c, mem_left.2 ⟨hc, hcs⟩⟩
        apply (htail.divide hks (fun c => mem_left) (fun c => CodeSet.mem_inter) hna hnb).perm
        rw [List.cons_append]
        exact (List.perm_middle.symm).cons _

theorem split?_eq_ok (s : CodeSet) (ks : List CodeSet) : split? s ks = .ok (split s ks) := by
  induction ks generalizing s with
  | nil => rfl
  | cons k ks ih =>
    have hsub : s.sub (k.inter s) = .ok (s.diff (k.inter s)) :=
      CodeSet.sub_eq_ok fun c hc => (CodeSet.mem_inter.1 hc).2
    have hsub' : k.sub (k.inter s) = .ok (k.diff (k.inter s)) :=
      CodeSet.sub_eq_ok fun c hc => (CodeSet.mem_inter.1 hc).1
    unfold split?
    rw [split]
    split
    · rfl
    · simp only [bind, Except.bind, hsub, ih, hsub']
      split <;> rfl

/-! ## Valid partitions -/

/-- The classes are classes of the alphabet and leave out none of its codes. -/
structure Valid (p : Partition) : Prop extends Classes p.classes.toList where
  cover : ∀ c, (∃ k ∈ p.classes.toList, c ∈ k) ↔ c ≤ p.top

/-- `s` is a union of classes, as far as it lies in the alphabet. -/
def Fine (p : Partition) (s : CodeSet) : Prop :=
  ∀ k ∈ p.classes.toList, (∀ c, c ∈ k → c ∈ s) ∨ ∀ c, c ∈ k → c ∉ s

theorem valid_whole (top : Nat) : (whole top).Valid where
  nonempty := by
    simp only [whole, List.mem_singleton, forall_eq, CodeSet.mem_upTo]
    exact ⟨0, Nat.zero_le _⟩
  apart := by simp [whole]
  cover c := by simp [whole]

variable {p : Partition}

theorem Valid.refine_splits (hp : p.Valid) (s : CodeSet) :
    Splits (s.inter (.upTo p.top)) p.classes.toList (p.refine s).classes.toList :=
  split_spec _ hp.toClasses

@[simp] theorem top_refine (p : Partition) (s : CodeSet) : (p.refine s).top = p.top := rfl

theorem Valid.refine (hp : p.Valid) (s : CodeSet) : (p.refine s).Valid where
  toClasses := (hp.refine_splits s).toClasses
  cover c := by rw [(hp.refine_splits s).cover c, hp.cover c, top_refine]

theorem refine?_eq_ok (p : Partition) (s : CodeSet) : p.refine? s = .ok (p.refine s) := by
  unfold refine?
  simp only [bind, Except.bind, split?_eq_ok]
  rfl

theorem Valid.fine_refine (hp : p.Valid) (s : CodeSet) : (p.refine s).Fine s := by
  have h := hp.refine_splits s
  intro x hx
  obtain ⟨k, hk, hx⟩ := h.isPart x hx
  rcases hx with hx | hx
  · exact .inl fun c hc => (CodeSet.mem_inter.1 ((hx c).1 hc).2).1
  · refine .inr fun c hc hcs => ((hx c).1 hc).2 (CodeSet.mem_inter.2 ⟨hcs, ?_⟩)
    exact CodeSet.mem_upTo.2 ((hp.cover c).1 ⟨k, hk, ((hx c).1 hc).1⟩)

theorem Fine.refine {t : CodeSet} (h : p.Fine t) (hp : p.Valid) (s : CodeSet) :
    (p.refine s).Fine t := by
  intro x hx
  obtain ⟨k, hk, hx⟩ := (hp.refine_splits s).isPart x hx
  have hsub : ∀ c, c ∈ x → c ∈ k := fun c hc => by
    rcases hx with hx | hx
    · exact ((hx c).1 hc).1
    · exact ((hx c).1 hc).1
  exact (h k hk).imp (fun h c hc => h c (hsub c hc)) fun h c hc => h c (hsub c hc)

theorem split_eq_self (hks : Classes ks)
    (h : ∀ k ∈ ks, (∀ c, c ∈ k → c ∈ s) ∨ ∀ c, c ∈ k → c ∉ s) : split s ks = (ks, []) := by
  induction ks generalizing s with
  | nil => rfl
  | cons k ks ih =>
    obtain ⟨-, ha, hks'⟩ := Classes.cons_iff.1 hks
    obtain ⟨hside, h⟩ := List.forall_mem_cons.1 h
    -- the codes taken out of `s` are in no other class
    have hrest : split (s.diff (k.inter s)) ks = (ks, []) := by
      refine ih hks' fun k' hk' => (h k' hk').imp (fun h c hc => ?_) fun h c hc => ?_
      · exact mem_rest.2 ⟨h c hc, fun hck => ha k' hk' c hck hc⟩
      · exact fun hcs => h c hc (mem_rest.1 hcs).1
    have hkeep : ((k.inter s).isEmpty || decide (k.inter s = k)) = true := by
      rw [Bool.or_eq_true, decide_eq_true_eq]
      rcases hside with hin | hout
      · exact .inr (CodeSet.ext fun c => CodeSet.mem_inter.trans (and_iff_left_of_imp (hin c)))
      · exact .inl (CodeSet.isEmpty_iff.2 fun c hc =>
          hout c (CodeSet.mem_inter.1 hc).1 (CodeSet.mem_inter.1 hc).2)
    unfold split
    split
    · rfl
    · simp only [hrest, hkeep, if_true]

/-- A set for which the partition is fine already changes nothing. -/
theorem Valid.refine_eq_self (hp : p.Valid) (hf : p.Fine s) : p.refine s = p := by
  have hsplit : split (s.inter (.upTo p.top)) p.classes.toList = (p.classes.toList, []) := by
    refine split_eq_self hp.toClasses fun k hk => (hf k hk).imp (fun h c hc => ?_) fun h c hc => ?_
    · exact CodeSet.mem_inter.2 ⟨h c hc, CodeSet.mem_upTo.2 ((hp.cover c).1 ⟨k, hk, hc⟩)⟩
    · exact fun hcs => h c hc (CodeSet.mem_inter.1 hcs).1
  unfold Partition.refine
  simp only [hsplit, List.append_nil]

theorem Valid.foldl_refine_eq_self (hp : p.Valid) {sets : List CodeSet}
    (hf : ∀ s ∈ sets, p.Fine s) : sets.foldl Partition.refine p = p := by
  induction sets with
  | nil => rfl
  | cons s sets ih =>
    obtain ⟨hf, hfs⟩ := List.forall_mem_cons.1 hf
    rw [List.foldl_cons, hp.refine_eq_self hf]
    exact ih hfs

/-- Refining by one set after the other makes a partition fine for all of them. -/
theorem Valid.foldl_refine (hp : p.Valid) (sets : List CodeSet) :
    (sets.foldl Partition.refine p).Valid ∧ (sets.foldl Partition.refine p).top = p.top ∧
      (∀ s, p.Fine s → (sets.foldl Partition.refine p).Fine s) ∧
      ∀ s ∈ sets, (sets.foldl Partition.refine p).Fine s := by
  induction sets generalizing p with
  | nil => exact ⟨hp, rfl, fun _ h => h, by simp⟩
  | cons s sets ih =>
    obtain ⟨hvalid, htop, hkeep, hfine⟩ := ih (hp.refine s)
    refine ⟨hvalid, htop, fun t ht => hkeep t (ht.refine hp s), ?_⟩
    exact List.forall_mem_cons.2 ⟨hkeep s (hp.fine_refine s), hfine⟩

theorem foldlM_refine?_eq_ok (p : Partition) (sets : List CodeSet) :
    sets.foldlM refine? p = .ok (sets.foldl Partition.refine p) := by
  induction sets generalizing p with
  | nil => rfl
  | cons s sets ih =>
    rw [List.foldlM_cons, refine?_eq_ok]
    exact ih (p.refine s)

end Partition

end ScannerGen
