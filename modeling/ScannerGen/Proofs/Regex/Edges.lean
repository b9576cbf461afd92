import Mathlib.Order.CompletePartialOrder
import ScannerGen.Proofs.Regex.Language
import ScannerGen.Spec.Analyses

/-
  What the analyses of an expression tell is true of its language: all matches have the length that
  is given (`Grounded.length_eq`), the empty word is a match exactly if it is said to be
  (`Grounded.matchesEmpty_iff`), and the sets for the beginning and the end leave out no code with
  which a match begins or ends (`Grounded.first_encloses`, `Grounded.last_encloses`).
-/

namespace ScannerGen

open Computability

variable {α : Type} {L M : Language α} {A : Set α}

/-! ## The ends of words -/

/-- The letters that words of `L` begin with. -/
def firsts (L : Language α) : Set α := {a | ∃ w, a :: w ∈ L}

/-- The letters that words of `L` end with. -/
def lasts (L : Language α) : Set α := {a | ∃ w, w ++ [a] ∈ L}

theorem lasts_eq (L : Language α) : lasts L = firsts L.reverse := by
  ext a
  constructor
  · rintro ⟨w, hw⟩
    exact ⟨w.reverse, by simpa [Language.mem_reverse] using hw⟩
  · rintro ⟨w, hw⟩
    exact ⟨w.reverse, by simpa [Language.mem_reverse] using hw⟩

theorem firsts_mono (h : L ≤ M) : firsts L ⊆ firsts M := fun _ ⟨w, hw⟩ => ⟨w, h hw⟩

theorem lasts_mono (h : L ≤ M) : lasts L ⊆ lasts M := fun _ ⟨w, hw⟩ => ⟨w, h hw⟩

theorem firsts_words : firsts (words A) ⊆ A := fun _ ⟨_, hw⟩ => (cons_mem_words.1 hw).1

theorem lasts_words : lasts (words A) ⊆ A := fun _ ⟨_, hw⟩ =>
  (cons_mem_words.1 (append_mem_words.1 hw).2).1

theorem firsts_add (L M : Language α) : firsts (L + M) = firsts L ∪ firsts M := by
  ext a
  exact exists_or

theorem lasts_add (L M : Language α) : lasts (L + M) = lasts L ∪ lasts M := by
  ext a
  exact exists_or

theorem nil_mem_mul_iff : [] ∈ L * M ↔ [] ∈ L ∧ [] ∈ M := by
  rw [Language.mem_mul]
  constructor
  · intro ⟨u, hu, v, hv, huv⟩
    obtain ⟨rfl, rfl⟩ := List.append_eq_nil_iff.1 huv
    exact ⟨hu, hv⟩
  · exact fun h => ⟨[], h.1, [], h.2, rfl⟩

theorem nil_mem_reverse_iff : [] ∈ L.reverse ↔ [] ∈ L := by
  rw [Language.mem_reverse, List.reverse_nil]

/-- A word of two parts begins like the second one only if the first one can be empty. -/
theorem firsts_mul_subset (L M : Language α) :
    firsts (L * M) ⊆ {a | a ∈ firsts L ∨ [] ∈ L ∧ a ∈ firsts M} := by
  rintro a ⟨w, hw⟩
  obtain ⟨u, hu, v, hv, huv⟩ := Language.mem_mul.1 hw
  cases u with
  | nil => exact .inr ⟨hu, w, huv ▸ hv⟩
  | cons b u =>
    obtain ⟨rfl, rfl⟩ := List.cons.inj huv
    exact .inl ⟨u, hu⟩

theorem lasts_mul_subset (L M : Language α) :
    lasts (L * M) ⊆ {a | a ∈ lasts M ∨ [] ∈ M ∧ a ∈ lasts L} := by
  rw [lasts_eq, lasts_eq, lasts_eq, Language.reverse_mul, ← nil_mem_reverse_iff]
  exact firsts_mul_subset _ _

theorem firsts_kstar_subset (L : Language α) : firsts L∗ ⊆ firsts L := by
  rintro a ⟨w, hw⟩
  obtain ⟨l, hl, hmem⟩ := Language.mem_kstar_iff_exists_nonempty.1 hw
  cases l with
  | nil => cases hl
  | cons u l =>
    obtain ⟨⟨hu, hne⟩, -⟩ := List.forall_mem_cons.1 hmem
    obtain ⟨b, u, rfl⟩ := List.exists_cons_of_ne_nil hne
    obtain ⟨rfl, -⟩ := List.cons.inj hl
    exact ⟨u, hu⟩

theorem lasts_kstar_subset (L : Language α) : lasts L∗ ⊆ lasts L := by
  rw [lasts_eq, lasts_eq, Language.reverse_kstar]
  exact firsts_kstar_subset _

theorem firsts_mul_kstar_subset (L : Language α) : firsts (L * L∗) ⊆ firsts L :=
  (firsts_mono mul_kstar_le_kstar).trans (firsts_kstar_subset L)

theorem lasts_mul_kstar_subset (L : Language α) : lasts (L * L∗) ⊆ lasts L :=
  (lasts_mono mul_kstar_le_kstar).trans (lasts_kstar_subset L)

/-! ## Sets that leave out nothing -/

namespace CodeSet

/-- The set has all codes in `A`. -/
def Encloses (s : CodeSet) (A : Set Nat) : Prop := ∀ c ∈ A, c ∈ s

variable {s t : CodeSet} {A B : Set Nat} {top : Nat}

theorem Encloses.mono (h : s.Encloses A) (hB : B ⊆ A) : s.Encloses B := fun c hc => h c (hB hc)

theorem Encloses.union (hs : s.Encloses A) (ht : t.Encloses B) : (s.union t).Encloses (A ∪ B) :=
  fun c hc => mem_union.2 (hc.imp (hs c) (ht c))

/-- The second set is needed only if the first part of a word can be empty. -/
theorem Encloses.join {empty : Bool} (hs : s.Encloses A) (ht : t.Encloses B) :
    (if empty = true then s.union t else s).Encloses {c | c ∈ A ∨ empty = true ∧ c ∈ B} := by
  split
  · next h => exact (hs.union ht).mono fun c hc => hc.imp_right And.right
  · next h => exact hs.mono fun c hc => hc.resolve_right fun h' => h h'.1

theorem encloses_upTo (h : A ⊆ {c | c ≤ top}) : (upTo top).Encloses A :=
  fun _ hc => mem_upTo.2 (h hc)

theorem encloses_codes (q : CodePattern) : (q.codes top).Encloses {c | q.Matches top c} :=
  fun _ hc => (Partition.matches_iff_mem_codes hc.le_top).1 hc

theorem encloses_edge_text {s : String} {caseless : Bool} {pick : List Char → Option Char}
    {ofUse : String → CodeSet}
    (h : ∀ c ∈ A, ∃ d, pick s.toList = some d ∧ (CodePattern.code d.toNat caseless).Matches top c) :
    ((Leaf.text s caseless).edge top pick ofUse).Encloses A := by
  cases hd : pick s.toList with
  | none =>
    have hedge : (Leaf.text s caseless).edge top pick ofUse = ∅ := by simp only [Leaf.edge, hd]
    rw [hedge]
    intro c hc
    obtain ⟨d, hd', -⟩ := h c hc
    rw [hd] at hd'
    cases hd'
  | some d =>
    have hedge : (Leaf.text s caseless).edge top pick ofUse =
        (CodePattern.code d.toNat caseless).codes top := by simp only [Leaf.edge, hd]
    rw [hedge]
    refine (encloses_codes _).mono fun c hc => ?_
    obtain ⟨d', hd', hmatch⟩ := h c hc
    rw [hd, Option.some.injEq] at hd'
    exact hd' ▸ hmatch

end CodeSet

/-! ## Expressions, given the answers for macros -/

namespace Regex

variable {top : Nat} {lang : String → Language Nat} {r : Regex}

theorem denote_le_words {A : Set α} {ofLeaf : Leaf → Language α}
    (h : ∀ l ∈ r.leaves, ofLeaf l ≤ words A) : r.denote A ofLeaf ≤ words A := by
  have hmul : ∀ {L M : Language α}, L ≤ words A → M ≤ words A → L * M ≤ words A := by
    intro L M hL hM w hw
    obtain ⟨u, hu, v, hv, rfl⟩ := Language.mem_mul.1 hw
    exact append_mem_words.2 ⟨hL hu, hM hv⟩
  have hkstar : ∀ {L : Language α}, L ≤ words A → L∗ ≤ words A := by
    intro L hL w hw a ha
    obtain ⟨l, rfl, hl⟩ := Language.mem_kstar.1 hw
    obtain ⟨u, hu, ha⟩ := List.mem_flatten.1 ha
    exact hL (hl u hu) a ha
  induction r with
  | alt r s hr hs =>
    simp only [leaves, List.mem_append] at h
    exact sup_le (hr fun l hl => h l (.inl hl)) (hs fun l hl => h l (.inr hl))
  | cat r s hr hs =>
    simp only [leaves, List.mem_append] at h
    exact hmul (hr fun l hl => h l (.inl hl)) (hs fun l hl => h l (.inr hl))
  | star r hr => exact hkstar (hr h)
  | plus r hr => exact hmul (hr h) (hkstar (hr h))
  | opt r hr =>
    refine sup_le (hr h) fun w hw => ?_
    obtain rfl := (Language.mem_one w).1 hw
    exact nil_mem_words A
  | compl r hr => exact fun w hw => hw.1
  | upTo r hr => exact hmul (fun w hw => hw.1) (hr h)
  | leaf l => exact h l (List.mem_singleton_self l)

theorem language_le_words (h : ∀ name ∈ r.macroUses, lang name ≤ words {c | c ≤ top}) :
    r.language top lang ≤ words {c | c ≤ top} := by
  apply denote_le_words
  intro l hl w hw
  cases l with
  | one q =>
    obtain ⟨c, hc, rfl⟩ := hw
    exact cons_mem_words.2 ⟨hc.le_top, nil_mem_words _⟩
  | text s caseless =>
    intro c hc
    obtain ⟨i, hi, rfl⟩ := List.mem_iff_getElem.1 hc
    have hi' : i < s.toList.length := hw.length_eq ▸ hi
    exact (hw.get hi hi').le_top
  | use name => exact h name (mem_macroUses.2 hl) hw

/-- What is read before a match that comes first shows that no match is empty. -/
theorem nil_not_mem_of_mem_rejects {A : Set α} {w : List α}
    (h : w ∈ rejects A (words A * L * words A)) : [] ∉ L := by
  intro hnil
  refine h.2 (Language.mem_mul.2 ⟨w, Language.mem_mul.2 ⟨w, h.1, [], hnil, ?_⟩, [], ?_, ?_⟩)
  · exact List.append_nil w
  · exact nil_mem_words A
  · exact List.append_nil w

theorem matchesEmpty_iff {ofUse : String → Bool}
    (h : ∀ name ∈ r.macroUses, (ofUse name = true ↔ [] ∈ lang name)) :
    r.matchesEmpty ofUse = true ↔ [] ∈ r.language top lang := by
  unfold language
  induction r with
  | alt r s hr hs =>
    simp only [macroUses_alt, List.mem_append] at h
    rw [matchesEmpty, denote, Bool.or_eq_true, Language.mem_add, hr fun n hn => h n (.inl hn),
      hs fun n hn => h n (.inr hn)]
  | cat r s hr hs =>
    simp only [macroUses_cat, List.mem_append] at h
    rw [matchesEmpty, denote, Bool.and_eq_true, nil_mem_mul_iff, hr fun n hn => h n (.inl hn),
      hs fun n hn => h n (.inr hn)]
  | star r hr => exact iff_of_true rfl (Language.nil_mem_kstar _)
  | plus r hr =>
    rw [matchesEmpty, denote, nil_mem_mul_iff, and_iff_left (Language.nil_mem_kstar _), hr h]
  | opt r hr => exact iff_of_true rfl (.inr Language.nil_mem_one)
  | compl r hr =>
    rw [matchesEmpty, denote, mem_rejects, and_iff_right (nil_mem_words _), Bool.not_eq_true',
      ← Bool.not_eq_true, hr h]
  | upTo r hr =>
    refine iff_of_false (by simp [matchesEmpty]) fun hnil => ?_
    obtain ⟨hbefore, hmatch⟩ := nil_mem_mul_iff.1 hnil
    exact nil_not_mem_of_mem_rejects hbefore hmatch
  | leaf l =>
    cases l with
    | one q =>
      refine iff_of_false (by simp [matchesEmpty, Leaf.matchesEmpty]) ?_
      rintro ⟨c, -, hc⟩
      cases hc
    | text s caseless =>
      show s.isEmpty = true ↔ List.Forall₂ _ [] s.toList
      rw [List.forall₂_nil_left_iff, String.isEmpty_iff, String.toList_eq_nil_iff]
    | use name => exact h name (List.mem_singleton_self name)

theorem length_eq {ofUse : String → Option Nat}
    (h : ∀ name ∈ r.macroUses, ∀ n, ofUse name = some n → ∀ w ∈ lang name, w.length = n) {n : Nat}
    (hn : r.length? ofUse = some n) : ∀ w ∈ r.language top lang, w.length = n := by
  unfold language
  induction r generalizing n with
  | alt r s hr hs =>
    simp only [macroUses_alt, List.mem_append] at h
    obtain ⟨m, hm, hn⟩ := Option.bind_eq_some_iff.1 hn
    obtain ⟨k, hk, hn⟩ := Option.bind_eq_some_iff.1 hn
    obtain ⟨rfl, hn⟩ := Option.ite_none_right_eq_some.1 hn
    obtain rfl := Option.some.inj hn
    rintro w (hw | hw)
    · exact hr (fun n hn => h n (.inl hn)) hm w hw
    · exact hs (fun n hn => h n (.inr hn)) hk w hw
  | cat r s hr hs =>
    simp only [macroUses_cat, List.mem_append] at h
    obtain ⟨m, hm, hn⟩ := Option.bind_eq_some_iff.1 hn
    obtain ⟨k, hk, hn⟩ := Option.bind_eq_some_iff.1 hn
    obtain rfl := Option.some.inj hn
    rintro _ ⟨u, hu, v, hv, rfl⟩
    rw [List.length_append, hr (fun n hn => h n (.inl hn)) hm u hu,
      hs (fun n hn => h n (.inr hn)) hk v hv]
  | star r | plus r | opt r | compl r | upTo r => cases hn
  | leaf l =>
    cases l with
    | one q =>
      obtain rfl := Option.some.inj hn
      rintro _ ⟨c, -, rfl⟩
      rfl
    | text s caseless =>
      obtain rfl := Option.some.inj hn
      intro w hw
      rw [List.Forall₂.length_eq hw, String.length_toList]
    | use name => exact h name (List.mem_singleton_self name) n hn

/-! ### The codes at the ends -/

section

variable {empties : String → Bool} {ofUse : String → CodeSet}

theorem first_encloses
    (hempty : ∀ name ∈ r.macroUses, (empties name = true ↔ [] ∈ lang name))
    (hle : ∀ name ∈ r.macroUses, lang name ≤ words {c | c ≤ top})
    (huse : ∀ name ∈ r.macroUses, (ofUse name).Encloses (firsts (lang name))) :
    (r.first top empties ofUse).Encloses (firsts (r.language top lang)) := by
  have hall : ∀ {s : Regex}, (∀ name ∈ s.macroUses, lang name ≤ words {c | c ≤ top}) →
      (CodeSet.upTo top).Encloses (firsts (s.language top lang)) := fun hle =>
    CodeSet.encloses_upTo ((firsts_mono (language_le_words hle)).trans firsts_words)
  induction r with
  | alt r s hr hs =>
    simp only [macroUses_alt, List.mem_append, or_imp, forall_and] at hempty hle huse
    refine ((hr hempty.1 hle.1 huse.1).union (hs hempty.2 hle.2 huse.2)).mono ?_
    exact (firsts_add _ _).subset
  | cat r s hr hs =>
    simp only [macroUses_cat, List.mem_append, or_imp, forall_and] at hempty hle huse
    refine ((hr hempty.1 hle.1 huse.1).join (hs hempty.2 hle.2 huse.2)).mono ?_
    rw [matchesEmpty_iff hempty.1]
    exact firsts_mul_subset _ _
  | star r hr => exact (hr hempty hle huse).mono (firsts_kstar_subset _)
  | plus r hr => exact (hr hempty hle huse).mono (firsts_mul_kstar_subset _)
  | opt r hr =>
    refine (hr hempty hle huse).mono ?_
    rintro c ⟨w, hw | hw⟩
    · exact ⟨w, hw⟩
    · cases hw
  | compl r => exact hall (s := compl r) hle
  | upTo r => exact hall (s := upTo r) hle
  | leaf l =>
    cases l with
    | one q =>
      refine (CodeSet.encloses_codes q).mono ?_
      rintro c ⟨w, d, hd, hw⟩
      obtain ⟨rfl, -⟩ := List.cons.inj hw
      exact hd
    | text s caseless =>
      apply CodeSet.encloses_edge_text
      rintro c ⟨w, hw⟩
      obtain ⟨d, l, hd, -, hl⟩ := List.forall₂_cons_left_iff.1 hw
      exact ⟨d, by rw [hl, List.head?_cons], hd⟩
    | use name => exact huse name (List.mem_singleton_self name)

theorem last_encloses
    (hempty : ∀ name ∈ r.macroUses, (empties name = true ↔ [] ∈ lang name))
    (hle : ∀ name ∈ r.macroUses, lang name ≤ words {c | c ≤ top})
    (huse : ∀ name ∈ r.macroUses, (ofUse name).Encloses (lasts (lang name))) :
    (r.last top empties ofUse).Encloses (lasts (r.language top lang)) := by
  induction r with
  | alt r s hr hs =>
    simp only [macroUses_alt, List.mem_append, or_imp, forall_and] at hempty hle huse
    refine ((hr hempty.1 hle.1 huse.1).union (hs hempty.2 hle.2 huse.2)).mono ?_
    exact (lasts_add _ _).subset
  | cat r s hr hs =>
    simp only [macroUses_cat, List.mem_append, or_imp, forall_and] at hempty hle huse
    refine ((hs hempty.2 hle.2 huse.2).join (hr hempty.1 hle.1 huse.1)).mono ?_
    rw [matchesEmpty_iff hempty.2]
    exact lasts_mul_subset _ _
  | star r hr => exact (hr hempty hle huse).mono (lasts_kstar_subset _)
  | plus r hr => exact (hr hempty hle huse).mono (lasts_mul_kstar_subset _)
  | opt r hr =>
    refine (hr hempty hle huse).mono ?_
    rintro c ⟨w, hw | hw⟩
    · exact ⟨w, hw⟩
    · exact absurd ((Language.mem_one _).1 hw) (by simp)
  | compl r =>
    exact CodeSet.encloses_upTo ((lasts_mono fun w hw => hw.1).trans lasts_words)
  | upTo r hr =>
    refine (hr hempty hle huse).mono fun c hc => ?_
    -- a match that can be empty cannot come first
    rcases lasts_mul_subset _ _ hc with hc | ⟨hnil, w, hw⟩
    · exact hc
    · exact absurd hnil (nil_not_mem_of_mem_rejects hw)
  | leaf l =>
    cases l with
    | one q =>
      refine (CodeSet.encloses_codes q).mono ?_
      rintro c ⟨w, d, hd, hw⟩
      obtain ⟨-, hcd⟩ := List.append_inj' (hw.trans (List.nil_append [d]).symm) rfl
      obtain rfl := List.singleton_inj.1 hcd
      exact hd
    | text s caseless =>
      apply CodeSet.encloses_edge_text
      rintro c ⟨w, hw⟩
      have hrev := List.forall₂_reverse_iff.2 hw
      rw [List.reverse_append, List.reverse_singleton, List.singleton_append] at hrev
      obtain ⟨d, l, hd, -, hl⟩ := List.forall₂_cons_left_iff.1 hrev
      exact ⟨d, by rw [← List.head?_reverse, hl, List.head?_cons], hd⟩
    | use name => exact huse name (List.mem_singleton_self name)

end

/-! ### Answers hang on those for the parts -/

theorem structural_length? : Structural length? where
  alt hr hs := by rw [length?, length?, hr, hs]
  cat hr hs := by rw [length?, length?, hr, hs]
  star _ := rfl
  plus _ := rfl
  opt _ := rfl
  compl _ := rfl
  upTo _ := rfl
  one := rfl
  text := rfl
  use _ _ := rfl

theorem structural_matchesEmpty : Structural matchesEmpty where
  alt hr hs := by rw [matchesEmpty, matchesEmpty, hr, hs]
  cat hr hs := by rw [matchesEmpty, matchesEmpty, hr, hs]
  star _ := rfl
  plus h := h
  opt _ := rfl
  compl h := by rw [matchesEmpty, matchesEmpty, h]
  upTo _ := rfl
  one := rfl
  text := rfl
  use _ _ := rfl

/-- Whether the empty word matches, and the set for one end of the matches, which hangs on that. -/
def withEmpty (edge : (String → Bool) → (String → CodeSet) → Regex → CodeSet)
    (f : String → Bool × CodeSet) (r : Regex) : Bool × CodeSet :=
  (r.matchesEmpty fun n => (f n).1, edge (fun n => (f n).1) (fun n => (f n).2) r)

theorem structural_first (top : Nat) : Structural (withEmpty (first top)) where
  alt hr hs := by
    obtain ⟨hre, hr⟩ := Prod.mk.inj hr
    obtain ⟨hse, hs⟩ := Prod.mk.inj hs
    exact Prod.ext (structural_matchesEmpty.alt hre hse) (by simp only [withEmpty, first, hr, hs])
  cat hr hs := by
    obtain ⟨hre, hr⟩ := Prod.mk.inj hr
    obtain ⟨hse, hs⟩ := Prod.mk.inj hs
    exact Prod.ext (structural_matchesEmpty.cat hre hse)
      (by simp only [withEmpty, first, hr, hs, hre])
  star h := Prod.ext rfl (Prod.mk.inj h).2
  plus h := h
  opt h := Prod.ext rfl (Prod.mk.inj h).2
  compl h := Prod.ext (structural_matchesEmpty.compl (Prod.mk.inj h).1) rfl
  upTo _ := rfl
  one := rfl
  text := rfl
  use _ _ := rfl

theorem structural_last (top : Nat) : Structural (withEmpty (last top)) where
  alt hr hs := by
    obtain ⟨hre, hr⟩ := Prod.mk.inj hr
    obtain ⟨hse, hs⟩ := Prod.mk.inj hs
    exact Prod.ext (structural_matchesEmpty.alt hre hse) (by simp only [withEmpty, last, hr, hs])
  cat hr hs := by
    obtain ⟨hre, hr⟩ := Prod.mk.inj hr
    obtain ⟨hse, hs⟩ := Prod.mk.inj hs
    exact Prod.ext (structural_matchesEmpty.cat hre hse)
      (by simp only [withEmpty, last, hr, hs, hse])
  star h := Prod.ext rfl (Prod.mk.inj h).2
  plus h := h
  opt h := Prod.ext rfl (Prod.mk.inj h).2
  compl h := Prod.ext (structural_matchesEmpty.compl (Prod.mk.inj h).1) rfl
  upTo h := Prod.ext rfl (Prod.mk.inj h).2
  one := rfl
  text := rfl
  use _ _ := rfl

section

variable {edge : (String → Bool) → (String → CodeSet) → Regex → CodeSet} {r : Regex}
  {empties empties' : String → Bool} {ofUse ofUse' : String → CodeSet}

theorem Structural.edge_congr (h : Structural (withEmpty edge))
    (he : ∀ n ∈ r.macroUses, empties n = empties' n)
    (hu : ∀ n ∈ r.macroUses, ofUse n = ofUse' n) : edge empties ofUse r = edge empties' ofUse' r :=
  congrArg Prod.snd (h.isLocal (fun n => (empties n, ofUse n)) (fun n => (empties' n, ofUse' n)) r
    fun n hn => Prod.ext (he n hn) (hu n hn))

theorem Structural.edge_subst (h : Structural (withEmpty edge)) (g : String → Regex) :
    edge empties ofUse (r.subst g) =
      edge (fun n => (g n).matchesEmpty empties) (fun n => edge empties ofUse (g n)) r :=
  congrArg Prod.snd (h.commutes (fun n => (empties n, ofUse n)) g r)

theorem Structural.edge_local (h : Structural (withEmpty edge)) (empties : String → Bool) :
    Local (edge empties) :=
  fun _ _ _ hu => h.edge_congr (fun _ _ => rfl) hu

end

end Regex

/-! ## Expressions over a macro table -/

namespace MacroTable

variable {t : MacroTable} {r : Regex} {top : Nat}

theorem Grounded.language_le_words (h : t.Grounded r) : t.language top r ≤ words {c | c ≤ top} := by
  rw [h.language_eq top fun _ => 0]
  apply Regex.language_le_words
  rw [h.closed_resolve]
  simp

/-- All matches have the length. -/
theorem Grounded.length_eq (h : t.Grounded r) {n : Nat} (hn : t.length? r = some n) :
    ∀ w ∈ t.language top r, w.length = n :=
  h.follow_rel (R := fun n? L => ∀ n, n? = some n → ∀ w ∈ L, w.length = n)
    Regex.structural_length?.isLocal (Regex.structural_language top).isLocal
    (fun _ _ _ huse _ hn => Regex.length_eq huse hn) n hn

/-- The empty word is a match exactly if it is said to be. -/
theorem Grounded.matchesEmpty_iff (h : t.Grounded r) :
    t.matchesEmpty r = true ↔ [] ∈ t.language top r :=
  h.follow_rel (R := fun b L => b = true ↔ [] ∈ L) Regex.structural_matchesEmpty.isLocal
    (Regex.structural_language top).isLocal fun _ _ _ huse => Regex.matchesEmpty_iff huse

theorem Grounded.matchesEmpty_use_iff (h : t.Grounded r) {name : String} {d : Regex}
    (hname : name ∈ r.macroUses) (hd : t.definition? name = some d) :
    t.matchesEmpty (.use name) = true ↔ [] ∈ t.language top d := by
  obtain ⟨d', hd', hg⟩ := h.exists_definition hname
  rw [hd, Option.some.injEq] at hd'
  subst hd'
  rw [← hg.matchesEmpty_iff]
  unfold MacroTable.matchesEmpty
  rw [h.follow_use Regex.structural_matchesEmpty.isLocal Regex.structural_matchesEmpty.use hname hd]

/-- The sets for one end of the matches are large enough if they are as soon as those of the macros
are. -/
theorem Grounded.edge_encloses {edge : (String → CodeSet) → Regex → CodeSet}
    {ends : Language Nat → Set Nat} (h : t.Grounded r) (he : Regex.Local edge)
    (hstep : ∀ {r : Regex} {lang : String → Language Nat} {ofUse : String → CodeSet},
      (∀ name ∈ r.macroUses, (t.matchesEmpty (.use name) = true ↔ [] ∈ lang name)) →
      (∀ name ∈ r.macroUses, lang name ≤ words {c | c ≤ top}) →
      (∀ name ∈ r.macroUses, (ofUse name).Encloses (ends (lang name))) →
      (edge ofUse r).Encloses (ends (r.language top lang))) :
    (t.follow (fun _ => .upTo top) edge r).Encloses (ends (t.language top r)) := by
  induction h with
  | @intro r hdef hground ih =>
    have hg : t.Grounded r := ⟨hdef, hground⟩
    unfold language
    rw [hg.follow_unfold he, hg.follow_unfold (Regex.structural_language top).isLocal]
    apply hstep
    all_goals
      intro name hname
      obtain ⟨d, hd, hgd⟩ := hg.exists_definition hname
      rw [hd, Option.getD_some]
    · exact hg.matchesEmpty_use_iff hname hd
    · exact hgd.language_le_words
    · exact ih name hname d hd

/-- The set for the beginning has every code that a match begins with. -/
theorem Grounded.first_encloses (h : t.Grounded r) :
    (t.first top r).Encloses (firsts (t.language top r)) :=
  h.edge_encloses ((Regex.structural_first top).edge_local _) Regex.first_encloses

/-- The set for the end has every code that a match ends with. -/
theorem Grounded.last_encloses (h : t.Grounded r) :
    (t.last top r).Encloses (lasts (t.language top r)) :=
  h.edge_encloses ((Regex.structural_last top).edge_local _) Regex.last_encloses

end MacroTable

end ScannerGen
