import Mathlib.Computability.Language
import ScannerGen.Proofs.Spec.Survey

/-
  What expressions match. The language of an expression is defined over any letters, given the
  languages of its leaves. Over the codes of an alphabet this is what the author of a specification
  means (`Regex.language`), over the classes of a partition what the automata read
  (`Partition.language`). If the partition is fine for all leaves, then a word matches exactly if
  its classes do (`Partition.Valid.language_mirrors`).
-/

namespace ScannerGen

open Computability

variable {α β : Type}

/-! ## Words -/

/-- The words over the letters `A`. -/
def words (A : Set α) : Language α := {w | ∀ a ∈ w, a ∈ A}

/-- The words over the letters `A` that are not in `L`. -/
def rejects (A : Set α) (L : Language α) : Language α := {w | w ∈ words A ∧ w ∉ L}

theorem mem_words {A : Set α} {w : List α} : w ∈ words A ↔ ∀ a ∈ w, a ∈ A := Iff.rfl

theorem mem_rejects {A : Set α} {L : Language α} {w : List α} :
    w ∈ rejects A L ↔ w ∈ words A ∧ w ∉ L := Iff.rfl

theorem nil_mem_words (A : Set α) : [] ∈ words A := by simp [mem_words]

theorem cons_mem_words {A : Set α} {a : α} {w : List α} :
    a :: w ∈ words A ↔ a ∈ A ∧ w ∈ words A := by
  simp [mem_words]

theorem append_mem_words {A : Set α} {u v : List α} :
    u ++ v ∈ words A ↔ u ∈ words A ∧ v ∈ words A := by
  simp only [mem_words, List.mem_append, or_imp, forall_and]

/-- A repetition is over, or begins with a word and goes on. -/
theorem mem_kstar_iff {L : Language α} {w : List α} : w ∈ L∗ ↔ w = [] ∨ w ∈ L * L∗ := by
  conv_lhs => rw [← Language.one_add_self_mul_kstar_eq_kstar]
  exact Iff.rfl

/-- `L'` contains the images of the words in `L` and of no other words over `A`. -/
def Mirrors (f : α → β) (A : Set α) (L : Language α) (L' : Language β) : Prop :=
  ∀ w ∈ words A, w.map f ∈ L' ↔ w ∈ L

namespace Mirrors

variable {f : α → β} {A : Set α} {B : Set β} {L M : Language α} {L' M' : Language β}

theorem add (h : Mirrors f A L L') (h' : Mirrors f A M M') : Mirrors f A (L + M) (L' + M') := by
  intro w hw
  rw [Language.mem_add, Language.mem_add, h w hw, h' w hw]

theorem one : Mirrors f A 1 1 := by
  intro w _
  rw [Language.mem_one, Language.mem_one, List.map_eq_nil_iff]

theorem mul (h : Mirrors f A L L') (h' : Mirrors f A M M') : Mirrors f A (L * M) (L' * M') := by
  intro w hw
  rw [Language.mem_mul, Language.mem_mul]
  constructor
  · intro ⟨u', hu, v', hv, huv⟩
    obtain ⟨u, v, rfl, rfl, rfl⟩ := List.map_eq_append_iff.1 huv.symm
    rw [append_mem_words] at hw
    exact ⟨u, (h u hw.1).1 hu, v, (h' v hw.2).1 hv, rfl⟩
  · rintro ⟨u, hu, v, hv, rfl⟩
    rw [append_mem_words] at hw
    exact ⟨_, (h u hw.1).2 hu, _, (h' v hw.2).2 hv, (List.map_append ..).symm⟩

theorem kstar (h : Mirrors f A L L') : Mirrors f A L∗ L'∗ := by
  intro w hw
  rw [Language.mem_kstar, Language.mem_kstar]
  constructor
  · intro ⟨l, hl, hmem⟩
    induction l generalizing w with
    | nil => exact ⟨[], List.map_eq_nil_iff.1 hl, by simp⟩
    | cons u' l ih =>
      rw [List.flatten_cons] at hl
      obtain ⟨u, v, rfl, rfl, hv⟩ := List.map_eq_append_iff.1 hl
      rw [append_mem_words] at hw
      obtain ⟨hu, hmem⟩ := List.forall_mem_cons.1 hmem
      obtain ⟨m, rfl, hm⟩ := ih v hw.2 hv hmem
      exact ⟨u :: m, rfl, List.forall_mem_cons.2 ⟨(h u hw.1).1 hu, hm⟩⟩
  · rintro ⟨l, rfl, hmem⟩
    refine ⟨l.map (List.map f), List.map_flatten, ?_⟩
    intro u' hu'
    obtain ⟨u, hu, rfl⟩ := List.mem_map.1 hu'
    exact (h u fun a ha => hw a (List.mem_flatten.2 ⟨u, hu, ha⟩)).2 (hmem u hu)

theorem words (hf : ∀ a ∈ A, f a ∈ B) : Mirrors f A (words A) (words B) := by
  intro w hw
  refine iff_of_true ?_ hw
  intro b hb
  obtain ⟨a, ha, rfl⟩ := List.mem_map.1 hb
  exact hf a (hw a ha)

theorem rejects (hf : ∀ a ∈ A, f a ∈ B) (h : Mirrors f A L L') :
    Mirrors f A (rejects A L) (rejects B L') := by
  intro w hw
  rw [mem_rejects, mem_rejects, h w hw, Mirrors.words hf w hw]

end Mirrors

/-! ## Expressions -/

namespace Regex

/-- The words over the letters `A` that match, where `ofLeaf` tells which ones match a leaf. -/
def denote (A : Set α) (ofLeaf : Leaf → Language α) : Regex → Language α
  | alt r s => r.denote A ofLeaf + s.denote A ofLeaf
  | cat r s => r.denote A ofLeaf * s.denote A ofLeaf
  | star r => (r.denote A ofLeaf)∗
  | plus r => r.denote A ofLeaf * (r.denote A ofLeaf)∗
  | opt r => r.denote A ofLeaf + 1
  | compl r => rejects A (r.denote A ofLeaf)
  | upTo r => rejects A (words A * r.denote A ofLeaf * words A) * r.denote A ofLeaf
  | leaf l => ofLeaf l

/-- Two readings of the leaves that mirror each other extend to expressions. -/
theorem denote_mirrors {f : α → β} {A : Set α} {B : Set β} (hf : ∀ a ∈ A, f a ∈ B)
    {ofLeaf : Leaf → Language α} {ofLeaf' : Leaf → Language β} {r : Regex}
    (h : ∀ l ∈ r.leaves, Mirrors f A (ofLeaf l) (ofLeaf' l)) :
    Mirrors f A (r.denote A ofLeaf) (r.denote B ofLeaf') := by
  have hwords := Mirrors.words hf
  induction r with
  | alt r s hr hs =>
    simp only [leaves, List.mem_append] at h
    exact (hr fun l hl => h l (.inl hl)).add (hs fun l hl => h l (.inr hl))
  | cat r s hr hs =>
    simp only [leaves, List.mem_append] at h
    exact (hr fun l hl => h l (.inl hl)).mul (hs fun l hl => h l (.inr hl))
  | star r hr => exact (hr h).kstar
  | plus r hr => exact (hr h).mul (hr h).kstar
  | opt r hr => exact (hr h).add Mirrors.one
  | compl r hr => exact (hr h).rejects hf
  | upTo r hr => exact (((hwords.mul (hr h)).mul hwords).rejects hf).mul (hr h)
  | leaf l => exact h l (List.mem_singleton_self l)

/-- Only the reading of the uses of macros hangs on what the macros stand for. -/
structure ReadsUses (F : (String → Language α) → Leaf → Language α) : Prop where
  use : ∀ f name, F f (.use name) = f name
  other : ∀ f g l, (∀ name, l ≠ .use name) → F f l = F g l

variable {A : Set α} {F : (String → Language α) → Leaf → Language α}

theorem structural_denote (hF : ReadsUses F) : Structural fun f r => r.denote A (F f) where
  alt hr hs := by rw [denote, denote, hr, hs]
  cat hr hs := by rw [denote, denote, hr, hs]
  star h := by rw [denote, denote, h]
  plus h := by rw [denote, denote, h]
  opt h := by rw [denote, denote, h]
  compl h := by rw [denote, denote, h]
  upTo h := by rw [denote, denote, h]
  one := hF.other _ _ _ (by simp)
  text := hF.other _ _ _ (by simp)
  use := hF.use

end Regex

/-! ## The words of codes that match -/

/-- The code `c` of an alphabet that ends at `top` matches. -/
def CodePattern.Matches (top c : Nat) : CodePattern → Prop
  | code d caseless => c ≤ top ∧ (c = d ∨ caseless = true ∧ c ∈ caseVariants d)
  | oneOf s => c ≤ top ∧ c ∈ s
  | noneOf s => c ≤ top ∧ c ∉ s

theorem CodePattern.Matches.le_top {top c : Nat} {q : CodePattern} (h : q.Matches top c) :
    c ≤ top := by
  cases q <;> exact h.1

/-- The words of codes that match a leaf: one code, a code for every character, or whatever matches
the macro. -/
def Leaf.language (top : Nat) (ofUse : String → Language Nat) : Leaf → Language Nat
  | one q => {w | ∃ c, q.Matches top c ∧ w = [c]}
  | text s caseless => {w | List.Forall₂ (fun c (d : Char) =>
      (CodePattern.code d.toNat caseless).Matches top c) w s.toList}
  | use name => ofUse name

/-- The words of codes that match an expression whose macros match `ofUse`. -/
def Regex.language (top : Nat) (ofUse : String → Language Nat) (r : Regex) : Language Nat :=
  r.denote {c | c ≤ top} (Leaf.language top ofUse)

/-- The words of codes that match an expression over a macro table. -/
def MacroTable.language (t : MacroTable) (top : Nat) (r : Regex) : Language Nat :=
  t.follow (fun _ => 0) (Regex.language top) r

theorem readsUses_language (top : Nat) : Regex.ReadsUses (Leaf.language top) where
  use _ _ := rfl
  other _ _ l hl := by
    cases l with
    | use name => exact absurd rfl (hl name)
    | _ => rfl

theorem Regex.structural_language (top : Nat) : Structural (language top) :=
  structural_denote (readsUses_language top)

namespace MacroTable

variable {t t' : MacroTable} {r : Regex}

/-- The language of an expression is that of what it resolves to. -/
theorem Grounded.language_eq (h : t.Grounded r) (top : Nat) (f : String → Language Nat) :
    t.language top r = (t.resolve r).language top f :=
  h.follow_resolve (Regex.structural_language top).isLocal (Regex.structural_language top).commutes
    f

theorem language_eq_of_resolve_eq (h : t.Grounded r) (h' : t'.Grounded r)
    (heq : t'.resolve r = t.resolve r) (top : Nat) : t'.language top r = t.language top r := by
  rw [h.language_eq top fun _ => 0, h'.language_eq top fun _ => 0, heq]

end MacroTable

/-! ## The words of classes that match -/

namespace Partition

/-- The words of classes that match a leaf. -/
def leafLanguage (p : Partition) (ofUse : String → Language Nat) : Leaf → Language Nat
  | .one q => {w | ∃ ks k, p.classesOf q = .ok ks ∧ k ∈ ks ∧ w = [k]}
  | .text s caseless => {w | List.Forall₂ (fun k (d : Char) =>
      k ∈ p.classesOfCode d.toNat caseless) w s.toList}
  | .use name => ofUse name

/-- The words of classes that match an expression whose macros match `ofUse`. -/
def language (p : Partition) (ofUse : String → Language Nat) (r : Regex) : Language Nat :=
  r.denote {k | k < p.numClasses} (p.leafLanguage ofUse)

/-- The words of classes that match an expression over a macro table. -/
def languageOver (p : Partition) (t : MacroTable) (r : Regex) : Language Nat :=
  t.follow (fun _ => 0) p.language r

variable {p : Partition} {l : Leaf} {r : Regex} {ofUse ofUse' : String → Language Nat}

theorem readsUses_leafLanguage (p : Partition) : Regex.ReadsUses p.leafLanguage where
  use _ _ := rfl
  other _ _ l hl := by
    cases l with
    | use name => exact absurd rfl (hl name)
    | _ => rfl

theorem structural_language (p : Partition) : Regex.Structural p.language :=
  Regex.structural_denote p.readsUses_leafLanguage

theorem matches_code_iff {c d top : Nat} {caseless : Bool} (hc : c ≤ top) :
    (CodePattern.code d caseless).Matches top c ↔
      c ∈ (CodeSet.single d).withCase caseless := by
  rw [CodeSet.mem_withCase_single, List.mem_cons, CodePattern.Matches, and_iff_right hc]
  cases caseless <;> simp

theorem matches_iff_mem_codes {q : CodePattern} {c top : Nat} (hc : c ≤ top) :
    q.Matches top c ↔ c ∈ q.codes top := by
  cases q with
  | code d caseless => exact matches_code_iff hc
  | oneOf s => exact and_iff_right hc
  | noneOf s => exact CodeSet.mem_complement.symm

/-- A word matches a leaf exactly if its classes do. -/
theorem Valid.leaf_mirrors (hp : p.Valid) (hf : p.FineFor l)
    (huse : ∀ name, l = .use name →
      Mirrors p.classOf {c | c ≤ p.top} (ofUse name) (ofUse' name)) :
    Mirrors p.classOf {c | c ≤ p.top} (l.language p.top ofUse) (p.leafLanguage ofUse' l) := by
  intro w hw
  cases l with
  | one q =>
    obtain ⟨ks, hks, hlists⟩ := hp.classesOf_spec hf
    constructor
    · intro ⟨ks', k, hks', hk, hmap⟩
      rw [hks, Except.ok.injEq] at hks'
      subst hks'
      obtain ⟨c, rfl, rfl⟩ := List.map_eq_singleton_iff.1 hmap
      have hc : c ≤ p.top := hw c (List.mem_singleton_self c)
      exact ⟨c, (matches_iff_mem_codes hc).2 ((hlists.classOf_mem hc).1 hk), rfl⟩
    · rintro ⟨c, hc, rfl⟩
      have hle : c ≤ p.top := hw c (List.mem_singleton_self c)
      refine ⟨ks, p.classOf c, hks, ?_, rfl⟩
      exact (hlists.classOf_mem hle).2 ((matches_iff_mem_codes hle).1 hc)
  | text s caseless =>
    show List.Forall₂ _ _ _ ↔ List.Forall₂ _ _ _
    have hfine : ∀ d ∈ s.toList, p.Fine ((CodeSet.single d.toNat).withCase caseless) :=
      fun d hd => hf _ (List.mem_map.2 ⟨d, hd, rfl⟩)
    rw [List.forall₂_map_left_iff]
    generalize s.toList = ds at hfine
    induction w generalizing ds with
    | nil => simp
    | cons c w ih =>
      cases ds with
      | nil => simp
      | cons d ds =>
        obtain ⟨hd, hds⟩ := List.forall_mem_cons.1 hfine
        obtain ⟨hc, hw⟩ := cons_mem_words.1 hw
        rw [List.forall₂_cons, List.forall₂_cons, matches_code_iff hc,
          ← (hp.classesOfCode_spec hd).classOf_mem hc, IdSet.mem_toList]
        exact and_congr_right fun _ => ih hw ds hds
  | use name => exact huse name rfl w hw

/-- A word matches an expression without macros exactly if its classes do. -/
theorem Valid.language_mirrors (hp : p.Valid) (hc : r.Closed)
    (hf : ∀ l ∈ r.leaves, p.FineFor l) :
    Mirrors p.classOf {c | c ≤ p.top} (r.language p.top ofUse) (p.language ofUse' r) := by
  have hlt : ∀ c ∈ {c | c ≤ p.top}, p.classOf c ∈ {k | k < p.numClasses} := fun _ hc =>
    hp.classOf_lt hc
  apply Regex.denote_mirrors hlt
  intro l hl
  apply hp.leaf_mirrors (hf l hl)
  intro name hname
  have : name ∈ r.macroUses := Regex.mem_macroUses.2 (hname ▸ hl)
  rw [hc] at this
  exact absurd this List.not_mem_nil

/-- A word matches an expression over a macro table exactly if its classes do. -/
theorem Valid.languageOver_mirrors (hp : p.Valid) {t : MacroTable} (hg : t.Grounded r)
    (hl : ∀ l, t.Occurs l r → p.FineFor l) :
    Mirrors p.classOf {c | c ≤ p.top} (t.language p.top r) (p.languageOver t r) := by
  rw [hg.language_eq p.top fun _ => 0, languageOver,
    hg.follow_resolve p.structural_language.isLocal p.structural_language.commutes fun _ => 0]
  exact hp.language_mirrors hg.closed_resolve fun l h => hl l (hg.occurs_of_mem_resolve h)

end Partition

end ScannerGen
