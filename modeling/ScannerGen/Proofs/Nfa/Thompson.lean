import ScannerGen.Proofs.Nfa.Complement
import ScannerGen.Proofs.Nfa.Leaf

/-
  The fragment of an expression matches the words of classes that the expression matches
  (`builds_insert`). The building goes by the expression and the macros that it reaches, in the
  order in which they are defined in terms of each other.
-/

namespace ScannerGen

open Computability

namespace Build

open Nfa

variable {limit n : Nat} {act : Build Fragment} {K : Language Nat} {p : Partition}

theorem builds_complement (hact : Builds limit n act K) :
    Builds limit n (do complement limit (← act)) (rejects {k | k < n} K) := by
  rintro base hb rfl
  refine ensures_bind (hact.ensures hb rfl (.refl limit base) fun f nfa h hf => ?_)
  refine (ensures_complement (h.inRange hb) hf.start_lt hf.language).mono ?_
    fun _ _ h' => h'.of_apart h.toApart
  intro g nfa' ⟨h', hg, _⟩
  rw [h.numClasses] at hg
  exact ⟨h.trans h', hg.lower h.toApart h'.toApart⟩

/-! ## Expressions -/

section Insert

variable {isClass : String → Bool} {classes : String → Except Failure (List Nat)}
  {ofUse : String → Build Fragment} {values : String → Language Nat} {r : Regex} {t : MacroTable}

/-- What is collected are the classes that make up the words of `K`. -/
def Collects (p : Partition) (collected : Except Failure (List Nat)) (K : Language Nat) : Prop :=
  ∃ ks, collected = .ok ks ∧ (∀ k ∈ ks, k < p.numClasses) ∧ K = singles ks

theorem singles_append (ks ls : List Nat) : singles (ks ++ ls) = singles ks + singles ls := by
  ext w
  rw [Language.mem_add]
  simp only [singles, List.mem_append, or_and_right, exists_or]
  exact Iff.rfl

theorem collects_one (hp : p.Valid) {q : CodePattern} (hq : p.FineFor (.one q)) :
    Collects p (p.collect classes (.leaf (.one q))) (p.language values (.leaf (.one q))) := by
  obtain ⟨ks, hks, hlists⟩ := hp.classesOf_spec hq
  refine ⟨ks, by rw [Partition.collect, hks], hlists.lt, ?_⟩
  ext w
  constructor
  · rintro ⟨ks', k, hks', hk, rfl⟩
    rw [hks, Except.ok.injEq] at hks'
    exact ⟨k, hks' ▸ hk, rfl⟩
  · rintro ⟨k, hk, rfl⟩
    exact ⟨ks, k, hks, hk, rfl⟩

/-- Whatever is taken for a class is one. -/
theorem collects_collect (hp : p.Valid) (hleaf : ∀ l ∈ r.leaves, p.FineFor l)
    (hclass : ∀ name ∈ r.macroUses, isClass name = true → Collects p (classes name) (values name))
    (h : r.isCodeClass isClass = true) :
    Collects p (p.collect classes r) (p.language values r) := by
  induction r with
  | alt r s hr hs =>
    unfold Regex.isCodeClass at h
    rw [Bool.and_eq_true] at h
    simp only [Regex.leaves, Regex.macroUses_alt, List.mem_append] at hleaf hclass
    obtain ⟨ks, hks, hlt, hr⟩ := hr (fun l hl => hleaf l (.inl hl))
      (fun n hn => hclass n (.inl hn)) h.1
    obtain ⟨ls, hls, hlt', hs⟩ := hs (fun l hl => hleaf l (.inr hl))
      (fun n hn => hclass n (.inr hn)) h.2
    refine ⟨ks ++ ls, by rw [Partition.collect, hks, hls]; rfl, fun k hk => ?_, ?_⟩
    · exact (List.mem_append.1 hk).elim (hlt k) (hlt' k)
    · unfold Partition.language at hr hs ⊢
      unfold Regex.denote
      rw [hr, hs, singles_append]
  | leaf l =>
    cases l with
    | one q => exact collects_one hp (hleaf _ (List.mem_singleton_self _))
    | text s caseless => cases h
    | use name => exact hclass name (List.mem_singleton_self name) h
  | _ => cases h

theorem builds_text (hp : p.Valid) (values : String → Language Nat) {s : String} {caseless : Bool}
    (hs : p.FineFor (.text s caseless)) :
    Builds limit p.numClasses (insertText p limit s caseless)
      (p.leafLanguage values (.text s caseless)) := by
  have hlt : ∀ ks ∈ textClasses p caseless s.toList, ∀ k ∈ ks, k < p.numClasses := by
    intro ks hks
    obtain ⟨c, hc, rfl⟩ := List.mem_map.1 hks
    exact (hp.classesOfCode_spec (hs _ (List.mem_map.2 ⟨c, hc, rfl⟩))).lt
  have hlang : {w | List.Forall₂ (fun k ks => k ∈ ks) w (textClasses p caseless s.toList)} =
      p.leafLanguage values (.text s caseless) := by
    ext w
    exact List.forall₂_map_right_iff
  exact hlang ▸ builds_insertText hlt

theorem builds_class (hp : p.Valid) (hleaf : ∀ l ∈ r.leaves, p.FineFor l)
    (hclass : ∀ name ∈ r.macroUses, isClass name = true → Collects p (classes name) (values name))
    (h : r.isCodeClass isClass = true) :
    Builds limit p.numClasses (insertClasses limit (p.collect classes r))
      (p.language values r) := by
  obtain ⟨ks, hks, hlt, hlang⟩ := collects_collect hp hleaf hclass h
  rw [hks, hlang]
  exact builds_insertClasses hlt

/-- The fragment of an expression, given those of the macros that it uses. -/
theorem builds_insertWith (hp : p.Valid) (hleaf : ∀ l ∈ r.leaves, p.FineFor l)
    (huse : ∀ name ∈ r.macroUses, Builds limit p.numClasses (ofUse name) (values name))
    (hclass : ∀ name ∈ r.macroUses, isClass name = true →
      Collects p (classes name) (values name)) :
    Builds limit p.numClasses (insertWith p limit isClass classes ofUse r)
      (p.language values r) := by
  induction r with
  | alt r s hr hs =>
    unfold insertWith
    split
    · next h => exact builds_class hp hleaf hclass h
    · simp only [Regex.leaves, Regex.macroUses_alt, List.mem_append] at hleaf huse hclass
      exact builds_alt
        (hr (fun l h => hleaf l (.inl h)) (fun n h => huse n (.inl h)) fun n h => hclass n (.inl h))
        (hs (fun l h => hleaf l (.inr h)) (fun n h => huse n (.inr h)) fun n h => hclass n (.inr h))
  | cat r s hr hs =>
    simp only [Regex.leaves, Regex.macroUses_cat, List.mem_append] at hleaf huse hclass
    exact builds_cat
      (hr (fun l h => hleaf l (.inl h)) (fun n h => huse n (.inl h)) fun n h => hclass n (.inl h))
      (hs (fun l h => hleaf l (.inr h)) (fun n h => huse n (.inr h)) fun n h => hclass n (.inr h))
  | star r hr => exact builds_repeated true (hr hleaf huse hclass)
  | plus r hr => exact builds_repeated false (hr hleaf huse hclass)
  | opt r hr => exact builds_opt (hr hleaf huse hclass)
  | compl r hr => exact builds_complement (hr hleaf huse hclass)
  | upTo r hr =>
    have hr := hr hleaf huse hclass
    rw [insertWith_upTo]
    exact builds_cat (builds_complement (builds_around hr)) hr
  | leaf l =>
    cases l with
    | one q => exact builds_class hp hleaf hclass rfl
    | text s caseless => exact builds_text hp values (hleaf _ (List.mem_singleton_self _))
    | use name =>
      unfold insertWith
      split
      · next h => exact builds_class hp hleaf hclass h
      · exact huse name (List.mem_singleton_self name)

/-! ## Macro tables -/

theorem compositional_collect (p : Partition) : Regex.Compositional p.collect where
  alt hr hs := by rw [Partition.collect, Partition.collect, hr, hs]
  cat _ _ := rfl
  star _ := rfl
  plus _ := rfl
  opt _ := rfl
  compl _ := rfl
  upTo _ := rfl
  one := rfl
  text := rfl
  use h := h

theorem compositional_insertWith (p : Partition) (limit : Nat) (isClass : String → Bool)
    (classes : String → Except Failure (List Nat)) :
    Regex.Compositional (insertWith p limit isClass classes) where
  alt hr hs := by rw [insertWith, insertWith, hr, hs]
  cat hr hs := by rw [insertWith, insertWith, hr, hs]
  star h := by rw [insertWith, insertWith, h]
  plus h := by rw [insertWith, insertWith, h]
  opt h := by rw [insertWith, insertWith, h]
  compl h := by rw [insertWith, insertWith, h]
  upTo h := by rw [insertWith, insertWith, h]
  one := rfl
  text := rfl
  use {f g name} h := by simp only [Regex.use, insertWith, h]

/-- Definitions are followed deep enough. -/
theorem insert_eq_follow (hg : t.Grounded r) : insert p limit t r =
    t.follow (fun _ => throw (.breach .noSuchState))
      (insertWith p limit (fun name => t.isCodeClass (.use name))
        fun name => t.collect p (.use name)) r :=
  hg.followWithin_eq (compositional_insertWith p limit _ _).isLocal
    (Nat.le_mul_of_pos_right _ (Nat.succ_pos _))

/-- Whatever is taken for a class over a macro table is one. -/
theorem collects_over (hp : p.Valid) (hg : t.Grounded r)
    (hl : ∀ l, t.Occurs l r → p.FineFor l) (h : t.isCodeClass r = true) :
    Collects p (t.collect p r) (p.languageOver t r) := by
  induction hg with
  | @intro r hdef hground ih =>
    have hg : t.Grounded r := ⟨hdef, hground⟩
    unfold MacroTable.isCodeClass at h
    rw [hg.follow_unfold Regex.structural_isCodeClass.isLocal] at h
    rw [MacroTable.collect, hg.follow_unfold (compositional_collect p).isLocal,
      Partition.languageOver, hg.follow_unfold p.structural_language.isLocal]
    refine collects_collect hp (fun l hl' => hl l (.here hl')) (fun name hn hclass => ?_) h
    obtain ⟨d, hd⟩ := Option.isSome_iff_exists.1 (hdef name hn)
    rw [hd] at hclass ⊢
    exact ih name hn d hd (fun l hl' => hl l (.through hn hd hl')) hclass

/-- The fragment of an expression over a macro table matches what the expression matches. -/
theorem builds_insert (hp : p.Valid) (hg : t.Grounded r)
    (hl : ∀ l, t.Occurs l r → p.FineFor l) :
    Builds limit p.numClasses (insert p limit t r) (p.languageOver t r) := by
  have hlocal := (compositional_insertWith p limit (fun name => t.isCodeClass (.use name))
    fun name => t.collect p (.use name)).isLocal
  rw [insert_eq_follow hg]
  induction hg with
  | @intro r hdef hground ih =>
    have hg : t.Grounded r := ⟨hdef, hground⟩
    rw [hg.follow_unfold hlocal, Partition.languageOver,
      hg.follow_unfold p.structural_language.isLocal]
    refine builds_insertWith hp (fun l h => hl l (.here h)) (fun name hn => ?_)
      fun name hn hclass => ?_
    · obtain ⟨d, hd⟩ := Option.isSome_iff_exists.1 (hdef name hn)
      rw [hd]
      exact ih name hn d hd fun l h => hl l (.through hn hd h)
    · obtain ⟨d, hd⟩ := Option.isSome_iff_exists.1 (hdef name hn)
      have huse : ∀ {α : Type} {unknown : String → α} {eval : (String → α) → Regex → α},
          Regex.Local eval → (∀ f name, eval f (.use name) = f name) →
          t.follow unknown eval (.use name) = t.follow unknown eval d :=
        fun he hu => hg.follow_use he hu hn hd
      unfold MacroTable.isCodeClass at hclass
      rw [huse Regex.structural_isCodeClass.isLocal fun _ _ => rfl] at hclass
      unfold MacroTable.collect
      rw [huse (compositional_collect p).isLocal fun _ _ => rfl, hd]
      exact collects_over hp (hground name hn d hd) (fun l h => hl l (.through hn hd h)) hclass

end Insert

end Build

end ScannerGen
