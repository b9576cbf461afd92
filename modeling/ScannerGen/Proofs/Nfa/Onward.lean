import ScannerGen.Proofs.Nfa.Path
import ScannerGen.Proofs.Regex.Language

/-
  When edges are added to an automaton, every state of it has a language: the words by which routes
  lead on from there to the end. These languages solve one equation for each state that a new edge
  touches, so the language of the whole is found by rewriting.
-/

namespace ScannerGen.Nfa

open Computability

variable {nfa nfa' : Nfa} {N : Nat → Option Nat → Nat → Prop} {i a b l : Nat} {w : List Nat}
  {K : Language Nat}

/-- The words by which routes lead from `i` to `l`. -/
def onward (nfa : Nfa) (N : Nat → Option Nat → Nat → Prop) (l i : Nat) : Language Nat :=
  {w | Route nfa N l i w}

/-- The words by which routes lead on that are over at `a`, or go on from there by a new edge. -/
def leaving (nfa : Nfa) (N : Nat → Option Nat → Nat → Prop) (l a : Nat) : Language Nat :=
  {w | (a = l ∧ w = []) ∨ ∃ o b v, N a o b ∧ v ∈ nfa.onward N l b ∧ w = o.toList ++ v}

theorem Adds.path_iff_mem (h : Adds nfa nfa' N) : nfa'.Path i w l ↔ w ∈ nfa.onward N l i :=
  h.path_iff

/-- A route is an old path, and what leads on from the end of that. -/
theorem mem_onward_iff : w ∈ nfa.onward N l i ↔
    ∃ a u v, nfa.Path i u a ∧ v ∈ nfa.leaving N l a ∧ w = u ++ v := by
  constructor
  · intro r
    cases r with
    | last p => exact ⟨l, w, [], p, .inl ⟨rfl, rfl⟩, (List.append_nil w).symm⟩
    | hop p he q => exact ⟨_, _, _, p, .inr ⟨_, _, _, he, q, rfl⟩, rfl⟩
  · rintro ⟨a, u, v, p, ⟨rfl, rfl⟩ | ⟨o, b, v, he, q, rfl⟩, rfl⟩
    · rw [List.append_nil]
      exact .last p
    · exact .hop p he q

/-! ## Where routes leave old paths -/

/-- A route leaves the old paths from `i` at `a` only; the paths to there are those by `K`. -/
structure Leads (nfa : Nfa) (N : Nat → Option Nat → Nat → Prop) (l i a : Nat) (K : Language Nat) :
    Prop where
  only : ∀ {b w}, nfa.Path i w b → (b = l ∨ ∃ o j, N b o j) → b = a
  path_iff : ∀ w, nfa.Path i w a ↔ w ∈ K

theorem Leads.onward_eq (h : nfa.Leads N l i a K) :
    nfa.onward N l i = K * nfa.leaving N l a := by
  ext w
  rw [mem_onward_iff, Language.mem_mul]
  constructor
  · intro ⟨b, u, v, p, hv, hw⟩
    obtain rfl := h.only p (hv.imp And.left fun ⟨o, j, _, he, _⟩ => ⟨o, j, he⟩)
    exact ⟨u, (h.path_iff u).1 p, v, hv, hw.symm⟩
  · intro ⟨u, hu, v, hv, hw⟩
    exact ⟨a, u, v, (h.path_iff u).2 hu, hv, hw.symm⟩

/-- A route leaves a state without old edges at once. -/
theorem onward_eq_leaving (ha : ∀ o j, ¬nfa.Edge a o j) :
    nfa.onward N l a = nfa.leaving N l a := by
  have h : nfa.Leads N l a a 1 :=
    { only := fun p _ => (p.eq_of_stuck ha).1.symm
      path_iff := by
        intro w
        refine ⟨fun p => (p.eq_of_stuck ha).2, ?_⟩
        rintro rfl
        exact .refl a }
  rw [h.onward_eq, one_mul]

/-! ## What leads on by new edges -/

/-- A route is over at the end if there are no new edges. -/
theorem leaving_end (hN : ∀ o j, ¬N l o j) : nfa.leaving N l l = 1 := by
  ext w
  constructor
  · rintro (⟨-, rfl⟩ | ⟨o, b, v, he, -, -⟩)
    · rfl
    · exact absurd he (hN o b)
  · rintro rfl
    exact .inl ⟨rfl, rfl⟩

/-- A route goes on to one of the states that new edges lead to without reading. -/
theorem mem_leaving_iff {P : Nat → Prop} (ha : a ≠ l)
    (hN : ∀ o j, N a o j ↔ o = none ∧ P j) :
    w ∈ nfa.leaving N l a ↔ ∃ b, P b ∧ w ∈ nfa.onward N l b := by
  constructor
  · rintro (⟨h, -⟩ | ⟨o, b, v, he, hv, rfl⟩)
    · exact absurd h ha
    · obtain ⟨rfl, hb⟩ := (hN o b).1 he
      exact ⟨b, hb, hv⟩
  · intro ⟨b, hb, hw⟩
    exact .inr ⟨none, b, w, (hN none b).2 ⟨rfl, hb⟩, hw, rfl⟩

theorem leaving_eq_onward (ha : a ≠ l) (hN : ∀ o j, N a o j ↔ o = none ∧ j = b) :
    nfa.leaving N l a = nfa.onward N l b := by
  ext w
  rw [mem_leaving_iff ha hN, exists_eq_left]

theorem leaving_eq_add {c : Nat} (ha : a ≠ l)
    (hN : ∀ o j, N a o j ↔ o = none ∧ (j = b ∨ j = c)) :
    nfa.leaving N l a = nfa.onward N l b + nfa.onward N l c := by
  ext w
  rw [mem_leaving_iff ha hN, exists_eq_or_imp, exists_eq_left]
  exact Iff.rfl

/-- A state with loops that read the letters of `A` is left after a word of these. -/
theorem onward_eq_words_mul {A : Set Nat} (hstuck : ∀ o j, ¬nfa.Edge a o j) (ha : a ≠ l)
    (hN : ∀ o j, N a o j ↔ (∃ k ∈ A, o = some k) ∧ j = a ∨ o = none ∧ j = b) :
    nfa.onward N l a = words A * nfa.onward N l b := by
  ext w
  rw [Language.mem_mul]
  constructor
  · intro r
    generalize hi : a = i at r
    -- Only routes from `a` itself matter, and its loops come back to it.
    induction r with
    | last p => exact absurd (hi.trans (p.eq_of_stuck (hi ▸ hstuck)).1) ha
    | hop p he q ih =>
      subst hi
      obtain ⟨rfl, rfl⟩ := p.eq_of_stuck hstuck
      rcases (hN ..).1 he with ⟨⟨k, hk, rfl⟩, rfl⟩ | ⟨rfl, rfl⟩
      · obtain ⟨u, hu, v, hv, rfl⟩ := ih rfl
        exact ⟨k :: u, cons_mem_words.2 ⟨hk, hu⟩, v, hv, rfl⟩
      · exact ⟨[], nil_mem_words A, _, q, rfl⟩
  · rintro ⟨u, hu, v, hv, rfl⟩
    induction u with
    | nil => exact .hop (.refl a) ((hN none b).2 (.inr ⟨rfl, rfl⟩)) hv
    | cons k u ih =>
      obtain ⟨hk, hu⟩ := cons_mem_words.1 hu
      exact .hop (.refl a) ((hN (some k) a).2 (.inl ⟨⟨k, hk, rfl⟩, rfl⟩)) (ih hu)

/-- Where a route leaves the words of `K` to be over or to come back, it repeats these words. -/
theorem Leads.onward_eq_mul_kstar (h : nfa.Leads N l i a K) (ha : a ≠ l)
    (hN : ∀ o j, N a o j ↔ o = none ∧ (j = b ∨ j = i)) (hb : nfa.onward N l b = 1) :
    nfa.onward N l i = K * K∗ := by
  have hleaving : nfa.leaving N l a = 1 + nfa.onward N l i := by
    rw [leaving_eq_add ha hN, hb]
  apply le_antisymm
  · intro w r
    generalize hi : i = i' at r
    induction r with
    | last p => exact absurd (h.only (hi ▸ p) (.inl rfl)).symm ha
    | hop p he q ih =>
      subst hi
      obtain rfl := h.only p (.inr ⟨_, _, he⟩)
      apply Language.append_mem_mul ((h.path_iff _).1 p)
      rcases (hN ..).1 he with ⟨rfl, rfl | rfl⟩
      · have hq : _ ∈ nfa.onward N l _ := q
        rw [hb] at hq
        exact mem_kstar_iff.2 (.inl hq)
      · exact mem_kstar_iff.2 (.inr (ih rfl))
  · have hle : K * (1 + nfa.onward N l i) ≤ nfa.onward N l i :=
      le_of_eq (hleaving ▸ h.onward_eq.symm)
    rw [mul_add, mul_one] at hle
    obtain ⟨honce, hmore⟩ := add_le_iff.1 hle
    rw [← Language.mul_self_kstar_comm]
    exact kstar_mul_le honce hmore

end ScannerGen.Nfa
