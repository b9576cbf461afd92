import ScannerGen.Nfa.OfRegex
import ScannerGen.Proofs.Nfa.Growth
import ScannerGen.Proofs.Nfa.Onward

/-
  The fragments of operators. New states are wired to the fragments of the operands (`Wired`), and
  a path through the result goes by an old path from one new edge to the next. So for every place
  where an old path can begin there is a language of the words that lead on from there to the end.
  What an operator adds (`ensures_wireAlt` and its like) and which ends the result has
  (`Wired.alt_ends`) does not depend on the words of the operands; `Wired.alt` is about these.
-/

namespace ScannerGen

open Computability

namespace Nfa

variable {limit : Nat} {base mid nfa : Nfa} {N : Nat → Option Nat → Nat → Prop}

/-- What has been built since `mid` are new states and the edges `N`. -/
structure Wired (limit : Nat) (base mid nfa : Nfa) (N : Nat → Option Nat → Nat → Prop) : Prop where
  apart : Apart limit base nfa
  adds : Adds mid nfa N
  base_le : base.size ≤ mid.size
  size_le : mid.size ≤ nfa.size

theorem Wired.refl (h : Apart limit base nfa) : Wired limit base nfa nfa fun _ _ _ => False where
  apart := h
  adds := ⟨by simp⟩
  base_le := h.size_le
  size_le := Nat.le_refl _

theorem Wired.push (h : Wired limit base mid nfa N) (hlt : nfa.size < limit) :
    Wired limit base mid (nfa.push .blank) N where
  apart := h.apart.push hlt
  adds := ⟨fun i o j => edge_push_blank.trans (h.adds.edge i o j)⟩
  base_le := h.base_le
  size_le := by
    rw [size_push]
    exact Nat.le_succ_of_le h.size_le

theorem Wired.addEpsilon (h : Wired limit base mid nfa N) {i j : Nat}
    (hi : base.size ≤ i ∧ i < nfa.size) (hj : base.size ≤ j ∧ j < nfa.size) :
    Wired limit base mid (nfa.addEpsilon i j) fun a o b => N a o b ∨ a = i ∧ o = none ∧ b = j where
  apart := h.apart.addEpsilon hi hj
  adds := ⟨fun a o b => by rw [edge_addEpsilon hi.2, h.adds.edge, or_assoc]⟩
  base_le := h.base_le
  size_le := by
    rw [size_addEpsilon]
    exact h.size_le

theorem Wired.addMoves (h : Wired limit base mid nfa N) {i : Nat} {ms : List (Nat × Nat)}
    (hi : base.size ≤ i ∧ i < nfa.size) (hms : ∀ m ∈ ms, base.size ≤ m.2 ∧ m.2 < nfa.size) :
    Wired limit base mid (nfa.addMoves i ms) fun a o b =>
      N a o b ∨ a = i ∧ ∃ k, o = some k ∧ (k, b) ∈ ms where
  apart := h.apart.addMoves hi hms
  adds := ⟨fun a o b => by rw [edge_addMoves hi.2, h.adds.edge, or_assoc]⟩
  base_le := h.base_le
  size_le := by
    rw [size_addMoves]
    exact h.size_le

theorem Wired.congr {N' : Nat → Option Nat → Nat → Prop} (h : Wired limit base mid nfa N)
    (hN : ∀ a o b, N a o b ↔ N' a o b) : Wired limit base mid nfa N' :=
  ⟨h.apart, ⟨fun a o b => by rw [h.adds.edge, hN]⟩, h.base_le, h.size_le⟩

/-- The labels of the new edges are classes. -/
theorem Wired.grown (h : Wired limit base mid nfa N) (hm : Grown limit base mid)
    (hN : ∀ a k b, N a (some k) b → k < base.numClasses) : Grown limit base nfa where
  toApart := h.apart
  class_lt hi he := ((h.adds.edge ..).1 he).elim (hm.class_lt hi) (hN _ _ _)

/-- A state that was not there in the middle has only new edges. -/
theorem not_edge_of_ge {i : Nat} (hi : mid.size ≤ i) (o : Option Nat) (j : Nat) :
    ¬mid.Edge i o j := fun he => absurd he.lt_size (Nat.not_lt.2 hi)

end Nfa

namespace Build

open Nfa

variable {limit : Nat} {base mid nfa : Nfa} {N : Nat → Option Nat → Nat → Prop} {α : Type}
  {E : Failure → Nfa → Prop}

theorem ensures_wireState {Q : Nat → Nfa → Prop} (h : Wired limit base mid nfa N)
    (hok : ∀ nfa' : Nfa, nfa'.size = nfa.size + 1 → Wired limit base mid nfa' N → Q nfa.size nfa') :
    Ensures (newState limit) nfa Q (Stopped limit base) :=
  ensures_newState h.apart fun hlt => hok _ (size_push _) (h.push hlt)

theorem ensures_wireEpsilon {Q : Unit → Nfa → Prop} {i j : Nat} (h : Wired limit base mid nfa N)
    (hi : base.size ≤ i ∧ i < nfa.size) (hj : base.size ≤ j ∧ j < nfa.size)
    (hok : ∀ nfa' : Nfa, nfa'.size = nfa.size →
      Wired limit base mid nfa' (fun a o b => N a o b ∨ a = i ∧ o = none ∧ b = j) → Q () nfa') :
    Ensures (addEpsilon i j) nfa Q E :=
  ensures_addEpsilon hi.2 (hok _ (size_addEpsilon ..) (h.addEpsilon hi hj))

theorem ensures_wireEdges {Q : Unit → Nfa → Prop} {i : Nat} {ms : List (Nat × Nat)}
    (h : Wired limit base mid nfa N) (hi : base.size ≤ i ∧ i < nfa.size)
    (hms : ∀ m ∈ ms, base.size ≤ m.2 ∧ m.2 < nfa.size)
    (hok : ∀ nfa' : Nfa, nfa'.size = nfa.size →
      Wired limit base mid nfa' (fun a o b => N a o b ∨ a = i ∧ ∃ k, o = some k ∧ (k, b) ∈ ms) →
        Q () nfa') :
    Ensures (addEdges i ms) nfa Q E :=
  ensures_change hi.2 (hok _ (size_addMoves ..) (h.addMoves hi hms))

theorem ensures_wireMoves {Q : Unit → Nfa → Prop} {i j : Nat} {ks : List Nat}
    (h : Wired limit base mid nfa N)
    (hi : base.size ≤ i ∧ i < nfa.size) (hj : base.size ≤ j ∧ j < nfa.size)
    (hok : ∀ nfa' : Nfa, nfa'.size = nfa.size →
      Wired limit base mid nfa' (fun a o b => N a o b ∨ a = i ∧ (∃ k ∈ ks, o = some k) ∧ b = j) →
        Q () nfa') :
    Ensures (addMoves i ks j) nfa Q E := by
  have hmem : ∀ o b, (∃ k, o = some k ∧ (k, b) ∈ ks.map (·, j)) ↔
      (∃ k ∈ ks, o = some k) ∧ b = j := by
    intro o b
    simp only [List.mem_map, Prod.mk.injEq]
    constructor
    · rintro ⟨k, ho, k', hk, rfl, rfl⟩
      exact ⟨⟨_, hk, ho⟩, rfl⟩
    · rintro ⟨⟨k, hk, ho⟩, rfl⟩
      exact ⟨k, ho, k, hk, rfl, rfl⟩
  refine ensures_wireEdges h hi ?_ fun nfa' hsize hw => hok nfa' hsize (hw.congr fun a o b => ?_)
  · intro m hm
    obtain ⟨k, -, rfl⟩ := List.mem_map.1 hm
    exact hj
  · rw [hmem]

end Build

namespace Nfa

variable {limit : Nat} {base mid nfa : Nfa} {N : Nat → Option Nat → Nat → Prop} {f g : Fragment}
  {K L : Language Nat}

/-- A start that no edge enters, and a stop that no edge leaves, neither an old nor a new one. -/
theorem Wired.ends (h : Wired limit base mid nfa N) {start stop : Nat}
    (hstart : base.size ≤ start ∧ start < nfa.size) (hstop : base.size ≤ stop ∧ stop < nfa.size)
    (hne : start ≠ stop) (hentry : ∀ i o, base.size ≤ i → ¬(mid.Edge i o start ∨ N i o start))
    (hexit : ∀ o j, ¬(mid.Edge stop o j ∨ N stop o j)) : Ends base nfa ⟨start, stop⟩ where
  start_ge := hstart.1
  start_lt := hstart.2
  stop_ge := hstop.1
  stop_lt := hstop.2
  start_ne_stop := hne
  no_entry hi he := hentry _ _ hi ((h.adds.edge ..).1 he)
  no_exit he := hexit _ _ ((h.adds.edge ..).1 he)

/-- The ends are new states, so only new edges can enter and leave them. -/
theorem Wired.new_ends (h : Wired limit base mid nfa N) (hb : base.Linked)
    (hm : Apart limit base mid) {start stop : Nat} (hstart : mid.size ≤ start ∧ start < nfa.size)
    (hstop : mid.size ≤ stop ∧ stop < nfa.size) (hne : start ≠ stop)
    (hentry : ∀ i o, ¬N i o start) (hexit : ∀ o j, ¬N stop o j) :
    Ends base nfa ⟨start, stop⟩ := by
  refine h.ends ⟨Nat.le_trans h.base_le hstart.1, hstart.2⟩
    ⟨Nat.le_trans h.base_le hstop.1, hstop.2⟩ hne ?_ ?_
  · rintro i o - (he | he)
    · exact absurd (hm.linked hb he) (Nat.not_lt.2 hstart.1)
    · exact hentry i o he
  · rintro o j (he | he)
    · exact not_edge_of_ge hstop.1 o j he
    · exact hexit o j he

/-- Routes leave a fragment at its stop if no new edge begins elsewhere in it and the end does not
lie elsewhere in it. -/
theorem IsFragment.leads {l : Nat} (hf : IsFragment base nfa f K) (h : Apart limit base nfa)
    (h' : Apart limit nfa mid) (hend : base.size ≤ l → l < nfa.size → l = f.stop)
    (honly : ∀ a o b, base.size ≤ a → a < nfa.size → N a o b → a = f.stop) :
    mid.Leads N l f.start f.stop K where
  only p hb := by
    obtain ⟨hge, hlt⟩ := (h.path_between h' hf.start_ge hf.start_lt).2 p
    rcases hb with rfl | ⟨o, j, he⟩
    · exact hend hge hlt
    · exact honly _ o j hge hlt he
  path_iff := (hf.frame h h').language

/-! ## Operators -/

/-- The edges that make an alternation of `f` and `g`. -/
def AltEdge (f g : Fragment) (start stop a : Nat) (o : Option Nat) (b : Nat) : Prop :=
  a = start ∧ o = none ∧ b = f.start ∨ a = start ∧ o = none ∧ b = g.start ∨
    a = f.stop ∧ o = none ∧ b = stop ∨ a = g.stop ∧ o = none ∧ b = stop

/-- The edges that make a repetition of `f`. -/
def RepeatEdge (skip : Bool) (f : Fragment) (start stop a : Nat) (o : Option Nat) (b : Nat) :
    Prop :=
  a = start ∧ o = none ∧ b = f.start ∨ a = f.stop ∧ o = none ∧ b = stop ∨
    a = f.stop ∧ o = none ∧ b = f.start ∨ skip = true ∧ a = start ∧ o = none ∧ b = stop

/-- The edges that put any word over `A` before and after `f`. -/
def AroundEdge (A : Set Nat) (f : Fragment) (start before after stop a : Nat) (o : Option Nat)
    (b : Nat) : Prop :=
  a = before ∧ (∃ k ∈ A, o = some k) ∧ b = before ∨ a = after ∧ (∃ k ∈ A, o = some k) ∧ b = after ∨
    a = start ∧ o = none ∧ b = before ∨ a = before ∧ o = none ∧ b = f.start ∨
    a = f.stop ∧ o = none ∧ b = after ∨ a = after ∧ o = none ∧ b = stop

section Ends

variable {nfa₁ : Nfa} {start stop : Nat}

theorem Wired.cat_ends (h : Wired limit base mid nfa N)
    (hN : ∀ a o b, N a o b ↔ a = f.stop ∧ o = none ∧ b = g.start) (hf : Ends base nfa₁ f)
    (h₁ : Apart limit base nfa₁) (h₂ : Apart limit nfa₁ mid) (hg : Ends nfa₁ mid g) :
    Ends base nfa ⟨f.start, g.stop⟩ := by
  have hf' := hf.frame h₂
  have hg' := hg.lower h₁ h₂
  have hsize := h.size_le
  have hfbounds := hf.bounds
  have hgbounds := hg.bounds
  refine h.ends ⟨hf'.start_ge, Nat.lt_of_lt_of_le hf'.start_lt hsize⟩
    ⟨hg'.stop_ge, Nat.lt_of_lt_of_le hg'.stop_lt hsize⟩ (by omega) ?_ ?_
  · rintro i o hi (he | he)
    · exact hf'.no_entry hi he
    · have := ((hN ..).1 he).2.2
      omega
  · rintro o j (he | he)
    · exact hg'.no_exit he
    · have := ((hN ..).1 he).1
      omega

theorem Wired.opt_ends (h : Wired limit base mid nfa N)
    (hN : ∀ a o b, N a o b ↔ a = f.start ∧ o = none ∧ b = f.stop) (hf : Ends base mid f) :
    Ends base nfa f := by
  have hne := hf.start_ne_stop
  refine h.ends ⟨hf.start_ge, Nat.lt_of_lt_of_le hf.start_lt h.size_le⟩
    ⟨hf.stop_ge, Nat.lt_of_lt_of_le hf.stop_lt h.size_le⟩ hne ?_ ?_
  · rintro i o hi (he | he)
    · exact hf.no_entry hi he
    · exact hne ((hN ..).1 he).2.2
  · rintro o j (he | he)
    · exact hf.no_exit he
    · exact hne ((hN ..).1 he).1.symm

theorem Wired.alt_ends (h : Wired limit base mid nfa N)
    (hN : ∀ a o b, N a o b ↔ AltEdge f g start stop a o b) (hb : base.Linked)
    (hm : Apart limit base mid) (hf : Ends base mid f) (hg : Ends base mid g)
    (hstart : mid.size ≤ start ∧ start < nfa.size) (hstop : mid.size ≤ stop ∧ stop < nfa.size)
    (hne : start ≠ stop) : Ends base nfa ⟨start, stop⟩ := by
  have hfbounds := hf.bounds
  have hgbounds := hg.bounds
  refine h.new_ends hb hm hstart hstop hne ?_ ?_
  · intro i o he
    rw [hN, AltEdge] at he
    omega
  · intro o j he
    rw [hN, AltEdge] at he
    omega

theorem Wired.repeated_ends {skip : Bool} (h : Wired limit base mid nfa N)
    (hN : ∀ a o b, N a o b ↔ RepeatEdge skip f start stop a o b) (hb : base.Linked)
    (hm : Apart limit base mid) (hf : Ends base mid f)
    (hstart : mid.size ≤ start ∧ start < nfa.size) (hstop : mid.size ≤ stop ∧ stop < nfa.size)
    (hne : start ≠ stop) : Ends base nfa ⟨start, stop⟩ := by
  have hfbounds := hf.bounds
  refine h.new_ends hb hm hstart hstop hne ?_ ?_
  · intro i o he
    rw [hN, RepeatEdge] at he
    omega
  · intro o j he
    rw [hN, RepeatEdge] at he
    omega

/-- The new states were there before `f` and had no edges. -/
theorem Wired.around_ends {before after : Nat} {A : Set Nat} (h : Wired limit base mid nfa N)
    (hN : ∀ a o b, N a o b ↔ AroundEdge A f start before after stop a o b)
    (horder : base.size ≤ start ∧ start < before ∧ before < after ∧ after < stop ∧
      stop < nfa₁.size)
    (hblank : ∀ {a o b}, base.size ≤ a → ¬nfa₁.Edge a o b) (h₂ : Apart limit nfa₁ mid)
    (hf : Ends nfa₁ mid f) : Ends base nfa ⟨start, stop⟩ := by
  have hfbounds := hf.bounds
  have hsize := h₂.size_le
  have hsize' := h.size_le
  refine h.ends (by omega) (by omega) (by omega) ?_ ?_
  · rintro i o hi (he | he)
    · rcases Nat.lt_or_ge i nfa₁.size with hlt | hge
      · exact hblank hi ((h₂.old_edge hlt).1 he)
      · have := (h₂.edge hge he).1
        omega
    · rw [hN, AroundEdge] at he
      omega
  · rintro o j (he | he)
    · exact hblank (by omega) ((h₂.old_edge (by omega)).1 he)
    · rw [hN, AroundEdge] at he
      omega

end Ends

section Words

variable {nfa₁ : Nfa} {start stop : Nat}

/-- `f` and then `g`. -/
theorem Wired.cat (h : Wired limit base mid nfa N)
    (hN : ∀ a o b, N a o b ↔ a = f.stop ∧ o = none ∧ b = g.start)
    (h₁ : Apart limit base nfa₁) (hf : IsFragment base nfa₁ f K)
    (h₂ : Apart limit nfa₁ mid) (hg : IsFragment nfa₁ mid g L) :
    IsFragment base nfa ⟨f.start, g.stop⟩ (K * L) := by
  have hends := h.cat_ends hN hf.toEnds h₁ h₂ hg.toEnds
  have hfbounds := hf.bounds
  have hgbounds := hg.bounds
  have hfrom : ∀ a o b, N a o b → a = f.stop := fun a o b he => ((hN ..).1 he).1
  have hexit : ∀ o j, ¬N g.stop o j := fun o j he => hends.no_exit ((h.adds.edge ..).2 (.inr he))
  have hfrom_stop : ∀ o j, N f.stop o j ↔ o = none ∧ j = g.start := by simp [hN]
  have hleads : mid.Leads N g.stop f.start f.stop K :=
    hf.leads h₁ h₂ (by omega) fun a o b _ _ => hfrom a o b
  have hleads' : mid.Leads N g.stop g.start g.stop L := by
    refine hg.leads h₂ (.refl limit mid) (fun _ _ => rfl) fun a o b _ _ he => ?_
    have := hfrom _ _ _ he
    omega
  refine ⟨hends, fun w => ?_⟩
  rw [h.adds.path_iff_mem, hleads.onward_eq, leaving_eq_onward (by omega) hfrom_stop,
    hleads'.onward_eq, leaving_end hexit, mul_one]

/-- `f` or nothing. -/
theorem Wired.opt (h : Wired limit base mid nfa N)
    (hN : ∀ a o b, N a o b ↔ a = f.start ∧ o = none ∧ b = f.stop)
    (hm : Apart limit base mid) (hf : IsFragment base mid f K) :
    IsFragment base nfa f (K + 1) := by
  have hends := h.opt_ends hN hf.toEnds
  have hne := hf.start_ne_stop
  have hexit : ∀ o j, ¬N f.stop o j := fun o j he => hends.no_exit ((h.adds.edge ..).2 (.inr he))
  have hend : mid.leaving N f.stop f.stop = 1 := leaving_end hexit
  have hfrom_start : ∀ o j, N f.start o j ↔ o = none ∧ j = f.stop := by simp [hN]
  have hskip : mid.leaving N f.stop f.start = 1 := by
    rw [leaving_eq_onward hne hfrom_start, onward_eq_leaving fun _ _ => hf.no_exit, hend]
  refine ⟨hends, fun w => ?_⟩
  rw [h.adds.path_iff_mem, mem_onward_iff]
  constructor
  · rintro ⟨a, u, v, p, hv, rfl⟩
    -- The old path ends at the stop, or at the start, where it reads nothing.
    have ha : a = f.stop ∨ a = f.start := by
      rcases hv with ⟨ha, -⟩ | ⟨o, b, v, he, -, -⟩
      · exact .inl ha
      · exact .inr ((hN ..).1 he).1
    rcases ha with rfl | rfl
    · obtain rfl : v = [] := by rwa [hend] at hv
      rw [List.append_nil]
      exact .inl ((hf.language u).1 p)
    · obtain rfl : v = [] := by rwa [hskip] at hv
      rw [(hf.no_return hm p hf.start_ge).2]
      exact .inr rfl
  · rintro (hw | rfl)
    · exact ⟨f.stop, w, [], (hf.language w).2 hw, .inl ⟨rfl, rfl⟩, (List.append_nil w).symm⟩
    · exact ⟨f.start, [], [], .refl _, hskip ▸ rfl, rfl⟩

/-- Any word, then `f`, then any word, between states that were there before `f` and had no
edges. -/
theorem Wired.around {before after : Nat} {A : Set Nat} (h : Wired limit base mid nfa N)
    (hN : ∀ a o b, N a o b ↔ AroundEdge A f start before after stop a o b)
    (horder : base.size ≤ start ∧ start < before ∧ before < after ∧ after < stop ∧
      stop < nfa₁.size)
    (hblank : ∀ {a o b}, base.size ≤ a → ¬nfa₁.Edge a o b)
    (h₂ : Apart limit nfa₁ mid) (hf : IsFragment nfa₁ mid f K) :
    IsFragment base nfa ⟨start, stop⟩ (words A * K * words A) := by
  have hends := h.around_ends hN horder hblank h₂ hf.toEnds
  have hbounds := hf.bounds
  have hsize := h₂.size_le
  have hstay : ∀ {a}, base.size ≤ a → a < nfa₁.size → ∀ o b, ¬mid.Edge a o b :=
    fun hge hlt o b he => hblank hge ((h₂.old_edge hlt).1 he)
  have hexit : ∀ o j, ¬N stop o j := fun o j he => hends.no_exit ((h.adds.edge ..).2 (.inr he))
  have hleads : mid.Leads N stop f.start f.stop K := by
    refine hf.leads h₂ (.refl limit mid) (by omega) fun a o b hge _ he => ?_
    rw [hN, AroundEdge] at he
    omega
  have hfrom_start : ∀ o j, N start o j ↔ o = none ∧ j = before := by grind [AroundEdge]
  have hfrom_before : ∀ o j, N before o j ↔
      (∃ k ∈ A, o = some k) ∧ j = before ∨ o = none ∧ j = f.start := by grind [AroundEdge]
  have hfrom_stop : ∀ o j, N f.stop o j ↔ o = none ∧ j = after := by grind [AroundEdge]
  have hfrom_after : ∀ o j, N after o j ↔
      (∃ k ∈ A, o = some k) ∧ j = after ∨ o = none ∧ j = stop := by grind [AroundEdge]
  have hlang := calc mid.onward N stop start
    _ = mid.onward N stop before := by
      rw [onward_eq_leaving (hstay (by omega) (by omega)), leaving_eq_onward (by omega) hfrom_start]
    _ = words A * mid.onward N stop f.start :=
      onward_eq_words_mul (hstay (by omega) (by omega)) (by omega) hfrom_before
    _ = words A * (K * mid.onward N stop after) := by
      rw [hleads.onward_eq, leaving_eq_onward (by omega) hfrom_stop]
    _ = words A * K * words A := by
      rw [onward_eq_words_mul (hstay (by omega) (by omega)) (by omega) hfrom_after,
        onward_eq_leaving (hstay (by omega) (by omega)), leaving_end hexit, mul_one, mul_assoc]
  refine ⟨hends, fun w => ?_⟩
  rw [h.adds.path_iff_mem, hlang]

/-- `f` or `g`. -/
theorem Wired.alt (h : Wired limit base mid nfa N)
    (hN : ∀ a o b, N a o b ↔ AltEdge f g start stop a o b) (hb : base.Linked)
    (hstart : mid.size ≤ start ∧ start < nfa.size) (hstop : mid.size ≤ stop ∧ stop < nfa.size)
    (hne : start ≠ stop) (h₁ : Apart limit base nfa₁) (hf : IsFragment base nfa₁ f K)
    (h₂ : Apart limit nfa₁ mid) (hg : IsFragment nfa₁ mid g L) :
    IsFragment base nfa ⟨start, stop⟩ (K + L) := by
  have hends := h.alt_ends hN hb (h₁.trans h₂) (hf.toEnds.frame h₂) (hg.toEnds.lower h₁ h₂) hstart
    hstop hne
  have hfbounds := hf.bounds
  have hgbounds := hg.bounds
  have hexit : ∀ o j, ¬N stop o j := fun o j he => hends.no_exit ((h.adds.edge ..).2 (.inr he))
  have hleads : mid.Leads N stop f.start f.stop K := by
    refine hf.leads h₁ h₂ (by omega) fun a o b _ hlt he => ?_
    rw [hN, AltEdge] at he
    omega
  have hleads' : mid.Leads N stop g.start g.stop L := by
    refine hg.leads h₂ (.refl limit mid) (by omega) fun a o b hge hlt he => ?_
    rw [hN, AltEdge] at he
    omega
  have hfrom_start : ∀ o j, N start o j ↔ o = none ∧ (j = f.start ∨ j = g.start) := by
    grind [AltEdge]
  have hfrom_stop : ∀ a, a = f.stop ∨ a = g.stop → ∀ o j, N a o j ↔ o = none ∧ j = stop := by
    grind [AltEdge]
  have hend : mid.onward N stop stop = 1 := by
    rw [onward_eq_leaving (not_edge_of_ge hstop.1), leaving_end hexit]
  have hlang := calc mid.onward N stop start
    _ = mid.onward N stop f.start + mid.onward N stop g.start := by
      rw [onward_eq_leaving (not_edge_of_ge hstart.1), leaving_eq_add hne hfrom_start]
    _ = K + L := by
      rw [hleads.onward_eq, leaving_eq_onward (by omega) (hfrom_stop _ (.inl rfl)),
        hleads'.onward_eq, leaving_eq_onward (by omega) (hfrom_stop _ (.inr rfl)), hend, mul_one,
        mul_one]
  refine ⟨hends, fun w => ?_⟩
  rw [h.adds.path_iff_mem, hlang]

/-- `f` once or more often, or not at all if `skip`. -/
theorem Wired.repeated {skip : Bool} (h : Wired limit base mid nfa N)
    (hN : ∀ a o b, N a o b ↔ RepeatEdge skip f start stop a o b) (hb : base.Linked)
    (hstart : mid.size ≤ start ∧ start < nfa.size)
    (hstop : mid.size ≤ stop ∧ stop < nfa.size) (hne : start ≠ stop) (hm : Apart limit base mid)
    (hf : IsFragment base mid f K) :
    IsFragment base nfa ⟨start, stop⟩ (if skip then K∗ else K * K∗) := by
  have hends := h.repeated_ends hN hb hm hf.toEnds hstart hstop hne
  have hbounds := hf.bounds
  have hexit : ∀ o j, ¬N stop o j := fun o j he => hends.no_exit ((h.adds.edge ..).2 (.inr he))
  have hleads : mid.Leads N stop f.start f.stop K := by
    refine hf.leads hm (.refl limit mid) (by omega) fun a o b _ hlt he => ?_
    rw [hN, RepeatEdge] at he
    omega
  have hend : mid.onward N stop stop = 1 := by
    rw [onward_eq_leaving (not_edge_of_ge hstop.1), leaving_end hexit]
  have hfrom_stop : ∀ o j, N f.stop o j ↔ o = none ∧ (j = stop ∨ j = f.start) := by
    grind [RepeatEdge]
  have honce : mid.onward N stop f.start = K * K∗ :=
    hleads.onward_eq_mul_kstar (by omega) hfrom_stop hend
  have hlang : mid.onward N stop start = if skip then K∗ else K * K∗ := by
    rw [onward_eq_leaving (not_edge_of_ge hstart.1)]
    cases skip with
    | false =>
      have hfrom_start : ∀ o j, N start o j ↔ o = none ∧ j = f.start := by grind [RepeatEdge]
      rw [leaving_eq_onward hne hfrom_start, honce]
      rfl
    | true =>
      have hfrom_start : ∀ o j, N start o j ↔ o = none ∧ (j = stop ∨ j = f.start) := by
        grind [RepeatEdge]
      rw [leaving_eq_add hne hfrom_start, honce, hend, Language.one_add_self_mul_kstar_eq_kstar]
      rfl
  refine ⟨hends, fun w => ?_⟩
  rw [h.adds.path_iff_mem, hlang]

end Words

end Nfa

namespace Build

open Nfa

section Wiring

variable {limit : Nat} {base mid : Nfa} {f g : Fragment} {Q : Fragment → Nfa → Prop}

/-- Two fragments side by side, between a new start and a new end. -/
def alternatives (limit : Nat) (f g : Fragment) : Build Fragment := do
  let start ← newState limit
  let stop ← newState limit
  addEpsilon start f.start
  addEpsilon start g.start
  addEpsilon f.stop stop
  addEpsilon g.stop stop
  pure ⟨start, stop⟩

theorem ensures_wireAlt (h : Apart limit base mid) (hf : Ends base mid f) (hg : Ends base mid g)
    (hok : ∀ start stop nfa, start = mid.size → stop = start + 1 → stop < nfa.size →
      Wired limit base mid nfa (AltEdge f g start stop) → Q ⟨start, stop⟩ nfa) :
    Ensures (alternatives limit f g) mid Q (Stopped limit base) := by
  have := hf.bounds
  have := hg.bounds
  refine ensures_bind (ensures_wireState (.refl h) fun nfa₁ h₁ h => ?_)
  refine ensures_bind (ensures_wireState h fun nfa₂ h₂ h => ?_)
  refine ensures_bind (ensures_wireEpsilon h (by omega) (by omega) fun nfa₃ h₃ h => ?_)
  refine ensures_bind (ensures_wireEpsilon h (by omega) (by omega) fun nfa₄ h₄ h => ?_)
  refine ensures_bind (ensures_wireEpsilon h (by omega) (by omega) fun nfa₅ h₅ h => ?_)
  refine ensures_bind (ensures_wireEpsilon h (by omega) (by omega) fun nfa₆ h₆ h => ?_)
  exact ensures_pure (hok _ _ _ rfl h₁ (by omega) (h.congr (by simp [AltEdge, or_assoc])))

theorem ensures_wireRepeated (skip : Bool) (h : Apart limit base mid) (hf : Ends base mid f)
    (hok : ∀ start stop nfa, start = mid.size → stop = start + 1 → stop < nfa.size →
      Wired limit base mid nfa (RepeatEdge skip f start stop) → Q ⟨start, stop⟩ nfa) :
    Ensures (repeated limit skip f) mid Q (Stopped limit base) := by
  have := hf.bounds
  refine ensures_bind (ensures_wireState (.refl h) fun nfa₁ h₁ h => ?_)
  refine ensures_bind (ensures_wireState h fun nfa₂ h₂ h => ?_)
  refine ensures_bind (ensures_wireEpsilon h (by omega) (by omega) fun nfa₃ h₃ h => ?_)
  refine ensures_bind (ensures_wireEpsilon h (by omega) (by omega) fun nfa₄ h₄ h => ?_)
  refine ensures_bind (ensures_wireEpsilon h (by omega) (by omega) fun nfa₅ h₅ h => ?_)
  cases skip with
  | false =>
    exact ensures_pure (hok _ _ _ rfl h₁ (by omega) (h.congr (by simp [RepeatEdge, or_assoc])))
  | true =>
    refine ensures_bind (ensures_wireEpsilon h (by omega) (by omega) fun nfa₆ h₆ h => ?_)
    exact ensures_pure (hok _ _ _ rfl h₁ (by omega) (h.congr (by simp [RepeatEdge, or_assoc])))

/-- What `act` builds, with any word before it and any word after it. -/
def around (limit : Nat) (act : Build Fragment) : Build Fragment := do
  let start ← newState limit
  let before ← newState limit
  let after ← newState limit
  let stop ← newState limit
  let inner ← act
  let all := List.range (← get).numClasses
  addMoves before all before
  addMoves after all after
  addEpsilon start before
  addEpsilon before inner.start
  addEpsilon inner.stop after
  addEpsilon after stop
  pure ⟨start, stop⟩

/-- `act` builds on `nfa₁`, where the new states have no edges yet. -/
theorem ensures_wireAround {act : Build Fragment} {E : Failure → Nfa → Prop}
    (hE : ∀ {e nfa}, Stopped limit base e nfa → E e nfa)
    (hact : ∀ nfa₁ start before after stop, Apart limit base nfa₁ →
      (base.size ≤ start ∧ start < before ∧ before < after ∧ after < stop ∧ stop < nfa₁.size) →
      (∀ {a o b}, nfa₁.Edge a o b ↔ base.Edge a o b) →
      Ensures act nfa₁ (fun f mid => Apart limit nfa₁ mid ∧ Ends nfa₁ mid f ∧ ∀ nfa,
        Wired limit base mid nfa (AroundEdge {k | k < base.numClasses} f start before after stop) →
          Q ⟨start, stop⟩ nfa) E) :
    Ensures (around limit act) base Q E := by
  have hnew : ∀ {nfa : Nfa} {N : Nat → Option Nat → Nat → Prop} {Q : Nat → Nfa → Prop},
      Wired limit base base nfa N → (∀ nfa' : Nfa, nfa'.size = nfa.size + 1 →
        Wired limit base base nfa' N → Q nfa.size nfa') → Ensures (newState limit) nfa Q E :=
    fun h hok => (ensures_wireState h hok).mono (fun _ _ h => h) fun _ _ => hE
  refine ensures_bind (hnew (.refl (.refl limit base)) fun nfa₁ h₁ h => ?_)
  refine ensures_bind (hnew h fun nfa₂ h₂ h => ?_)
  refine ensures_bind (hnew h fun nfa₃ h₃ h => ?_)
  refine ensures_bind (hnew h fun nfa₄ h₄ h => ?_)
  have hedge : ∀ {a o b}, nfa₄.Edge a o b ↔ base.Edge a o b := by simp [h.adds.edge]
  refine ensures_bind ((hact nfa₄ base.size nfa₁.size nfa₂.size nfa₃.size h.apart (by omega)
    hedge).mono ?_ fun _ _ h => h)
  intro f mid ⟨h₅, hf, hok⟩
  have hm := h.apart.trans h₅
  have := h₅.size_le
  have := hf.bounds
  refine ensures_bind (ensures_get ?_)
  refine ensures_bind (ensures_wireMoves (.refl hm) (by omega) (by omega) fun nfa₆ h₆ h => ?_)
  refine ensures_bind (ensures_wireMoves h (by omega) (by omega) fun nfa₇ h₇ h => ?_)
  refine ensures_bind (ensures_wireEpsilon h (by omega) (by omega) fun nfa₈ h₈ h => ?_)
  refine ensures_bind (ensures_wireEpsilon h (by omega) (by omega) fun nfa₉ h₉ h => ?_)
  refine ensures_bind (ensures_wireEpsilon h (by omega) (by omega) fun nfa₁₀ h₁₀ h => ?_)
  refine ensures_bind (ensures_wireEpsilon h (by omega) (by omega) fun nfa₁₁ h₁₁ h => ?_)
  refine ensures_pure (hok _ (h.congr fun a o b => ?_))
  simp only [AroundEdge, false_or, or_assoc, hm.numClasses, List.mem_range, Set.mem_ofPred_eq]

end Wiring

variable {limit n : Nat} {act act' : Build Fragment} {K L : Language Nat}

theorem builds_cat (hact : Builds limit n act K) (hact' : Builds limit n act' L) :
    Builds limit n (do
      let f ← act
      let g ← act'
      addEpsilon f.stop g.start
      pure ⟨f.start, g.stop⟩) (K * L) := by
  intro base hb hn
  refine ensures_bind (hact.ensures hb hn (.refl limit base) fun f nfa₁ h₁ hf => ?_)
  refine ensures_bind (hact'.ensures hb hn h₁ fun g nfa₂ h₂ hg => ?_)
  have hf' := (hf.toEnds.frame h₂.toApart).bounds
  have hg' := (hg.toEnds.lower h₁.toApart h₂.toApart).bounds
  refine ensures_bind (ensures_wireEpsilon (.refl (h₁.trans h₂).toApart) hf'.2 hg'.1
    fun nfa _ h => ?_)
  exact ensures_pure ⟨h.grown (h₁.trans h₂) (by simp), h.cat (by simp) h₁.toApart hf h₂.toApart hg⟩

theorem builds_opt (hact : Builds limit n act K) :
    Builds limit n (do
      let f ← act
      addEpsilon f.start f.stop
      pure f) (K + 1) := by
  intro base hb hn
  refine ensures_bind (hact.ensures hb hn (.refl limit base) fun f nfa₁ h₁ hf => ?_)
  refine ensures_bind (ensures_wireEpsilon (.refl h₁.toApart) hf.bounds.1 hf.bounds.2
    fun nfa _ h => ?_)
  exact ensures_pure ⟨h.grown h₁ (by simp), h.opt (by simp) h₁.toApart hf⟩

theorem builds_alt (hact : Builds limit n act K) (hact' : Builds limit n act' L) :
    Builds limit n (do alternatives limit (← act) (← act')) (K + L) := by
  intro base hb hn
  refine ensures_bind (hact.ensures hb hn (.refl limit base) fun f nfa₁ h₁ hf => ?_)
  refine ensures_bind (hact'.ensures hb hn h₁ fun g nfa₂ h₂ hg => ?_)
  refine ensures_wireAlt (h₁.trans h₂).toApart (hf.toEnds.frame h₂.toApart)
    (hg.toEnds.lower h₁.toApart h₂.toApart) fun start stop nfa hstart hstop hlt h => ?_
  exact ⟨h.grown (h₁.trans h₂) (by simp [AltEdge]), h.alt (fun _ _ _ => .rfl) hb.linked (by omega)
    (by omega) (by omega) h₁.toApart hf h₂.toApart hg⟩

theorem builds_repeated (skip : Bool) (hact : Builds limit n act K) :
    Builds limit n (do repeated limit skip (← act)) (if skip then K∗ else K * K∗) := by
  intro base hb hn
  refine ensures_bind (hact.ensures hb hn (.refl limit base) fun f mid hm hf => ?_)
  refine ensures_wireRepeated skip hm.toApart hf.toEnds fun start stop nfa hstart hstop hlt h => ?_
  exact ⟨h.grown hm (by simp [RepeatEdge]), h.repeated (fun _ _ _ => .rfl) hb.linked (by omega)
    (by omega) (by omega) hm.toApart hf⟩

theorem builds_around (hact : Builds limit n act K) :
    Builds limit n (around limit act) (words {k | k < n} * K * words {k | k < n}) := by
  rintro base hb rfl
  refine ensures_wireAround id fun nfa₁ start before after stop h₁ horder hedge => ?_
  have hg₁ : Grown limit base nfa₁ :=
    ⟨h₁, fun hi he => absurd (hedge.1 he).lt_size (Nat.not_lt.2 hi)⟩
  refine hact.ensures hb rfl hg₁ fun f mid hm hf => ⟨hm.toApart, hf.toEnds, fun nfa h => ?_⟩
  refine ⟨h.grown (hg₁.trans hm) fun a k b he => ?_,
    h.around (fun _ _ _ => .rfl) horder ?_ hm.toApart hf⟩
  · rcases he with ⟨-, ⟨k', hk, heq⟩, -⟩ | ⟨-, ⟨k', hk, heq⟩, -⟩ | ⟨-, heq, -⟩ | ⟨-, heq, -⟩ |
      ⟨-, heq, -⟩ | ⟨-, heq, -⟩
    all_goals cases heq
    all_goals exact hk
  · exact fun ha he => not_edge_of_ge ha _ _ (hedge.1 he)

/-- A text up to a match is one without a match, and then the match. -/
theorem insertWith_upTo (p : Partition) (isClass : String → Bool)
    (classes : String → Except Failure (List Nat)) (ofUse : String → Build Fragment) (r : Regex) :
    insertWith p limit isClass classes ofUse (.upTo r) =
      (do
        let without ←
          (do complement limit (← around limit (insertWith p limit isClass classes ofUse r)))
        let found ← insertWith p limit isClass classes ofUse r
        addEpsilon without.stop found.start
        pure ⟨without.start, found.stop⟩) := by
  simp only [around, bind_assoc, pure_bind]
  rfl

end Build

end ScannerGen
