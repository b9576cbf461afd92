import Mathlib.Data.Finset.Powerset
import ScannerGen.Proofs.Nfa.Denotation
import ScannerGen.Proofs.Nfa.Isolation
import ScannerGen.Proofs.Nfa.Scaling
import ScannerGen.Proofs.Spec.Analyses

/-
  How many states the fragment of an expression takes. To complement a fragment takes a state for
  every set of states that a word can lead to, and the old start is in none of them but the first
  (`Isolated.length_le`). So the number of states is bounded by powers of two (`ceiling`) and not by
  squares, and the estimate is a bound only for expressions without negations, without texts up to a
  match and without empty texts, which take one state more than estimated
  (`insert_stays_below_ceiling`, `estimate_falls_short`).
-/

namespace ScannerGen

/-! ## Bounds of expressions -/

/-- What the complement of a fragment of `n` states adds to it at most: a state for every set of
states that can be found, a start, an error state and a stop. -/
def complementCeiling (n : Nat) : Nat := 2 ^ (n - 1) + 3

theorem complementCeiling_mono : Monotone complementCeiling := by
  intro m n hmn
  have := Nat.pow_le_pow_right Nat.two_pos (Nat.sub_le_sub_right hmn 1)
  exact Nat.add_le_add_right this 3

/-- The most states that a leaf takes. -/
def Leaf.ceiling (ofUse : String → Nat) : Leaf → Nat
  | one _ => 2
  | text s _ => max s.length 1 + 1
  | use name => ofUse name

/-- Neither a negation nor a text up to a match nor an empty text. -/
def Leaf.isPlain (ofUse : String → Bool) : Leaf → Bool
  | one _ => true
  | text s _ => !s.isEmpty
  | use name => ofUse name

namespace Regex

/-- The states that the fragment of an expression takes at most. -/
def ceiling (ofUse : String → Nat) : Regex → Nat
  | alt r s => r.ceiling ofUse + s.ceiling ofUse + 2
  | cat r s => r.ceiling ofUse + s.ceiling ofUse
  | star r | plus r => r.ceiling ofUse + 2
  | opt r => r.ceiling ofUse
  | compl r =>
    let n := r.ceiling ofUse
    n + complementCeiling n
  | upTo r =>
    let n := r.ceiling ofUse
    n + 4 + complementCeiling (n + 4) + n
  | leaf l => l.ceiling ofUse

/-- Whether the expression has no negation, no text up to a match and no empty text. -/
def isPlain (ofUse : String → Bool) : Regex → Bool
  | alt r s | cat r s => r.isPlain ofUse && s.isPlain ofUse
  | star r | plus r | opt r => r.isPlain ofUse
  | compl _ | upTo _ => false
  | leaf l => l.isPlain ofUse

theorem structural_ceiling : Structural ceiling where
  alt hr hs := by rw [ceiling, ceiling, hr, hs]
  cat hr hs := by rw [ceiling, ceiling, hr, hs]
  star h := by rw [ceiling, ceiling, h]
  plus h := by rw [ceiling, ceiling, h]
  opt h := h
  compl h := by rw [ceiling, ceiling, h]
  upTo h := by rw [ceiling, ceiling, h]
  one := rfl
  text := rfl
  use _ _ := rfl

theorem structural_isPlain : Structural isPlain where
  alt hr hs := by rw [isPlain, isPlain, hr, hs]
  cat hr hs := by rw [isPlain, isPlain, hr, hs]
  star h := h
  plus h := h
  opt h := h
  compl _ := rfl
  upTo _ := rfl
  one := rfl
  text := rfl
  use _ _ := rfl

variable {r : Regex}

/-- The least fragments are a start and a stop. -/
theorem two_le_ceiling {ofUse : String → Nat} (h : ∀ name ∈ r.macroUses, 2 ≤ ofUse name) :
    2 ≤ r.ceiling ofUse := by
  induction r with
  | alt r s => exact Nat.le_add_left ..
  | cat r s hr hs =>
    rw [macroUses_cat] at h
    exact Nat.le_add_right_of_le (hr fun name hn => h name (List.mem_append_left _ hn))
  | star r | plus r => exact Nat.le_add_left ..
  | opt r hr => exact hr h
  | compl r hr => exact Nat.le_add_right_of_le (hr h)
  | upTo r =>
    simp only [ceiling]
    omega
  | leaf l =>
    cases l with
    | one q => exact Nat.le_refl 2
    | text s caseless => exact Nat.succ_le_succ (Nat.le_max_right ..)
    | use name => exact h name (List.mem_singleton_self name)

/-- The estimate of a plain expression is its bound, cut off at a word. -/
theorem ceiling_le_estimate {ceilings estimates : String → Nat} {plain : String → Bool}
    (huse : ∀ name, plain name = true → min (ceilings name) maxWord ≤ estimates name)
    (h : r.isPlain plain = true) : min (r.ceiling ceilings) maxWord ≤ r.estimate estimates := by
  induction r with
  | alt r s hr hs | cat r s hr hs =>
    obtain ⟨hpr, hps⟩ := Bool.and_eq_true_iff.1 h
    have := hr hpr
    have := hs hps
    simp only [ceiling, estimate, cappedAdd]
    omega
  | star r hr | plus r hr =>
    have := hr h
    simp only [ceiling, estimate, cappedAdd]
    omega
  | opt r hr => exact hr h
  | compl r => cases h
  | upTo r => cases h
  | leaf l =>
    cases l with
    | one q => exact Nat.min_le_left ..
    | text s caseless =>
      have hs : s.length ≠ 0 := by
        intro hzero
        rw [String.length_eq_zero_iff] at hzero
        subst hzero
        cases h
      simp only [ceiling, Leaf.ceiling, estimate, Leaf.estimate]
      omega
    | use name => exact huse name h

end Regex

namespace MacroTable

variable {t : MacroTable} {r : Regex}

/-- The most states that `r` takes over the macros of `t`. -/
def ceiling (t : MacroTable) (r : Regex) : Nat := t.follow (fun _ => 2) Regex.ceiling r

/-- Whether `r`, with the definitions that it uses, has neither an empty text nor a negation. -/
def isPlain (t : MacroTable) (r : Regex) : Bool := t.follow (fun _ => false) Regex.isPlain r

theorem Grounded.ceiling_le_estimate (h : t.Grounded r) (hplain : t.isPlain r = true) :
    min (t.ceiling r) maxWord ≤ t.estimate r := by
  unfold isPlain at hplain
  rw [h.follow_resolve Regex.structural_isPlain.isLocal Regex.structural_isPlain.commutes
    fun _ => false] at hplain
  unfold ceiling estimate
  rw [h.follow_resolve Regex.structural_ceiling.isLocal Regex.structural_ceiling.commutes
    fun _ => 0, h.follow_resolve Regex.structural_estimate.isLocal
    Regex.structural_estimate.commutes fun _ => 0]
  exact Regex.ceiling_le_estimate (fun _ hname => by cases hname) hplain

end MacroTable

/-! ## The sets that words lead to -/

namespace Nfa

variable {limit : Nat} {base nfa nfa' nfa'' : Nfa} {f : Fragment} {i j k m n : Nat} {s c : IdSet}

/-- What a word leads to from the start of a fragment: new states, with the start among them only
if nothing has been read. -/
structure Visits (base nfa : Nfa) (f : Fragment) (s : IdSet) : Prop where
  new : ∀ j ∈ s, base.size ≤ j ∧ j < nfa.size
  nonempty : ∃ j, j ∈ s
  first : f.start ∈ s → s = nfa.closure (.single f.start)

/-- Edges without a label stay among the new states and lead to no start. -/
theorem Isolated.drifts (hf : Isolated limit base nfa f) (h : nfa.Drifts i j)
    (hi : base.size ≤ i ∧ i < nfa.size) :
    (base.size ≤ j ∧ j < nfa.size) ∧ (j = f.start → i = f.start) := by
  induction h with
  | refl => exact ⟨hi, id⟩
  | tail _ hstep ih =>
    refine ⟨hf.edge (o := none) ih.1.1 hstep, ?_⟩
    rintro rfl
    exact (hf.not_entered (o := none) hstep).elim

theorem Isolated.visits_first (hf : Isolated limit base nfa f) (hnfa : nfa.Linked) :
    Visits base nfa f (nfa.closure (.single f.start)) where
  new j hj := by
    obtain ⟨i, hi, hij⟩ := (mem_closure_iff fun hj => hnfa (o := none) hj).1 hj
    rw [IdSet.mem_single] at hi
    subst hi
    exact (hf.drifts hij hf.bounds.1).1
  nonempty := ⟨f.start, mem_reach_of_mem (IdSet.mem_single.2 rfl)⟩
  first _ := rfl

theorem Isolated.visits_next (hf : Isolated limit base nfa f) (hnfa : nfa.Linked)
    (hs : Visits base nfa f s) (hc : (k, c) ∈ nfa.closedMovesOf s) : Visits base nfa f c := by
  obtain ⟨⟨k', targets⟩, hk, heq⟩ := List.mem_map.1 hc
  obtain ⟨rfl, rfl⟩ := Prod.mk.inj heq
  obtain ⟨⟨b, hb⟩, htargets⟩ := mem_gather_iff.1 hk
  have hmove : ∀ a ∈ targets, (base.size ≤ a ∧ a < nfa.size) ∧ a ≠ f.start := by
    intro a ha
    obtain ⟨i, hi, hmove⟩ := mem_movesFrom.1 ((htargets a).1 ha)
    refine ⟨hf.edge (o := some k') (hs.new i hi).1 hmove, ?_⟩
    rintro rfl
    exact hf.not_entered (o := some k') hmove
  have hclosure : ∀ j ∈ nfa.closure targets, (base.size ≤ j ∧ j < nfa.size) ∧ j ≠ f.start := by
    intro j hj
    obtain ⟨a, ha, haj⟩ := (mem_closure_iff fun hj => hnfa (o := none) hj).1 hj
    obtain ⟨hnew, hentry⟩ := hf.drifts haj (hmove a ha).1
    exact ⟨hnew, fun hstart => (hmove a ha).2 (hentry hstart)⟩
  exact ⟨fun j hj => (hclosure j hj).1, ⟨b, mem_reach_of_mem ((htargets b).2 hb)⟩,
    fun hstart => ((hclosure _ hstart).2 rfl).elim⟩

/-- Besides the first of these sets there are only sets of states behind the start. -/
theorem Isolated.length_le (hf : Isolated limit base nfa f) {l : List IdSet} (hl : l.Nodup)
    (h : ∀ s ∈ l, Visits base nfa f s) : l.length ≤ 2 ^ (nfa.size - base.size - 1) := by
  let states : IdSet → Finset Nat := fun s => s.toList.toFinset
  let behind := (Finset.Ico base.size nfa.size).erase f.start
  let first := nfa.closure (.single f.start)
  have hinj : states.Injective := fun s s' hss' => IdSet.ext_mem fun j => by
    rw [← IdSet.mem_toList, ← IdSet.mem_toList, ← List.mem_toFinset, ← List.mem_toFinset]
    exact Finset.ext_iff.1 hss' j
  have hcard : behind.card = nfa.size - base.size - 1 := by
    rw [Finset.card_erase_of_mem (Finset.mem_Ico.2 hf.bounds.1), Nat.card_Ico]
  have hsub : (l.map states).toFinset ⊆ insert (states first) (behind.powerset.erase ∅) := by
    intro x hx
    obtain ⟨s, hs, rfl⟩ := List.mem_map.1 (List.mem_toFinset.1 hx)
    obtain ⟨hnew, ⟨j, hj⟩, hfirst⟩ := h s hs
    by_cases hstart : f.start ∈ s
    · rw [hfirst hstart]
      exact Finset.mem_insert_self ..
    · refine Finset.mem_insert_of_mem
        (Finset.mem_erase.2 ⟨?_, Finset.mem_powerset.2 fun i hi => ?_⟩)
      · exact Finset.ne_empty_of_mem (List.mem_toFinset.2 hj)
      · have hi : i ∈ s := List.mem_toFinset.1 hi
        refine Finset.mem_erase.2 ⟨?_, Finset.mem_Ico.2 (hnew i hi)⟩
        rintro rfl
        exact hstart hi
  calc l.length
      = (l.map states).toFinset.card := by
        rw [List.toFinset_card_of_nodup (hl.map hinj), List.length_map]
    _ ≤ (insert (states first) (behind.powerset.erase ∅)).card := Finset.card_le_card hsub
    _ ≤ (behind.powerset.erase ∅).card + 1 := Finset.card_insert_le ..
    _ = 2 ^ (nfa.size - base.size - 1) := by
        rw [Finset.card_erase_of_mem (Finset.empty_mem_powerset _), Finset.card_powerset, hcard,
          Nat.sub_add_cancel Nat.one_le_two_pow]

/-! ## What is added -/

/-- At most `n` states have come to those of `nfa`, and there is memory for all of them. -/
structure Gains (n : Nat) (nfa nfa' : Nfa) : Prop where
  size_le : nfa'.size ≤ nfa.size + n
  fits : nfa'.size = nfa.size ∨ fitsMemory stateBytes nfa'.size = true

namespace Gains

theorem of_size_eq (h : nfa'.size = nfa.size) : Gains 0 nfa nfa' := ⟨Nat.le_of_eq h, .inl h⟩

theorem trans (h : Gains m nfa nfa') (h' : Gains n nfa' nfa'') : Gains (m + n) nfa nfa'' where
  size_le := by
    have := h.size_le
    have := h'.size_le
    omega
  fits := h'.fits.elim (fun hsize => hsize ▸ h.fits) .inr

theorem mono (h : Gains m nfa nfa') (hmn : m ≤ n) : Gains n nfa nfa' :=
  ⟨Nat.le_trans h.size_le (Nat.add_le_add_left hmn _), h.fits⟩

/-- No memory holds more states than a word counts. -/
theorem size_le_min (h : Gains n nfa nfa') : nfa'.size ≤ nfa.size + min n maxWord := by
  have hsize := h.size_le
  rcases h.fits with heq | hfits
  · exact heq ▸ Nat.le_add_right ..
  · have hfits := of_decide_eq_true hfits
    unfold stateBytes maxBytes at hfits
    unfold maxWord
    omega

end Gains

end Nfa

namespace Build

open Nfa

variable {α β : Type} {limit m n : Nat} {base nfa : Nfa} {f : Fragment}

/-- Whatever automaton it is run on, the action adds at most `n` states. -/
def Costs (n : Nat) (act : Build α) : Prop :=
  ∀ nfa, Ensures act nfa (fun _ nfa' => Gains n nfa nfa') fun _ _ => True

theorem ensures_gain {act : Build α} {g : α → Build β}
    (h : Ensures act nfa (fun a nfa' => Gains m nfa nfa' ∧
      Ensures (g a) nfa' (fun _ nfa'' => Gains n nfa' nfa'') fun _ _ => True) fun _ _ => True) :
    Ensures (act >>= g) nfa (fun _ nfa'' => Gains (m + n) nfa nfa'') fun _ _ => True :=
  ensures_bind (h.mono (fun _ _ ⟨hm, hn⟩ => hn.mono (fun _ _ hn => hm.trans hn) fun _ _ h => h)
    fun _ _ h => h)

theorem Costs.mono {act : Build α} (h : Costs m act) (hmn : m ≤ n) : Costs n act := fun nfa =>
  (h nfa).mono (fun _ _ h => h.mono hmn) fun _ _ h => h

theorem Costs.bind {act : Build α} {g : α → Build β} (h : Costs m act)
    (h' : ∀ a, Costs n (g a)) : Costs (m + n) (act >>= g) := fun nfa =>
  ensures_gain ((h nfa).mono (fun a nfa' hm => ⟨hm, h' a nfa'⟩) fun _ _ h => h)

/-- What runs alike under all limits adds no states. -/
theorem costs_of_scales {act : Build α} (h : Scales fun _ => act) : Costs 0 act := by
  intro nfa
  unfold Ensures
  split
  · next a nfa' hact =>
    have hrun : run act nfa = .ok (a, nfa') := run_eq_ok.2 hact
    have hge : nfa.size ≤ nfa'.size := (h nfa).le_size (Nat.le_refl _) hrun
    have hle : nfa'.size ≤ nfa.size := (h nfa).size_le (Nat.le_refl _) hrun
    exact .of_size_eq (Nat.le_antisymm hle hge)
  · trivial

theorem ensures_added {Q : Nat → Nfa → Prop}
    (h : Gains 1 nfa (nfa.push .blank) → Q nfa.size (nfa.push .blank)) :
    Ensures (newState limit) nfa Q fun _ _ => True := by
  refine ensures_bind (ensures_get ?_)
  split
  · exact ensures_throw trivial
  · next hroom =>
    rw [Bool.or_eq_true, not_or, Bool.not_eq_true', Bool.not_eq_false] at hroom
    refine ensures_bind (ensures_set (ensures_pure (h ⟨Nat.le_of_eq (size_push _), .inr ?_⟩)))
    rw [size_push]
    exact hroom.2

theorem costs_newState : Costs 1 (newState limit) := fun _ => ensures_added id

theorem costs_newStates (n : Nat) : Costs n (newStates limit n) := by
  induction n with
  | zero => exact costs_of_scales (scales_pure ())
  | succ n ih =>
    have hcosts : Costs (1 + n) (newStates limit (n + 1)) := costs_newState.bind fun _ => ih
    rwa [Nat.add_comm] at hcosts

/-! ## Complements -/

theorem costs_linkComplement (nfa : Nfa) (f : Fragment) (t : Subsets) :
    Costs 3 (linkComplement limit nfa f t) :=
  costs_newState.bind fun start => costs_newState.bind fun error =>
    costs_newState.bind fun stop => costs_of_scales (scales_wireComplement nfa f t start error stop)

/-- A fragment of `n` states after those of `base` is complemented by a new one. -/
theorem complement_gains (hf : Isolated limit base nfa f) (hb : base.Linked)
    (hn : nfa.size ≤ base.size + n) :
    Ensures (complement limit f) nfa (fun _ nfa' => Gains (complementCeiling n) nfa nfa')
      fun _ _ => True := by
  have hnfa : nfa.Linked := hf.toApart.linked hb
  have hwithin : nfa.Within (.single f.start) := fun i hi => by
    rw [IdSet.mem_single.1 hi]
    exact hf.start_lt
  have hall : Yields (Subsets.ofStart nfa.closedMoves nfa.numClasses limit
      (.single (nfa.closure (.single f.start))))
      (fun t => ∀ s ∈ t.sets.values, Visits base nfa f s) fun _ => True := by
    refine (Subsets.ofStart_numbers (fun s hs => ?_) fun s hs => ?_).mono (fun _ h => h.1.all)
      fun _ h => h
    · rw [Nfa.closedMoves_eq_ok hnfa]
      exact fun x hx => hf.visits_next hnfa hs hx
    · rw [Numbering.values_single, Array.mem_singleton] at hs
      exact hs ▸ hf.visits_first hnfa
  unfold complement
  refine ensures_bind (ensures_get (ensures_bind (ensures_demand
    (Nfa.closure?_eq_ok (fun hj => hnfa (o := none) hj) hwithin) ?_)))
  split
  · exact ensures_throw trivial
  · next t ht =>
    have hcount : t.sets.size ≤ 2 ^ (nfa.size - base.size - 1) := by
      rw [Numbering.size, ← Array.length_toList]
      exact hf.length_le (Subsets.nodup_values t.sets) fun s hs =>
        hall.of_ok ht s (Array.mem_toList_iff.1 hs)
    have hcosts : t.sets.size + 3 ≤ complementCeiling n :=
      Nat.le_trans (Nat.add_le_add_right hcount 3) (complementCeiling_mono (by omega))
    exact (((costs_newStates _).bind fun _ => costs_linkComplement nfa f t) nfa).mono
      (fun _ _ h => h.mono hcosts) fun _ _ h => h

/-! ## Fragments -/

/-- Where edges lead to states, the action adds an isolated fragment of at most `n` of them. -/
structure Takes (limit n : Nat) (act : Build Fragment) : Prop where
  isolates : Isolates limit act
  gains : ∀ nfa : Nfa, nfa.Linked →
    Ensures act nfa (fun _ nfa' => Gains n nfa nfa') fun _ _ => True

variable {act act' : Build Fragment}

theorem Takes.ensures (h : Takes limit n act) (hb : base.Linked) :
    Ensures act base (fun f nfa => Isolated limit base nfa f ∧ Gains n base nfa) fun _ _ => True :=
  ((h.isolates base hb).and (h.gains base hb)).mono (fun _ _ h => h) fun _ _ _ => trivial

theorem Takes.mono (h : Takes limit m act) (hmn : m ≤ n) : Takes limit n act :=
  ⟨h.isolates, fun nfa hnfa => (h.gains nfa hnfa).mono (fun _ _ h => h.mono hmn) fun _ _ h => h⟩

/-- One fragment, and what is done with it. -/
theorem Takes.gain {g : Fragment → Build β} (h : Takes limit m act) (hnfa : nfa.Linked)
    (h' : ∀ f nfa', nfa'.Linked →
      Ensures (g f) nfa' (fun _ nfa'' => Gains n nfa' nfa'') fun _ _ => True) :
    Ensures (act >>= g) nfa (fun _ nfa'' => Gains (m + n) nfa nfa'') fun _ _ => True :=
  ensures_gain ((h.ensures hnfa).mono
    (fun f nfa' ⟨hf, hg⟩ => ⟨hg, h' f nfa' (hf.toApart.linked hnfa)⟩) fun _ _ h => h)

theorem takes_insertClasses (classes : Except Failure (List Nat)) :
    Takes limit 2 (insertClasses limit classes) := by
  refine ⟨isolates_insertClasses classes, fun nfa _ => ?_⟩
  have hcosts : Costs (0 + (1 + (1 + 0))) (insertClasses limit classes) :=
    (costs_of_scales (scales_liftExcept classes)).bind fun ks =>
      costs_newState.bind fun start => costs_newState.bind fun stop =>
        costs_of_scales ((scales_addMoves start _ stop).bind fun _ => scales_pure _)
  exact hcosts nfa

theorem costs_insertChars (p : Partition) (caseless : Bool) (i : Nat) (cs : List Char) :
    Costs cs.length (insertChars p limit caseless i cs) := by
  induction cs generalizing i with
  | nil => exact costs_of_scales (scales_pure i)
  | cons c cs ih =>
    have hcosts : Costs (1 + (0 + cs.length)) (insertChars p limit caseless i (c :: cs)) :=
      costs_newState.bind fun j => (costs_of_scales (scales_addMoves i _ j)).bind fun _ => ih j
    rwa [Nat.zero_add, Nat.add_comm] at hcosts

theorem takes_insertText (p : Partition) (s : String) (caseless : Bool) :
    Takes limit (max s.length 1 + 1) (insertText p limit s caseless) := by
  refine ⟨isolates_insertText p s caseless, fun nfa _ => ?_⟩
  have hcosts : Costs (1 + max s.length 1) (insertText p limit s caseless) := by
    refine costs_newState.bind fun start => ?_
    split
    · have hstop : Costs (1 + 0) (do
          let stop ← newState limit
          addEpsilon start stop
          pure (⟨start, stop⟩ : Fragment)) :=
        costs_newState.bind fun stop =>
          costs_of_scales ((scales_addEpsilon start stop).bind fun _ => scales_pure _)
      exact hstop.mono (Nat.le_max_right ..)
    · have hchars : Costs (s.toList.length + 0) (do
          let stop ← insertChars p limit caseless start s.toList
          pure (⟨start, stop⟩ : Fragment)) :=
        (costs_insertChars p caseless start s.toList).bind fun _ => costs_of_scales (scales_pure _)
      rw [String.length_toList] at hchars
      exact hchars.mono (Nat.le_max_left ..)
  rw [Nat.add_comm]
  exact hcosts nfa

theorem takes_cat (h : Takes limit m act) (h' : Takes limit n act') :
    Takes limit (m + n) (do
      let f ← act
      let g ← act'
      addEpsilon f.stop g.start
      pure ⟨f.start, g.stop⟩) :=
  ⟨isolates_cat h.isolates h'.isolates, fun _ hnfa =>
    h.gain hnfa fun f _ hnfa₁ => h'.gain hnfa₁ fun g nfa₂ _ =>
      costs_of_scales ((scales_addEpsilon f.stop g.start).bind fun _ => scales_pure _) nfa₂⟩

theorem takes_opt (h : Takes limit n act) :
    Takes limit n (do
      let f ← act
      addEpsilon f.start f.stop
      pure f) :=
  ⟨isolates_opt h.isolates, fun _ hnfa => h.gain hnfa fun f nfa₁ _ =>
    costs_of_scales ((scales_addEpsilon f.start f.stop).bind fun _ => scales_pure f) nfa₁⟩

theorem costs_alternatives (f g : Fragment) : Costs 2 (alternatives limit f g) :=
  (costs_newState.bind fun start => costs_newState.bind fun stop =>
    costs_of_scales (scales_wireAlt f g start stop) : Costs (1 + (1 + 0)) _)

theorem takes_alt (h : Takes limit m act) (h' : Takes limit n act') :
    Takes limit (m + n + 2) (do alternatives limit (← act) (← act')) := by
  refine ⟨isolates_alt h.isolates h'.isolates, fun nfa hnfa => ?_⟩
  rw [Nat.add_assoc]
  exact h.gain hnfa fun f nfa₁ hnfa₁ => h'.gain hnfa₁ fun g nfa₂ _ => costs_alternatives f g nfa₂

theorem costs_repeated (skip : Bool) (f : Fragment) : Costs 2 (repeated limit skip f) :=
  (costs_newState.bind fun start => costs_newState.bind fun stop =>
    costs_of_scales (scales_wireRepeated skip f start stop) : Costs (1 + (1 + 0)) _)

theorem takes_repeated (h : Takes limit n act) (skip : Bool) :
    Takes limit (n + 2) (do repeated limit skip (← act)) :=
  ⟨isolates_repeated h.isolates skip, fun _ hnfa =>
    h.gain hnfa fun f nfa₁ _ => costs_repeated skip f nfa₁⟩

theorem takes_compl (h : Takes limit n act) :
    Takes limit (n + complementCeiling n) (do complement limit (← act)) := by
  refine ⟨isolates_compl h.isolates, fun nfa hnfa => ensures_gain ?_⟩
  exact (h.ensures hnfa).mono (fun f nfa₁ ⟨hf, hg⟩ => ⟨hg, complement_gains hf hnfa hg.size_le⟩)
    fun _ _ h => h

theorem gain_newState {g : Nat → Build β} (hnfa : nfa.Linked)
    (h : ∀ i nfa', nfa'.Linked →
      Ensures (g i) nfa' (fun _ nfa'' => Gains n nfa' nfa'') fun _ _ => True) :
    Ensures (newState limit >>= g) nfa (fun _ nfa'' => Gains (1 + n) nfa nfa'') fun _ _ => True :=
  ensures_gain (ensures_added fun hone => ⟨hone, h _ _ hnfa.push⟩)

theorem takes_around (h : Takes limit n act) : Takes limit (n + 4) (around limit act) := by
  refine ⟨isolates_around h.isolates, fun nfa hnfa => ?_⟩
  have hgain : Ensures (around limit act) nfa
      (fun _ nfa' => Gains (1 + (1 + (1 + (1 + (n + 0))))) nfa nfa') fun _ _ => True := by
    refine gain_newState hnfa fun start _ hnfa => gain_newState hnfa fun before _ hnfa => ?_
    refine gain_newState hnfa fun after _ hnfa => gain_newState hnfa fun stop _ hnfa => ?_
    exact h.gain hnfa fun inner nfa' _ =>
      costs_of_scales (scales_wireAround inner start before after stop) nfa'
  exact hgain.mono (fun _ _ h => h.mono (by omega)) fun _ _ h => h

/-! ## Expressions -/

theorem takes_insertWith (p : Partition) {isClass : String → Bool}
    {classes : String → Except Failure (List Nat)} {ofUse : String → Build Fragment}
    {ceilings : String → Nat} {r : Regex}
    (huse : ∀ name ∈ r.macroUses, 2 ≤ ceilings name ∧ Takes limit (ceilings name) (ofUse name)) :
    Takes limit (r.ceiling ceilings) (insertWith p limit isClass classes ofUse r) := by
  induction r with
  | alt r s hr hs =>
    simp only [Regex.macroUses_alt, List.mem_append] at huse
    unfold insertWith
    split
    · exact (takes_insertClasses _).mono (Nat.le_add_left ..)
    · exact takes_alt (hr fun name hn => huse name (.inl hn))
        (hs fun name hn => huse name (.inr hn))
  | cat r s hr hs =>
    simp only [Regex.macroUses_cat, List.mem_append] at huse
    exact takes_cat (hr fun name hn => huse name (.inl hn)) (hs fun name hn => huse name (.inr hn))
  | star r hr => exact takes_repeated (hr huse) true
  | plus r hr => exact takes_repeated (hr huse) false
  | opt r hr => exact takes_opt (hr huse)
  | compl r hr => exact takes_compl (hr huse)
  | upTo r hr =>
    rw [insertWith_upTo]
    exact takes_cat (takes_compl (takes_around (hr huse))) (hr huse)
  | leaf l =>
    cases l with
    | one q => exact takes_insertClasses _
    | text s caseless => exact takes_insertText p s caseless
    | use name =>
      obtain ⟨hle, htakes⟩ := huse name (List.mem_singleton_self name)
      unfold insertWith
      split
      · exact (takes_insertClasses _).mono hle
      · exact htakes

/-- The bound holds of the building over a macro table. -/
theorem takes_insert (p : Partition) (limit : Nat) {t : MacroTable} {r : Regex}
    (hr : t.Grounded r) : Takes limit (t.ceiling r) (insert p limit t r) := by
  have hboth : 2 ≤ t.ceiling r ∧ Takes limit (t.ceiling r) (insert p limit t r) := by
    rw [insert_eq_follow hr]
    refine hr.follow_rel (R := fun n act => 2 ≤ n ∧ Takes limit n act)
      Regex.structural_ceiling.isLocal (compositional_insertWith p limit _ _).isLocal
      fun f g s h => ?_
    exact ⟨Regex.two_le_ceiling fun name hn => (h name hn).1, takes_insertWith p h⟩
  exact hboth.2

/-- Without negations and texts up to a match, where every text has a character, the estimate is a
bound, too. -/
theorem insert_stays_below_ceiling (p : Partition) (limit : Nat) (t : MacroTable) (r : Regex)
    {nfa : Nfa} (hr : t.Grounded r) (hnfa : nfa.Linked) (f : Fragment) (nfa' : Nfa)
    (hok : insert p limit t r nfa = .ok f nfa') :
    nfa'.size ≤ nfa.size + t.ceiling r ∧
      (t.isPlain r = true → nfa'.size ≤ nfa.size + t.estimate r) := by
  have hgains : Gains (t.ceiling r) nfa nfa' := ((takes_insert p limit hr).gains nfa hnfa).of_ok hok
  refine ⟨hgains.size_le, fun hplain => ?_⟩
  exact Nat.le_trans hgains.size_le_min (Nat.add_le_add_left (hr.ceiling_le_estimate hplain) _)

/-- All operators but the negation and the text up to a match. -/
def plainLayered : Regex :=
  .cat (.use "alpha") (.star (.alt (.text "b" true) (.opt (.use "alpha"))))

theorem insert_stays_below_ceiling_layered : entered.Linked ∧ alpha.Grounded layered ∧
    alpha.Grounded plainLayered ∧ alpha.isPlain plainLayered = true ∧
    (∃ f nfa', insert ((Partition.whole 127).refineCode 97 false) 200 alpha layered entered =
      .ok f nfa' ∧ nfa'.size ≤ entered.size + alpha.ceiling layered) ∧
    ∃ f nfa', insert ((Partition.whole 127).refineCode 97 false) 200 alpha plainLayered entered =
      .ok f nfa' ∧ nfa'.size ≤ entered.size + alpha.estimate plainLayered := by
  have hlinked : entered.Linked := (show entered.InRange by decide).target_lt
  have hlayered : alpha.Grounded layered := .of_closed_entries (by decide) (by decide)
  have hgrounded : alpha.Grounded plainLayered := .of_closed_entries (by decide) (by decide)
  have hplain : alpha.isPlain plainLayered = true := by decide
  refine ⟨hlinked, hlayered, hgrounded, hplain, ?_, ?_⟩
  · obtain ⟨f, nfa', hok⟩ := exists_eq_ok_of_run (show (run (insert
      ((Partition.whole 127).refineCode 97 false) 200 alpha layered) entered).toOption.isSome = true
      by decide +kernel)
    exact ⟨f, nfa', hok,
      (insert_stays_below_ceiling _ 200 alpha layered hlayered hlinked f nfa' hok).1⟩
  · obtain ⟨f, nfa', hok⟩ := exists_eq_ok_of_run (show (run (insert
      ((Partition.whole 127).refineCode 97 false) 200 alpha plainLayered) entered).toOption.isSome =
      true by decide +kernel)
    exact ⟨f, nfa', hok,
      (insert_stays_below_ceiling _ 200 alpha plainLayered hgrounded hlinked f nfa' hok).2 hplain⟩

/-- What is expected to take 1, 4 and 12 states takes 2, 7 and 15. -/
def underestimated : List Regex :=
  [.text "" false, .compl (.one (.code 97 false)), .upTo (.one (.code 97 false))]

/-- The letter `a` and all other codes. -/
def codeAPartition : Partition := Partition.refined 127 [(.code 97, false)]

theorem estimate_falls_short : codeAPartition.Valid ∧ (Nfa.entries 2 1).InRange ∧
    (Nfa.entries 2 1).numClasses = codeAPartition.numClasses ∧
    ∀ r ∈ underestimated, Buildable codeAPartition .empty r ∧
      ∃ f nfa', insert codeAPartition 100 .empty r (.entries 2 1) = .ok f nfa' ∧
        (Nfa.entries 2 1).size + MacroTable.empty.estimate r < nfa'.size := by
  have hshown : ∀ r ∈ underestimated, r.Closed ∧
      ∀ l ∈ r.leaves, ∀ s ∈ l.sets, s ∈ Partition.shownSets [(.code 97, false)] := by decide
  have hrun : ∀ r ∈ underestimated, (run (insert codeAPartition 100 .empty r)
      (.entries 2 1)).toOption.any (fun x =>
        decide ((Nfa.entries 2 1).size + MacroTable.empty.estimate r < x.2.size)) = true := by
    decide +kernel
  refine ⟨(Partition.refined_spec 127 _).1, by decide, by decide, fun r hr => ⟨?_, ?_⟩⟩
  · obtain ⟨hclosed, hleaves⟩ := hshown r hr
    exact buildable_refined 127 (.of_closed hclosed) fun l hl =>
      hl.of_forall (P := fun l => ∀ s ∈ l.sets, s ∈ Partition.shownSets [(.code 97, false)])
        (by decide) hleaves
  · obtain ⟨⟨f, nfa'⟩, hok, hsize⟩ := exists_ok_of_any (hrun r hr)
    exact ⟨f, nfa', run_eq_ok.1 hok, of_decide_eq_true hsize⟩

end Build

end ScannerGen
