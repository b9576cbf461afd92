import Mathlib.Computability.Language
import ScannerGen.Nfa.Build
import ScannerGen.Proofs.Ensures
import ScannerGen.Proofs.Nfa.Path

/-
  Growing an automaton. What is built leaves the old states as they are, and no edge leads from new
  states to old ones (`Apart`); its labels are classes if the leaves are good for the partition
  (`Grown`). A fragment is a part of the new states that cannot be entered again at its start nor be
  left at its stop (`Ends`), with the words that lead through it (`IsFragment`); nothing that is
  built later changes its language (`IsFragment.frame`).
-/

namespace ScannerGen

namespace Nfa

/-- Every edge leads to a state. -/
def Linked (nfa : Nfa) : Prop := ∀ {i o j}, nfa.Edge i o j → j < nfa.size

/-- Every edge leads to a state, by a class if it has a label. -/
structure InRange (nfa : Nfa) : Prop where
  target_lt : ∀ {i o j}, nfa.Edge i o j → j < nfa.size
  class_lt : ∀ {i k j}, nfa.Edge i (some k) j → k < nfa.numClasses

theorem inRange_iff {nfa : Nfa} : nfa.InRange ↔ ∀ s ∈ nfa.states,
    (∀ move ∈ s.moves, move.1 < nfa.numClasses ∧ move.2 < nfa.size) ∧
      ∀ j ∈ s.epsilon.toList, j < nfa.size := by
  have hmoves : ∀ {i s}, nfa.states[i]? = some s → nfa.movesOf i = s.moves := fun hs => by
    unfold movesOf
    rw [hs]
  have hepsilon : ∀ {i s}, nfa.states[i]? = some s → nfa.epsilonOf i = s.epsilon := fun hs => by
    unfold epsilonOf
    rw [hs]
  constructor
  · intro h s hs
    obtain ⟨i, hi⟩ := Array.mem_iff_getElem?.1 hs
    constructor
    · intro move hmove
      rw [← hmoves hi] at hmove
      exact ⟨h.class_lt hmove, h.target_lt (o := some move.1) hmove⟩
    · intro j hj
      rw [← hepsilon hi] at hj
      exact h.target_lt (o := none) hj
  · intro h
    have hstate : ∀ {i o j}, nfa.Edge i o j → ∃ s ∈ nfa.states, nfa.states[i]? = some s := by
      intro i o j he
      exact ⟨_, Array.getElem_mem he.lt_size, Array.getElem?_eq_getElem he.lt_size⟩
    constructor
    · intro i o j he
      obtain ⟨s, hs, hi⟩ := hstate he
      cases o with
      | none => exact (h s hs).2 j (hepsilon hi ▸ he)
      | some k => exact ((h s hs).1 (k, j) (hmoves hi ▸ he)).2
    · intro i k j he
      obtain ⟨s, hs, hi⟩ := hstate he
      exact ((h s hs).1 (k, j) (hmoves hi ▸ he)).1

instance (nfa : Nfa) : Decidable nfa.InRange := decidable_of_iff _ inRange_iff.symm

/-- Neither the start nor the end of a match. -/
def Unmarked (s : NfaState) : Prop := s.isFinal = false ∧ s.isPushback = false ∧ s.action? = none

/-- New states have come to those of `base`, at most up to `limit` states. No old state has changed,
and the new ones have edges among themselves only. -/
structure Apart (limit : Nat) (base nfa : Nfa) : Prop where
  numClasses : nfa.numClasses = base.numClasses
  numLex : nfa.numLex = base.numLex
  size_le : base.size ≤ nfa.size
  bounded : nfa.size = base.size ∨ nfa.size ≤ limit
  old : ∀ {i}, i < base.size → nfa.states[i]? = base.states[i]?
  unmarked : ∀ {i s}, base.size ≤ i → nfa.states[i]? = some s → Unmarked s
  edge : ∀ {i o j}, base.size ≤ i → nfa.Edge i o j → base.size ≤ j ∧ j < nfa.size

/-- New states have come to those of `base`, with classes as the labels of their edges. -/
structure Grown (limit : Nat) (base nfa : Nfa) : Prop extends Apart limit base nfa where
  class_lt : ∀ {i k j}, base.size ≤ i → nfa.Edge i (some k) j → k < base.numClasses

variable {limit : Nat} {base nfa nfa' nfa'' : Nfa} {i j k l : Nat} {w : List Nat} {o : Option Nat}

theorem InRange.linked (h : nfa.InRange) : nfa.Linked := h.target_lt

theorem Linked.push (h : nfa.Linked) : (nfa.push .blank).Linked := by
  intro i o j he
  rw [size_push]
  exact Nat.lt_succ_of_lt (h (edge_push_blank.1 he))

namespace Apart

theorem refl (limit : Nat) (nfa : Nfa) : Apart limit nfa nfa where
  numClasses := rfl
  numLex := rfl
  size_le := Nat.le_refl _
  bounded := .inl rfl
  old _ := rfl
  unmarked hi hs := absurd (Array.getElem?_eq_some_iff.1 hs).1 (Nat.not_lt.2 hi)
  edge hi h := absurd h.lt_size (Nat.not_lt.2 hi)

theorem old_edge (h : Apart limit base nfa) (hi : i < base.size) :
    nfa.Edge i o j ↔ base.Edge i o j := edge_congr (h.old hi)

theorem trans (h : Apart limit base nfa) (h' : Apart limit nfa nfa') : Apart limit base nfa' where
  numClasses := h'.numClasses.trans h.numClasses
  numLex := h'.numLex.trans h.numLex
  size_le := Nat.le_trans h.size_le h'.size_le
  bounded := by
    have := h.bounded
    have := h'.bounded
    omega
  old hi := (h'.old (Nat.lt_of_lt_of_le hi h.size_le)).trans (h.old hi)
  unmarked {i s} hi hs := by
    by_cases hlt : i < nfa.size
    · rw [h'.old hlt] at hs
      exact h.unmarked hi hs
    · exact h'.unmarked (Nat.le_of_not_lt hlt) hs
  edge {i o j} hi he := by
    by_cases hlt : i < nfa.size
    · have := h.edge hi ((h'.old_edge hlt).1 he)
      have := h'.size_le
      omega
    · have := h'.edge (Nat.le_of_not_lt hlt) he
      have := h.size_le
      omega

theorem linked (h : Apart limit base nfa) (hb : base.Linked) : nfa.Linked := by
  intro i o j he
  by_cases hlt : i < base.size
  · exact Nat.lt_of_lt_of_le (hb ((h.old_edge hlt).1 he)) h.size_le
  · exact (h.edge (Nat.le_of_not_lt hlt) he).2

/-- Paths from new states stay among them. -/
theorem path_ge (h : Apart limit base nfa) (p : nfa.Path i w l) (hi : base.size ≤ i) :
    base.size ≤ l :=
  p.stays (P := fun i => base.size ≤ i) (fun _ _ _ hi he => (h.edge hi he).1) hi

/-- Paths from the states in between stay there when more is built. -/
theorem path_between (h : Apart limit base nfa) (h' : Apart limit nfa nfa')
    (hi : base.size ≤ i) (hlt : i < nfa.size) :
    (nfa'.Path i w l ↔ nfa.Path i w l) ∧ (nfa'.Path i w l → base.size ≤ l ∧ l < nfa.size) := by
  have hstep : ∀ i o j, (base.size ≤ i ∧ i < nfa.size) → nfa'.Edge i o j →
      nfa.Edge i o j ∧ base.size ≤ j ∧ j < nfa.size := fun i o j hi he =>
    have he' := (h'.old_edge hi.2).1 he
    ⟨he', h.edge hi.1 he'⟩
  refine ⟨⟨fun p => p.transfer hstep ⟨hi, hlt⟩, fun p => ?_⟩, fun p =>
    p.stays (P := fun i => base.size ≤ i ∧ i < nfa.size) (fun i o j hi he => (hstep i o j hi he).2)
      ⟨hi, hlt⟩⟩
  refine p.transfer (P := fun i => base.size ≤ i ∧ i < nfa.size) (fun i o j hi he => ?_) ⟨hi, hlt⟩
  exact ⟨(h'.old_edge hi.2).2 he, h.edge hi.1 he⟩

end Apart

theorem Grown.refl (limit : Nat) (nfa : Nfa) : Grown limit nfa nfa where
  toApart := .refl limit nfa
  class_lt hi h := absurd h.lt_size (Nat.not_lt.2 hi)

theorem Grown.trans (h : Grown limit base nfa) (h' : Grown limit nfa nfa') :
    Grown limit base nfa' where
  toApart := h.toApart.trans h'.toApart
  class_lt {i k j} hi he := by
    by_cases hlt : i < nfa.size
    · exact h.class_lt hi ((h'.old_edge hlt).1 he)
    · rw [← h.numClasses]
      exact h'.class_lt (Nat.le_of_not_lt hlt) he

theorem Grown.inRange (h : Grown limit base nfa) (hb : base.InRange) : nfa.InRange where
  target_lt := h.linked hb.linked
  class_lt {i k j} he := by
    rw [h.numClasses]
    by_cases hlt : i < base.size
    · exact hb.class_lt ((h.old_edge hlt).1 he)
    · exact h.class_lt (Nat.le_of_not_lt hlt) he

theorem InRange.path_lt (h : nfa.InRange) (p : nfa.Path i w l) (hi : i < nfa.size) :
    l < nfa.size :=
  p.stays (P := (· < nfa.size)) (fun _ _ _ _ he => h.target_lt he) hi

/-! ## Single changes -/

namespace Apart

theorem push (h : Apart limit base nfa) (hlt : nfa.size < limit) :
    Apart limit base (nfa.push .blank) where
  numClasses := h.numClasses
  numLex := h.numLex
  size_le := by
    rw [size_push]
    exact Nat.le_succ_of_le h.size_le
  bounded := by
    rw [size_push]
    exact .inr hlt
  old hi := by rw [getElem?_push_lt _ (Nat.lt_of_lt_of_le hi h.size_le), h.old hi]
  unmarked {i s} hi hs := by
    unfold Nfa.push at hs
    rw [Array.getElem?_push] at hs
    split at hs
    · rw [Option.some.injEq] at hs
      subst hs
      exact ⟨rfl, rfl, rfl⟩
    · exact h.unmarked hi hs
  edge hi he := by
    have := h.edge hi (edge_push_blank.1 he)
    rw [size_push]
    omega

/-- A change of a new state that gives it edges to new states. -/
theorem modify (h : Apart limit base nfa) {f : NfaState → NfaState}
    {N : Nat → Option Nat → Nat → Prop} (hi : base.size ≤ i)
    (hf : ∀ s, Unmarked s → Unmarked (f s))
    (hedge : ∀ a o b, (nfa.modify i f).Edge a o b ↔ nfa.Edge a o b ∨ N a o b)
    (hN : ∀ a o b, N a o b → base.size ≤ b ∧ b < nfa.size) :
    Apart limit base (nfa.modify i f) where
  numClasses := h.numClasses
  numLex := h.numLex
  size_le := by
    rw [size_modify]
    exact h.size_le
  bounded := by
    rw [size_modify]
    exact h.bounded
  old {a} ha := by rw [getElem?_modify_ne f (by omega), h.old ha]
  unmarked {a s} ha hs := by
    by_cases hai : a = i
    · subst hai
      rw [getElem?_modify_self] at hs
      obtain ⟨s', hs', rfl⟩ := Option.map_eq_some_iff.1 hs
      exact hf s' (h.unmarked ha hs')
    · rw [getElem?_modify_ne f hai] at hs
      exact h.unmarked ha hs
  edge {a o b} ha he := by
    rw [size_modify]
    rcases (hedge a o b).1 he with he | hn
    · exact h.edge ha he
    · exact hN a o b hn

theorem addEpsilon (h : Apart limit base nfa) (hi : base.size ≤ i ∧ i < nfa.size)
    (hj : base.size ≤ j ∧ j < nfa.size) : Apart limit base (nfa.addEpsilon i j) := by
  refine h.modify (N := fun a o b => a = i ∧ o = none ∧ b = j) hi.1 (fun s hs => hs)
    (fun a o b => edge_addEpsilon hi.2) ?_
  rintro a o b ⟨-, -, rfl⟩
  exact hj

theorem addMoves (h : Apart limit base nfa) (hi : base.size ≤ i ∧ i < nfa.size)
    {ms : List (Nat × Nat)} (hms : ∀ m ∈ ms, base.size ≤ m.2 ∧ m.2 < nfa.size) :
    Apart limit base (nfa.addMoves i ms) := by
  refine h.modify (N := fun a o b => a = i ∧ ∃ k, o = some k ∧ (k, b) ∈ ms) hi.1 (fun s hs => hs)
    (fun a o b => edge_addMoves hi.2) ?_
  intro a o b ⟨_, k, _, hk⟩
  exact hms _ hk

end Apart

/-! ## Fragments -/

/-- New states of which no edge enters the start and none leaves the stop. -/
structure Ends (base nfa : Nfa) (f : Fragment) : Prop where
  start_ge : base.size ≤ f.start
  start_lt : f.start < nfa.size
  stop_ge : base.size ≤ f.stop
  stop_lt : f.stop < nfa.size
  start_ne_stop : f.start ≠ f.stop
  no_entry : ∀ {i o}, base.size ≤ i → ¬nfa.Edge i o f.start
  no_exit : ∀ {o j}, ¬nfa.Edge f.stop o j

/-- A part of the new states that matches `K`. -/
structure IsFragment (base nfa : Nfa) (f : Fragment) (K : Language Nat) : Prop
    extends Ends base nfa f where
  language : ∀ w, nfa.Path f.start w f.stop ↔ w ∈ K

variable {f : Fragment} {K : Language Nat}

theorem Ends.bounds (hf : Ends base nfa f) : (base.size ≤ f.start ∧ f.start < nfa.size) ∧
    base.size ≤ f.stop ∧ f.stop < nfa.size :=
  ⟨⟨hf.start_ge, hf.start_lt⟩, hf.stop_ge, hf.stop_lt⟩

/-- No way leads back to the start. -/
theorem Ends.no_return (hf : Ends base nfa f) (h : Apart limit base nfa)
    (p : nfa.Path i w f.start) (hi : base.size ≤ i) : i = f.start ∧ w = [] := by
  generalize hl : f.start = l at p
  induction p with
  | refl => exact ⟨rfl, rfl⟩
  | step he _ ih =>
    obtain ⟨rfl, -⟩ := ih (h.edge hi he).1 hl
    exact absurd (hl ▸ he) (hf.no_entry hi)

/-- The ends of a fragment stay what they are while more is built. -/
theorem Ends.frame (hf : Ends base nfa f) (h' : Apart limit nfa nfa') : Ends base nfa' f where
  start_ge := hf.start_ge
  start_lt := Nat.lt_of_lt_of_le hf.start_lt h'.size_le
  stop_ge := hf.stop_ge
  stop_lt := Nat.lt_of_lt_of_le hf.stop_lt h'.size_le
  start_ne_stop := hf.start_ne_stop
  no_entry {i o} hi he := by
    by_cases hlt : i < nfa.size
    · exact hf.no_entry hi ((h'.old_edge hlt).1 he)
    · have := (h'.edge (Nat.le_of_not_lt hlt) he).1
      have := hf.start_lt
      omega
  no_exit he := hf.no_exit ((h'.old_edge hf.stop_lt).1 he)

/-- The ends of what was built last are ends of all that is new. -/
theorem Ends.lower (hf : Ends nfa nfa' f) (h : Apart limit base nfa) (h' : Apart limit nfa nfa') :
    Ends base nfa' f where
  start_ge := Nat.le_trans h.size_le hf.start_ge
  start_lt := hf.start_lt
  stop_ge := Nat.le_trans h.size_le hf.stop_ge
  stop_lt := hf.stop_lt
  start_ne_stop := hf.start_ne_stop
  no_entry {i o} hi he := by
    by_cases hlt : i < nfa.size
    · have := h.edge hi ((h'.old_edge hlt).1 he)
      have := hf.start_ge
      omega
    · exact hf.no_entry (Nat.le_of_not_lt hlt) he
  no_exit := hf.no_exit

/-- A fragment stays what it is while more is built. -/
theorem IsFragment.frame (hf : IsFragment base nfa f K) (h : Apart limit base nfa)
    (h' : Apart limit nfa nfa') : IsFragment base nfa' f K where
  toEnds := hf.toEnds.frame h'
  language w := by rw [(h.path_between h' hf.start_ge hf.start_lt).1, hf.language]

/-- A fragment of what was built last is one of all that is new. -/
theorem IsFragment.lower (hf : IsFragment nfa nfa' f K) (h : Apart limit base nfa)
    (h' : Apart limit nfa nfa') : IsFragment base nfa' f K where
  toEnds := hf.toEnds.lower h h'
  language := hf.language

end Nfa

/-! ## Actions -/

namespace Build

open Nfa

/-- The failure to grow beyond the limit. -/
def Stopped (limit : Nat) (base : Nfa) (e : Failure) (nfa : Nfa) : Prop :=
  e = .error (.stateLimit limit) ∧ Apart limit base nfa

variable {limit : Nat} {base nfa : Nfa} {α : Type} {Q : α → Nfa → Prop} {E : Failure → Nfa → Prop}

theorem run_eq_ok {act : Build α} {a : α} {nfa' : Nfa} :
    run act nfa = .ok (a, nfa') ↔ act nfa = .ok a nfa' := by
  unfold run
  cases act nfa <;> simp

theorem exists_eq_ok_of_run {act : Build α} (h : (run act nfa).toOption.isSome = true) :
    ∃ a nfa', act nfa = .ok a nfa' := by
  obtain ⟨⟨a, nfa'⟩, hrun⟩ := exists_eq_ok h
  exact ⟨a, nfa', run_eq_ok.1 hrun⟩

theorem ensures_demand {a : α} {x : Except Breach α} (hx : x = .ok a) (h : Q a nfa) :
    Ensures (demand x) nfa Q E := by
  subst hx
  exact h

theorem ensures_newState {Q : Nat → Nfa → Prop} (h : Apart limit base nfa)
    (hok : nfa.size < limit → Q nfa.size (nfa.push .blank)) :
    Ensures (newState limit) nfa Q (Stopped limit base) := by
  refine ensures_bind (ensures_get ?_)
  split
  · exact ensures_throw ⟨rfl, h⟩
  · next hlt =>
    rw [Bool.or_eq_true, decide_eq_true_eq, not_or] at hlt
    exact ensures_bind (ensures_set (ensures_pure (hok (Nat.lt_of_not_le hlt.1))))

theorem ensures_change {i : Nat} {f : Nfa → Nfa} {Q : Unit → Nfa → Prop} (hi : i < nfa.size)
    (h : Q () (f nfa)) : Ensures (change i f) nfa Q E := by
  unfold Ensures
  rw [change, if_pos hi]
  exact h

theorem ensures_addEpsilon {i j : Nat} {Q : Unit → Nfa → Prop} (hi : i < nfa.size)
    (h : Q () (nfa.addEpsilon i j)) : Ensures (addEpsilon i j) nfa Q E := ensures_change hi h

/-- The action adds a fragment that matches `K` to an automaton over `n` classes, or stops at the
limit. -/
def Builds (limit n : Nat) (act : Build Fragment) (K : Language Nat) : Prop :=
  ∀ nfa : Nfa, nfa.InRange → nfa.numClasses = n →
    Ensures act nfa (fun f nfa' => Grown limit nfa nfa' ∧ IsFragment nfa nfa' f K)
      (Stopped limit nfa)

theorem Stopped.of_apart {nfa' : Nfa} {e : Failure} (h : Apart limit base nfa)
    (h' : Stopped limit nfa e nfa') : Stopped limit base e nfa' := ⟨h'.1, h.trans h'.2⟩

/-- One fragment after what has been built already. -/
theorem Builds.ensures {n : Nat} {act : Build Fragment} {K : Language Nat}
    (hact : Builds limit n act K) (hb : base.InRange) (hn : base.numClasses = n)
    (h : Grown limit base nfa) {Q : Fragment → Nfa → Prop}
    (hok : ∀ f nfa', Grown limit nfa nfa' → IsFragment nfa nfa' f K → Q f nfa') :
    Ensures act nfa Q (Stopped limit base) :=
  (hact nfa (h.inRange hb) (h.numClasses.trans hn)).mono (fun f nfa' h' => hok f nfa' h'.1 h'.2)
    fun _ _ h' => h'.of_apart h.toApart

end Build

end ScannerGen
