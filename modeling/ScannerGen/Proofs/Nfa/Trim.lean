import Mathlib.Order.Interval.Finset.Nat
import ScannerGen.Nfa.Build
import ScannerGen.Proofs.Nfa.Growth
import ScannerGen.Proofs.Reach
import ScannerGen.Proofs.Sorted

/-
  Trimming. The states from which the end can be reached are found exactly (`mem_live_iff`), so the
  edges that are dropped lie on no path to the end (`path_trim`), and those that are kept all lie on
  one (`allLive_trim`).
-/

namespace ScannerGen.Nfa

variable {limit : Nat} {base nfa : Nfa} {lo stop i j k : Nat} {o : Option Nat} {w : List Nat}

theorem mem_targetsOf : j ∈ nfa.targetsOf i ↔ ∃ o, nfa.Edge i o j := by
  unfold targetsOf
  rw [List.mem_append, List.mem_map]
  constructor
  · rintro (⟨⟨k, j⟩, hk, rfl⟩ | hj)
    · exact ⟨some k, hk⟩
    · exact ⟨none, hj⟩
  · intro ⟨o, he⟩
    cases o with
    | none => exact .inr he
    | some k => exact .inl ⟨(k, j), he, rfl⟩

theorem mem_getD_foldl_modify (i : Nat) (js : List Nat) (m : Array (List Nat)) {c x : Nat} :
    x ∈ (js.foldl (fun m j => m.modify j (i :: ·)) m).getD c [] ↔
      (c ∈ js ∧ c < m.size ∧ x = i) ∨ x ∈ m.getD c [] := by
  induction js generalizing m with
  | nil => simp
  | cons j js ih =>
    rw [List.foldl_cons, ih, mem_getD_modify_cons, Array.size_modify, List.mem_cons]
    constructor
    · rintro (⟨hc, hlt, rfl⟩ | ⟨rfl, hlt, rfl⟩ | hx)
      · exact .inl ⟨.inr hc, hlt, rfl⟩
      · exact .inl ⟨.inl rfl, hlt, rfl⟩
      · exact .inr hx
    · rintro (⟨rfl | hc, hlt, rfl⟩ | hx)
      · exact .inr (.inl ⟨rfl, hlt, rfl⟩)
      · exact .inl ⟨hc, hlt, rfl⟩
      · exact .inr (.inr hx)

theorem size_foldl_modify (i : Nat) (js : List Nat) (m : Array (List Nat)) :
    (js.foldl (fun m j => m.modify j (i :: ·)) m).size = m.size := by
  induction js generalizing m with
  | nil => rfl
  | cons j js ih => rw [List.foldl_cons, ih, Array.size_modify]

theorem mem_sources :
    i ∈ (nfa.sources lo).getD j [] ↔
      lo ≤ i ∧ i < nfa.size ∧ j < nfa.size ∧ ∃ o, nfa.Edge i o j := by
  have hfold : ∀ l : List Nat, ∀ m, m = l.foldr (fun i sources => (nfa.targetsOf i).foldl
      (fun sources j => sources.modify j (i :: ·)) sources) (Array.replicate nfa.size []) →
      m.size = nfa.size ∧ (i ∈ m.getD j [] ↔ i ∈ l ∧ j < nfa.size ∧ ∃ o, nfa.Edge i o j) := by
    intro l
    induction l with
    | nil =>
      rintro m rfl
      refine ⟨Array.size_replicate, ?_⟩
      by_cases hj : j < nfa.size <;> simp [hj]
    | cons a l ih =>
      rintro m rfl
      obtain ⟨hsize, hmem⟩ := ih _ rfl
      rw [List.foldr_cons, size_foldl_modify, mem_getD_foldl_modify, hsize, hmem, mem_targetsOf,
        List.mem_cons]
      refine ⟨rfl, ?_⟩
      constructor
      · rintro (⟨he, hj, rfl⟩ | ⟨hi, hj⟩)
        · exact ⟨.inl rfl, hj, he⟩
        · exact ⟨.inr hi, hj⟩
      · rintro ⟨rfl | hi, hj, he⟩
        · exact .inl ⟨he, hj, rfl⟩
        · exact .inr ⟨hi, hj, he⟩
  unfold sources
  rw [(hfold _ _ rfl).2, List.mem_range'_1, and_assoc]
  refine and_congr_right fun _ => and_congr_left fun h => ?_
  omega

/-- Edges from the states from `lo` on stay there. -/
def ClosedFrom (nfa : Nfa) (lo : Nat) : Prop :=
  ∀ {i o j}, lo ≤ i → nfa.Edge i o j → lo ≤ j ∧ j < nfa.size

theorem mem_live_iff (h : nfa.ClosedFrom lo) (hj : lo ≤ j) :
    j ∈ nfa.live lo stop ↔ ∃ w, nfa.Path j w stop := by
  have htargets : ∀ j, ∀ i ∈ (nfa.sources lo).getD j [], i ∈ Finset.Ico lo nfa.size := by
    intro j i hi
    obtain ⟨hlo, hlt, -⟩ := mem_sources.1 hi
    exact Finset.mem_Ico.2 ⟨hlo, hlt⟩
  unfold live
  rw [mem_reach htargets (Nat.le_of_eq (Nat.card_Ico ..))]
  simp only [IdSet.mem_single, exists_eq_left]
  constructor
  · intro hreach
    clear hj
    induction hreach with
    | refl => exact ⟨[], .refl stop⟩
    | tail _ hstep ih =>
      obtain ⟨w, p⟩ := ih
      obtain ⟨-, -, -, o, he⟩ := mem_sources.1 hstep
      exact ⟨o.toList ++ w, .step he p⟩
  · rintro ⟨w, p⟩
    induction p with
    | refl => exact .refl
    | step he _ ih =>
      obtain ⟨hge, hlt⟩ := h hj he
      exact (ih hge).tail (mem_sources.2 ⟨hj, he.lt_size, hlt, _, he⟩)

/-! ## Dropping edges -/

@[simp] theorem size_trim (nfa : Nfa) (lo stop : Nat) : (nfa.trim lo stop).size = nfa.size :=
  Array.size_mapIdx

theorem getElem?_trim_lt (hi : i < lo) : (nfa.trim lo stop).states[i]? = nfa.states[i]? := by
  unfold trim
  rw [Array.getElem?_mapIdx]
  cases nfa.states[i]? with
  | none => rfl
  | some s => simp [hi]

/-- What remains are the edges to states from which the end can be reached. -/
theorem edge_trim (h : nfa.ClosedFrom lo) (hi : lo ≤ i) :
    (nfa.trim lo stop).Edge i o j ↔ nfa.Edge i o j ∧ ∃ w, nfa.Path j w stop := by
  have hkeeps : nfa.Edge i o j → ((decide (j < lo) ||
      ((nfa.live lo stop).mask nfa.size).getD j true) = true ↔ ∃ w, nfa.Path j w stop) := by
    intro he
    obtain ⟨hge, hlt⟩ := h hi he
    rw [Array.getD_eq_getD_getElem?, IdSet.getElem?_mask hlt, Option.getD_some, Bool.or_eq_true,
      decide_eq_true_eq, decide_eq_true_eq, mem_live_iff h hge, or_iff_right (Nat.not_lt.2 hge)]
  have hget : (nfa.trim lo stop).states[i]? = nfa.states[i]?.map fun s =>
      { s with
        moves := s.moves.filter fun x => decide (x.2 < lo) ||
          ((nfa.live lo stop).mask nfa.size).getD x.2 true
        epsilon := s.epsilon.filter fun j => decide (j < lo) ||
          ((nfa.live lo stop).mask nfa.size).getD j true } := by
    unfold trim
    rw [Array.getElem?_mapIdx]
    simp only [if_neg (Nat.not_lt.2 hi)]
  rw [← and_congr_right hkeeps]
  cases o with
  | none =>
    unfold Edge
    rw [epsilonOf, epsilonOf, hget]
    cases nfa.states[i]? with
    | none => simp
    | some s => simp
  | some k =>
    unfold Edge
    rw [movesOf, movesOf, hget]
    cases nfa.states[i]? with
    | none => simp
    | some s => simp

theorem path_trim (h : nfa.ClosedFrom lo) (hi : lo ≤ i) :
    (nfa.trim lo stop).Path i w stop ↔ nfa.Path i w stop := by
  constructor
  · intro p
    exact p.transfer (P := fun i => lo ≤ i)
      (fun i o j hi he => ⟨((edge_trim h hi).1 he).1, (h hi ((edge_trim h hi).1 he).1).1⟩) hi
  · intro p
    induction p with
    | refl => exact .refl _
    | step he p ih => exact .step ((edge_trim h hi).2 ⟨he, _, p⟩) (ih (h hi he).1)

/-- Every edge of the states from `lo` on leads to a state from which `stop` can be reached. -/
def AllLive (nfa : Nfa) (lo stop : Nat) : Prop :=
  ∀ {i o j}, lo ≤ i → nfa.Edge i o j → ∃ w, nfa.Path j w stop

theorem allLive_trim (h : nfa.ClosedFrom lo) : (nfa.trim lo stop).AllLive lo stop := by
  intro i o j hi he
  obtain ⟨he, w, p⟩ := (edge_trim h hi).1 he
  exact ⟨w, (path_trim h (h hi he).1).2 p⟩

/-- Where every edge is on a way to the end, only the state in which a path begins may be cut off
from it. -/
theorem AllLive.of_path (h : nfa.AllLive lo stop) (hclosed : nfa.ClosedFrom lo) (hi : lo ≤ i)
    (p : nfa.Path i w j) : j = i ∨ ∃ v, nfa.Path j v stop := by
  induction p with
  | refl => exact .inl rfl
  | @step i j l o w he _ ih =>
    rcases ih (hclosed hi he).1 with rfl | hlive
    · exact .inr (h hi he)
    · exact .inr hlive

theorem Apart.closedFrom (h : Apart limit base nfa) : nfa.ClosedFrom base.size := h.edge

theorem Apart.trim (h : Apart limit base nfa) (stop : Nat) :
    Apart limit base (nfa.trim base.size stop) where
  numClasses := h.numClasses
  numLex := h.numLex
  size_le := by
    rw [size_trim]
    exact h.size_le
  bounded := by
    rw [size_trim]
    exact h.bounded
  old hi := (getElem?_trim_lt hi).trans (h.old hi)
  unmarked {i s} hi hs := by
    unfold Nfa.trim at hs
    rw [Array.getElem?_mapIdx] at hs
    obtain ⟨s', hs', rfl⟩ := Option.map_eq_some_iff.1 hs
    have := h.unmarked hi hs'
    rw [if_neg (Nat.not_lt.2 hi)]
    exact this
  edge hi he := by
    rw [size_trim]
    exact h.edge hi ((edge_trim h.closedFrom hi).1 he).1

theorem Grown.trim (h : Grown limit base nfa) (stop : Nat) :
    Grown limit base (nfa.trim base.size stop) where
  toApart := h.toApart.trim stop
  class_lt hi he := h.class_lt hi ((edge_trim h.closedFrom hi).1 he).1

theorem Ends.trim {f : Fragment} (hf : Ends base nfa f) (h : Apart limit base nfa) (stop : Nat) :
    Ends base (nfa.trim base.size stop) f where
  start_ge := hf.start_ge
  start_lt := by
    rw [size_trim]
    exact hf.start_lt
  stop_ge := hf.stop_ge
  stop_lt := by
    rw [size_trim]
    exact hf.stop_lt
  start_ne_stop := hf.start_ne_stop
  no_entry hi he := hf.no_entry hi ((edge_trim h.closedFrom hi).1 he).1
  no_exit he := hf.no_exit ((edge_trim h.closedFrom hf.stop_ge).1 he).1

/-- A fragment is trimmed to what lies on a way to its end. -/
theorem IsFragment.trim {f : Fragment} {K : Language Nat} (hf : IsFragment base nfa f K)
    (h : Apart limit base nfa) : IsFragment base (nfa.trim base.size f.stop) f K where
  toEnds := hf.toEnds.trim h f.stop
  language w := by rw [path_trim h.closedFrom hf.start_ge, hf.language]

end ScannerGen.Nfa
