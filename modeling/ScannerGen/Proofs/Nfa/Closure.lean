import ScannerGen.Nfa.Closure
import ScannerGen.Proofs.Ensures
import ScannerGen.Proofs.Nfa.Growth
import ScannerGen.Proofs.Reach
import ScannerGen.Proofs.Sorted

/-
  Closures. What is found without reading is what edges without a label lead to (`mem_closure_iff`),
  or paths for the empty word (`mem_closure`), and the closed moves lead to what paths for one class
  lead to (`closedMoves_eq_ok`, `mem_closedMovesOf`).
-/

namespace ScannerGen.Nfa

variable {nfa : Nfa} {s : IdSet} {i j k : Nat} {w : List Nat}

/-- Any number of edges without a label lead from `i` to `j`. -/
abbrev Drifts (nfa : Nfa) : Nat → Nat → Prop := Reaches fun i => (nfa.epsilonOf i).toList

theorem drifts_iff_path : nfa.Drifts i j ↔ nfa.Path i [] j := by
  constructor
  · intro h
    induction h with
    | refl => exact .refl i
    | tail _ hstep ih => exact ih.trans (.eps hstep (.refl _))
  · intro p
    generalize hw : [] = w at p
    induction p with
    | refl => exact .refl
    | @step _ _ _ o _ he _ ih =>
      obtain ⟨ho, rfl⟩ := List.append_eq_nil_iff.1 hw.symm
      cases o with
      | none => exact .head he (ih rfl)
      | some k => cases ho

/-- Nothing but states of the automaton. -/
def Within (nfa : Nfa) (s : IdSet) : Prop := ∀ i ∈ s, i < nfa.size

theorem all_lt_iff : s.toList.all (· < nfa.size) = true ↔ nfa.Within s := by
  rw [List.all_eq_true]
  simp only [decide_eq_true_eq]
  rfl

/-- A closure is exact if the edges without a label lead to states. -/
theorem mem_closure_iff (h : ∀ {i j}, j ∈ nfa.epsilonOf i → j < nfa.size) :
    j ∈ nfa.closure s ↔ ∃ i ∈ s, nfa.Drifts i j := by
  have htargets : ∀ i, ∀ j ∈ (nfa.epsilonOf i).toList, j ∈ Finset.range nfa.size := fun i j hj =>
    Finset.mem_range.2 (h hj)
  exact mem_reach htargets (Nat.le_of_eq (Finset.card_range _))

/-- A closure leaves the states only if the set does. -/
theorem within_closure_iff (h : ∀ {i j}, j ∈ nfa.epsilonOf i → j < nfa.size) :
    nfa.Within (nfa.closure s) ↔ nfa.Within s := by
  constructor
  · exact fun hc i hi => hc i ((mem_closure_iff h).2 ⟨i, hi, .refl⟩)
  · intro hs j hj
    obtain ⟨i, hi, hij⟩ := (mem_closure_iff h).1 hj
    exact hij.mem_of_closed (P := (· < nfa.size)) (fun _ _ _ hb => h hb) (hs i hi)

theorem closure?_eq (h : ∀ {i j}, j ∈ nfa.epsilonOf i → j < nfa.size) (s : IdSet) :
    nfa.closure? s =
      if s.toList.all (· < nfa.size) then .ok (nfa.closure s) else .error .noSuchState := by
  unfold closure?
  by_cases hs : nfa.Within s
  · rw [if_pos (all_lt_iff.2 hs)]
    exact if_pos (all_lt_iff.2 ((within_closure_iff h).2 hs))
  · rw [if_neg fun hall => hs (all_lt_iff.1 hall)]
    exact if_neg fun hall => hs ((within_closure_iff h).1 (all_lt_iff.1 hall))

theorem InRange.epsilon_lt (h : nfa.InRange) (hj : j ∈ nfa.epsilonOf i) : j < nfa.size :=
  h.target_lt (o := none) hj

theorem InRange.mem_closure (h : nfa.InRange) : j ∈ nfa.closure s ↔ ∃ i ∈ s, nfa.Path i [] j := by
  rw [mem_closure_iff h.epsilon_lt]
  simp only [drifts_iff_path]

/-- A word leads from the closure to where it leads from the set itself. -/
theorem InRange.path_closure (h : nfa.InRange) :
    (∃ i ∈ nfa.closure s, nfa.Path i w j) ↔ ∃ i ∈ s, nfa.Path i w j := by
  constructor
  · intro ⟨i, hi, p⟩
    obtain ⟨a, ha, pa⟩ := h.mem_closure.1 hi
    exact ⟨a, ha, pa.trans p⟩
  · intro ⟨i, hi, p⟩
    exact ⟨i, h.mem_closure.2 ⟨i, hi, .refl i⟩, p⟩

theorem InRange.within_closure (h : nfa.InRange) (hs : nfa.Within s) :
    nfa.Within (nfa.closure s) :=
  (within_closure_iff h.epsilon_lt).2 hs

/-- States of the automaton, with all that is reached from them without reading. -/
structure IsClosed (nfa : Nfa) (s : IdSet) : Prop where
  within : nfa.Within s
  closed : ∀ {i j}, i ∈ s → nfa.Path i [] j → j ∈ s

theorem InRange.isClosed_closure (h : nfa.InRange) (hs : nfa.Within s) :
    nfa.IsClosed (nfa.closure s) where
  within := h.within_closure hs
  closed hi p := by
    obtain ⟨a, ha, p'⟩ := h.mem_closure.1 hi
    exact h.mem_closure.2 ⟨a, ha, p'.trans p⟩

theorem closure?_eq_ok (h : ∀ {i j}, j ∈ nfa.epsilonOf i → j < nfa.size) (hs : nfa.Within s) :
    nfa.closure? s = .ok (nfa.closure s) := by
  rw [closure?_eq h, if_pos (all_lt_iff.2 hs)]

theorem InRange.closure?_eq_ok (h : nfa.InRange) (hs : nfa.Within s) :
    nfa.closure? s = .ok (nfa.closure s) := Nfa.closure?_eq_ok h.epsilon_lt hs

/-! ## Moves -/

theorem mem_movesFrom : (k, j) ∈ nfa.movesFrom s ↔ ∃ i ∈ s, (k, j) ∈ nfa.movesOf i :=
  List.mem_flatMap

/-- Every class that can be read, with the closure of what is reached by it. -/
def closedMovesOf (nfa : Nfa) (s : IdSet) : List (Nat × IdSet) :=
  (gather (nfa.movesFrom s)).map fun x => (x.1, nfa.closure x.2)

theorem closedMoves_eq_ok (h : ∀ {i o j}, nfa.Edge i o j → j < nfa.size) (s : IdSet) :
    nfa.closedMoves s = .ok (nfa.closedMovesOf s) := by
  apply mapM_eq_ok
  rintro ⟨k, targets⟩ hk
  have hwithin : nfa.Within targets := by
    intro j hj
    obtain ⟨i, -, hmove⟩ := mem_movesFrom.1 (((mem_gather_iff.1 hk).2 j).1 hj)
    exact h (o := some k) hmove
  simp only [closure?_eq_ok (fun hj => h (o := none) hj) hwithin]

theorem InRange.closedMoves_eq_ok (h : nfa.InRange) (s : IdSet) :
    nfa.closedMoves s = .ok (nfa.closedMovesOf s) := Nfa.closedMoves_eq_ok h.target_lt s

theorem closedMovesOf_nodup (nfa : Nfa) (s : IdSet) :
    ((nfa.closedMovesOf s).map (·.1)).Nodup := by
  unfold closedMovesOf
  rw [List.map_map]
  exact (gather_ascending _).imp Nat.ne_of_lt

theorem InRange.mem_closedMovesOf (h : nfa.InRange) {c : IdSet}
    (hc : (k, c) ∈ nfa.closedMovesOf s) :
    k < nfa.numClasses ∧ nfa.IsClosed c ∧ (∃ j, j ∈ c) ∧
      ∀ j, j ∈ c ↔ ∃ i ∈ s, ∃ a, (k, a) ∈ nfa.movesOf i ∧ nfa.Path a [] j := by
  obtain ⟨⟨k', targets⟩, hk, heq⟩ := List.mem_map.1 hc
  obtain ⟨rfl, rfl⟩ := Prod.mk.inj heq
  obtain ⟨⟨a, ha⟩, htargets⟩ := mem_gather_iff.1 hk
  obtain ⟨i, hi, hmove⟩ := mem_movesFrom.1 ha
  have hwithin : nfa.Within targets := by
    intro j hj
    obtain ⟨i, -, hmove⟩ := mem_movesFrom.1 ((htargets j).1 hj)
    exact h.target_lt (o := some k') hmove
  refine ⟨h.class_lt hmove, h.isClosed_closure hwithin,
    ⟨a, h.mem_closure.2 ⟨a, (htargets a).2 ha, .refl a⟩⟩, fun j => ?_⟩
  rw [h.mem_closure]
  constructor
  · intro ⟨a, ha, p⟩
    obtain ⟨i, hi, hmove⟩ := mem_movesFrom.1 ((htargets a).1 ha)
    exact ⟨i, hi, a, hmove, p⟩
  · intro ⟨i, hi, a, hmove, p⟩
    exact ⟨a, (htargets a).2 (mem_movesFrom.2 ⟨i, hi, hmove⟩), p⟩

theorem exists_mem_closedMovesOf (hi : i ∈ s) (hmove : (k, j) ∈ nfa.movesOf i) :
    ∃ c, (k, c) ∈ nfa.closedMovesOf s := by
  obtain ⟨targets, hk⟩ := exists_mem_gather (mem_movesFrom.2 ⟨i, hi, hmove⟩)
  exact ⟨nfa.closure targets, List.mem_map.2 ⟨_, hk, rfl⟩⟩

/-- Where a word leads from a set, its rest leads from the set that follows by its first class. -/
theorem IsClosed.path_cons_iff (hs : nfa.IsClosed s) (h : nfa.InRange) {c : IdSet}
    (hc : (k, c) ∈ nfa.closedMovesOf s) :
    (∃ i ∈ s, nfa.Path i (k :: w) j) ↔ ∃ i ∈ c, nfa.Path i w j := by
  obtain ⟨-, -, -, hmem⟩ := h.mem_closedMovesOf hc
  constructor
  · intro ⟨i, hi, p⟩
    obtain ⟨a, b, pa, hmove, pb⟩ := Nfa.path_cons_iff.1 p
    exact ⟨b, (hmem b).2 ⟨a, hs.closed hi pa, b, hmove, .refl b⟩, pb⟩
  · intro ⟨b, hb, p⟩
    obtain ⟨i, hi, a, hmove, pa⟩ := (hmem b).1 hb
    exact ⟨i, hi, Path.move hmove (pa.trans p)⟩

/-- No word leads on whose first class cannot be read. -/
theorem IsClosed.not_path_cons (hs : nfa.IsClosed s) (hk : ∀ c, (k, c) ∉ nfa.closedMovesOf s) :
    ¬∃ i ∈ s, nfa.Path i (k :: w) j := by
  intro ⟨i, hi, p⟩
  obtain ⟨a, b, pa, hmove, -⟩ := Nfa.path_cons_iff.1 p
  obtain ⟨c, hc⟩ := exists_mem_closedMovesOf (hs.closed hi pa) hmove
  exact hk c hc

theorem IsClosed.path_nil_iff (hs : nfa.IsClosed s) : (∃ i ∈ s, nfa.Path i [] j) ↔ j ∈ s :=
  ⟨fun ⟨_, hi, p⟩ => hs.closed hi p, fun hj => ⟨j, hj, .refl j⟩⟩

end ScannerGen.Nfa
