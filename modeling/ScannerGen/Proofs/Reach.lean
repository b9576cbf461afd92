import Mathlib.Data.Finset.Card
import Mathlib.Logic.Relation
import ScannerGen.IdSet

/-
  Reachability. The rounds find what steps lead to and nothing else (`mem_reach`), as long as there
  are at least as many rounds as there are targets of steps.
-/

namespace ScannerGen

variable {next : Nat → List Nat} {i j : Nat}

/-- Any number of steps lead from `i` to `j`. -/
abbrev Reaches (next : Nat → List Nat) : Nat → Nat → Prop :=
  Relation.ReflTransGen fun i j => j ∈ next i

/-- What no step leaves contains all that is reachable from it. -/
theorem Reaches.mem_of_closed {P : Nat → Prop} (hP : ∀ i, P i → ∀ j ∈ next i, P j)
    (h : Reaches next i j) (hi : P i) : P j := by
  induction h with
  | refl => exact hi
  | tail _ hstep ih => exact hP _ ih _ hstep

/-- Nothing is left to do when no step leaves what has been seen. -/
theorem mem_iff_of_closed {seen : Std.TreeSet Nat}
    (hclosed : ∀ i ∈ seen, ∀ j ∈ next i, j ∈ seen) :
    j ∈ seen ↔ ∃ i ∈ seen, Reaches next i j :=
  ⟨fun hj => ⟨j, hj, .refl⟩, fun ⟨_, hi, hij⟩ => hij.mem_of_closed (P := (· ∈ seen)) hclosed hi⟩

/-- The numbers of `S` that have not been seen. -/
def unseen (S : Finset Nat) (seen : Std.TreeSet Nat) : Finset Nat := S.filter (· ∉ seen)

/-! ## One round -/

section Round

variable {S : Finset Nat} {seen : Std.TreeSet Nat} {frontier fresh : IdSet}

/-- What a round finds for the first time. -/
def IsFresh (next : Nat → List Nat) (seen : Std.TreeSet Nat) (frontier fresh : IdSet) : Prop :=
  ∀ j, j ∈ fresh ↔ (∃ i ∈ frontier, j ∈ next i) ∧ j ∉ seen

theorem isFresh_ofList : IsFresh next seen frontier
    (IdSet.ofList ((frontier.toList.flatMap next).filter fun j => !seen.contains j)) := by
  intro j
  rw [IdSet.mem_ofList, List.mem_filter, List.mem_flatMap, Bool.not_eq_true',
    ← Bool.not_eq_true, Std.TreeSet.contains_iff_mem]
  rfl

theorem mem_insertMany_toList :
    j ∈ seen.insertMany fresh.toList ↔ j ∈ seen ∨ j ∈ fresh := by
  rw [Std.TreeSet.mem_insertMany_list, List.contains_iff_mem]
  rfl

variable (h : IsFresh next seen frontier fresh)
include h

/-- Steps from what was seen before the frontier find nothing new. -/
theorem IsFresh.mem_or_mem (hseen : ∀ i ∈ seen, i ∉ frontier → ∀ j ∈ next i, j ∈ seen)
    (hi : i ∈ seen) (hj : j ∈ next i) : j ∈ seen ∨ j ∈ fresh := by
  by_cases hfrontier : i ∈ frontier
  · exact Classical.or_iff_not_imp_left.2 fun hnot => (h j).2 ⟨⟨i, hfrontier, hj⟩, hnot⟩
  · exact .inl (hseen i hi hfrontier j hj)

theorem IsFresh.card_unseen_lt (hS : ∀ i, ∀ j ∈ next i, j ∈ S) (hj : j ∈ fresh) :
    (unseen S (seen.insertMany fresh.toList)).card < (unseen S seen).card := by
  obtain ⟨⟨i, -, hij⟩, hnot⟩ := (h j).1 hj
  refine Finset.card_lt_card ⟨fun k hk => ?_, fun hsub => ?_⟩
  · obtain ⟨hkS, hknot⟩ := Finset.mem_filter.1 hk
    exact Finset.mem_filter.2 ⟨hkS, fun hk => hknot (mem_insertMany_toList.2 (.inl hk))⟩
  · have hmem := hsub (Finset.mem_filter.2 ⟨hS i j hij, hnot⟩)
    exact (Finset.mem_filter.1 hmem).2 (mem_insertMany_toList.2 (.inr hj))

/-- From what a round finds nothing is reachable that was not before. -/
theorem IsFresh.exists_reaches_iff (hfrontier : ∀ i ∈ frontier, i ∈ seen) :
    (∃ i ∈ seen.insertMany fresh.toList, Reaches next i j) ↔ ∃ i ∈ seen, Reaches next i j := by
  constructor
  · intro ⟨i, hi, hij⟩
    rcases mem_insertMany_toList.1 hi with hi | hi
    · exact ⟨i, hi, hij⟩
    · obtain ⟨⟨k, hk, hki⟩, -⟩ := (h i).1 hi
      exact ⟨k, hfrontier k hk, .head hki hij⟩
  · intro ⟨i, hi, hij⟩
    exact ⟨i, mem_insertMany_toList.2 (.inl hi), hij⟩

end Round

/-! ## All rounds -/

theorem mem_reachFrom {S : Finset Nat} (hS : ∀ i, ∀ j ∈ next i, j ∈ S) {depth : Nat}
    {seen : Std.TreeSet Nat} {frontier : IdSet} (hdepth : (unseen S seen).card ≤ depth)
    (hfrontier : ∀ i ∈ frontier, i ∈ seen)
    (hseen : ∀ i ∈ seen, i ∉ frontier → ∀ j ∈ next i, j ∈ seen) :
    j ∈ reachFrom next depth seen frontier ↔ ∃ i ∈ seen, Reaches next i j := by
  induction depth generalizing seen frontier with
  | zero =>
    unfold reachFrom
    apply mem_iff_of_closed
    intro i _ j hj
    by_contra hnot
    have hmem : j ∈ unseen S seen := Finset.mem_filter.2 ⟨hS i j hj, hnot⟩
    rw [Finset.card_eq_zero.1 (Nat.le_zero.1 hdepth)] at hmem
    exact absurd hmem (Finset.notMem_empty j)
  | succ depth ih =>
    rw [reachFrom]
    have hfresh : IsFresh next seen frontier _ := isFresh_ofList
    generalize IdSet.ofList ((frontier.toList.flatMap next).filter fun j =>
      !seen.contains j) = fresh at hfresh
    split
    · next hempty =>
      refine mem_iff_of_closed fun i hi j hj => ?_
      refine (hfresh.mem_or_mem hseen hi hj).resolve_right fun hmem => ?_
      rw [← IdSet.mem_toList, List.isEmpty_iff.1 hempty] at hmem
      exact absurd hmem List.not_mem_nil
    · next hempty =>
      obtain ⟨k, hk⟩ := List.exists_mem_of_ne_nil _ fun h => hempty (List.isEmpty_iff.2 h)
      have hlt := hfresh.card_unseen_lt hS hk
      rw [ih (by omega) (fun i hi => mem_insertMany_toList.2 (.inr hi)),
        hfresh.exists_reaches_iff hfrontier]
      intro i hi hif j hj
      have hi : i ∈ seen := (mem_insertMany_toList.1 hi).resolve_right hif
      exact mem_insertMany_toList.2 (hfresh.mem_or_mem hseen hi hj)

theorem mem_reachFrom_of_mem {depth : Nat} {seen : Std.TreeSet Nat} {frontier : IdSet}
    (h : i ∈ seen) : i ∈ reachFrom next depth seen frontier := by
  induction depth generalizing seen frontier with
  | zero => exact h
  | succ depth ih =>
    rw [reachFrom]
    split
    · exact h
    · exact ih (Std.TreeSet.mem_insertMany_list.2 (.inl h))

/-- The start is found in any number of rounds. -/
theorem mem_reach_of_mem {depth : Nat} {s : IdSet} (h : i ∈ s) : i ∈ reach next depth s := by
  unfold reach
  rw [IdSet.mem_ofTree]
  apply mem_reachFrom_of_mem
  rwa [Std.TreeSet.mem_ofList, List.contains_iff_mem, IdSet.mem_toList]

/-- The rounds are enough if there are as many of them as targets. -/
theorem mem_reach {S : Finset Nat} (hS : ∀ i, ∀ j ∈ next i, j ∈ S) {depth : Nat}
    (hdepth : S.card ≤ depth) {s : IdSet} :
    j ∈ reach next depth s ↔ ∃ i ∈ s, Reaches next i j := by
  have hstart : ∀ i, i ∈ Std.TreeSet.ofList s.toList ↔ i ∈ s := fun i => by
    rw [Std.TreeSet.mem_ofList, List.contains_iff_mem, IdSet.mem_toList]
  unfold reach
  rw [IdSet.mem_ofTree, mem_reachFrom hS]
  · simp only [hstart]
  · exact Nat.le_trans (Finset.card_filter_le ..) hdepth
  · exact fun i hi => (hstart i).2 hi
  · exact fun i hi hnot => absurd ((hstart i).1 hi) hnot

end ScannerGen
