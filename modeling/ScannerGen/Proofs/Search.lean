import Mathlib.Data.List.Nodup
import Mathlib.Data.List.Perm.Subperm
import ScannerGen.Proofs.Reach

/-
  Runs of a relation with the number of their steps, and searching as such a run, with a list of
  what is still to be left. A step takes any of the pending identifiers, the last one for a search
  in depth or the first one for a search in breadth, and appends what it leads to for the first
  time. `Reached` is what every step keeps: what has been found is reachable, what has been left
  leads to nothing new, and every identifier is pending just once. So in any order the search takes
  as many steps as there are reachable identifiers (`finds_of_mem_iff`).
-/

namespace ScannerGen

section Runs

variable {σ : Type} {R : σ → σ → Prop} {a b c : σ} {n : Nat}

/-- So many steps of `R` lead from `a` to a state. -/
inductive InSteps (R : σ → σ → Prop) (a : σ) : Nat → σ → Prop where
  | refl : InSteps R a 0 a
  | tail {n : Nat} {b c : σ} (h : InSteps R a n b) (hbc : R b c) : InSteps R a (n + 1) c

theorem InSteps.head (hab : R a b) (h : InSteps R b n c) : InSteps R a (n + 1) c := by
  induction h with
  | refl => exact .tail .refl hab
  | tail _ hstep ih => exact .tail ih hstep

/-- What holds at the start and is kept by every step holds after every run. -/
theorem InSteps.keeps {I : Nat → σ → Prop} (h : InSteps R a n b) (hstart : I 0 a)
    (hstep : ∀ {n b c}, I n b → R b c → I (n + 1) c) : I n b := by
  induction h with
  | refl => exact hstart
  | tail _ hbc ih => exact hstep ih hbc

end Runs

namespace IdSet

theorem nodup_toList (s : IdSet) : s.toList.Nodup := s.ascending.imp Nat.ne_of_lt

theorem size_le_of_subset {s t : IdSet} (h : ∀ i ∈ s, i ∈ t) : s.size ≤ t.size :=
  (s.nodup_toList.subperm h).length_le

/-- A union has the members of the first set and those of the second that are new. -/
theorem size_union (s t : IdSet) :
    (s.union t).size = s.size + (t.toList.filter (· ∉ s)).length := by
  have hnodup : (s.toList ++ t.toList.filter (· ∉ s)).Nodup := by
    refine s.nodup_toList.append (t.nodup_toList.filter _) fun i hi hnew => ?_
    exact of_decide_eq_true (List.mem_filter.1 hnew).2 hi
  have hperm : (s.union t).toList.Perm (s.toList ++ t.toList.filter (· ∉ s)) := by
    refine (List.perm_ext_iff_of_nodup (s.union t).nodup_toList hnodup).2 fun i => ?_
    rw [mem_toList, mem_union, List.mem_append, List.mem_filter, mem_toList, mem_toList,
      decide_eq_true_eq]
    tauto
  rw [size, hperm.length_eq, List.length_append, size]

end IdSet

/-- What has been found, and what of it has still to be left. -/
structure Search where
  found : IdSet
  pending : List Nat

namespace Search

variable {next : Nat → IdSet} {s c : IdSet} {t u : Search} {n j : Nat}

/-- Nothing but `s` has been found, and all of it is pending. -/
def start (s : IdSet) : Search := ⟨s, s.toList⟩

/-- One of the pending identifiers is left. -/
inductive Step (next : Nat → IdSet) : Search → Search → Prop where
  | leave {found : IdSet} {pending rest later : List Nat} {i : Nat}
      (htake : pending.Perm (i :: rest))
      (hput : later.Perm (rest ++ (next i).toList.filter (· ∉ found))) :
      Step next ⟨found, pending⟩ ⟨found.union (next i), later⟩

/-- The search in depth takes the last identifier and puts the new ones in its place. -/
theorem step_last (next : Nat → IdSet) (found : IdSet) (rest : List Nat) (i : Nat) :
    Step next ⟨found, rest ++ [i]⟩
      ⟨found.union (next i), rest ++ (next i).toList.filter (· ∉ found)⟩ :=
  .leave (List.perm_append_singleton i rest) (List.Perm.refl _)

theorem exists_step (next : Nat → IdSet) (h : t.pending ≠ []) : ∃ u, Step next t u := by
  obtain ⟨found, pending⟩ := t
  obtain ⟨rest, i, rfl⟩ := (List.eq_nil_or_concat' pending).resolve_left h
  exact ⟨_, step_last next found rest i⟩

/-- The state of a search from `s` after `n` steps. -/
structure Reached (next : Nat → IdSet) (s : IdSet) (n : Nat) (t : Search) : Prop where
  start_subset : ∀ {i}, i ∈ s → i ∈ t.found
  pending_subset : ∀ {i}, i ∈ t.pending → i ∈ t.found
  reaches : ∀ {j}, j ∈ t.found → ∃ i ∈ s, Reaches (fun i => (next i).toList) i j
  closed : ∀ {i}, i ∈ t.found → i ∉ t.pending → ∀ j ∈ next i, j ∈ t.found
  count : n + t.pending.length = t.found.size

theorem reached_start (next : Nat → IdSet) (s : IdSet) : Reached next s 0 (start s) where
  start_subset hi := hi
  pending_subset hi := hi
  reaches {j} hj := ⟨j, hj, .refl⟩
  closed hi hleft := absurd hi hleft
  count := Nat.zero_add _

theorem Reached.step (h : Reached next s n t) (hstep : Step next t u) :
    Reached next s (n + 1) u := by
  obtain @⟨found, pending, rest, later, i, htake, hput⟩ := hstep
  have mem_pending {j : Nat} : j ∈ pending ↔ j = i ∨ j ∈ rest := by
    rw [htake.mem_iff, List.mem_cons]
  have mem_later {j : Nat} : j ∈ later ↔ j ∈ rest ∨ (j ∈ next i ∧ j ∉ found) := by
    rw [hput.mem_iff, List.mem_append, List.mem_filter, decide_eq_true_eq, IdSet.mem_toList]
  have hi : i ∈ found := h.pending_subset (mem_pending.2 (.inl rfl))
  constructor
  case start_subset => exact fun hj => IdSet.mem_union.2 (.inl (h.start_subset hj))
  case pending_subset =>
    intro j hj
    rw [IdSet.mem_union]
    exact (mem_later.1 hj).imp (fun hj => h.pending_subset (mem_pending.2 (.inr hj))) (·.1)
  case reaches =>
    intro j hj
    rcases IdSet.mem_union.1 hj with hj | hj
    · exact h.reaches hj
    · obtain ⟨a, ha, hai⟩ := h.reaches hi
      exact ⟨a, ha, hai.tail hj⟩
  case closed =>
    intro a ha hleft j hj
    rw [IdSet.mem_union]
    by_cases hai : a = i
    · exact .inr (hai ▸ hj)
    · by_cases hold : a ∈ found
      · have hnot : a ∉ pending := fun hp =>
          hleft (mem_later.2 (.inl ((mem_pending.1 hp).resolve_left hai)))
        exact .inl (h.closed hold hnot j hj)
      · -- what was found in this step is still pending
        have hnext : a ∈ next i := (IdSet.mem_union.1 ha).resolve_left hold
        exact absurd (mem_later.2 (.inr ⟨hnext, hold⟩)) hleft
  case count =>
    have hcount : n + pending.length = found.size := h.count
    show n + 1 + later.length = (found.union (next i)).size
    rw [htake.length_eq, List.length_cons] at hcount
    rw [hput.length_eq, List.length_append, IdSet.size_union]
    omega

theorem reached_of_inSteps (h : InSteps (Step next) (start s) n t) : Reached next s n t :=
  h.keeps (reached_start next s) Reached.step

/-- When nothing is pending any more, everything that is reachable has been found. -/
theorem Reached.mem_found_iff (h : Reached next s n t) (hend : t.pending = []) :
    j ∈ t.found ↔ ∃ i ∈ s, Reaches (fun i => (next i).toList) i j := by
  constructor
  · exact h.reaches
  · intro ⟨i, hi, hij⟩
    refine hij.mem_of_closed (P := (· ∈ t.found)) (fun a ha b hb => ?_) (h.start_subset hi)
    exact h.closed ha (by rw [hend]; exact List.not_mem_nil) b hb

/-- In whatever order it goes on, the search from `s` comes to an end, after as many steps as `c`
has members, and has then found `c`. -/
structure Finds (next : Nat → IdSet) (s c : IdSet) : Prop where
  continues : ∀ {n t}, InSteps (Step next) (start s) n t → t.pending ≠ [] → ∃ u, Step next t u
  steps_le : ∀ {n t}, InSteps (Step next) (start s) n t → n ≤ c.size
  ends : ∀ {n t}, InSteps (Step next) (start s) n t → t.pending = [] → t.found = c ∧ n = c.size

theorem finds_of_mem_iff
    (hc : ∀ j, j ∈ c ↔ ∃ i ∈ s, Reaches (fun i => (next i).toList) i j) : Finds next s c where
  continues _ hpending := exists_step next hpending
  steps_le h := by
    have hreached := reached_of_inSteps h
    have hle := IdSet.size_le_of_subset fun j hj => (hc j).2 (hreached.reaches hj)
    have := hreached.count
    omega
  ends h hend := by
    have hreached := reached_of_inSteps h
    have hfound := IdSet.ext_mem fun j => (hreached.mem_found_iff hend).trans (hc j).symm
    have hcount := hreached.count
    rw [hend, List.length_nil, hfound] at hcount
    exact ⟨hfound, hcount⟩

end Search

end ScannerGen
