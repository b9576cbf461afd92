import Mathlib.Data.List.ProdSigma
import ScannerGen.Proofs.Dfa.Refinement
import ScannerGen.Proofs.Search

/-
  Runs of the refinement. An iteration takes any pending pair and splits by it, in any order, the
  blocks that it touches. `Progress` is what every iteration keeps, also one that divides the block
  it splits by: the blocks partition the states, and the pairs that have been taken and those that
  are pending are together one for every block and class. So a run ends, in any order, when as many
  pairs have been taken as there are blocks and classes (`refinement_ends_with_partition`).
-/

namespace ScannerGen

namespace Blocks

variable {d : Dfa} {strict : Bool} {t t₀ u : Blocks} {n b k i j : Nat}

/-! ## Partitions as they are stored -/

/-- The blocks hold every state below `n` once, and `blockOf` names the block of each. -/
structure IsPartition (t : Blocks) (n : Nat) : Prop where
  ne_nil : ∀ l ∈ t.members, l ≠ []
  nodup : ∀ l ∈ t.members, l.Nodup
  disjoint : t.members.toList.Pairwise List.Disjoint
  covers : ∀ i, (∃ l ∈ t.members, i ∈ l) ↔ i < n
  size_blockOf : t.blockOf.size = n
  blockOf_iff : ∀ i b, t.blockOf[i]? = some b ↔ ∃ l : List Nat, t.members[b]? = some l ∧ i ∈ l

theorem IsPartition.consistent (h : t.IsPartition n) : t.Consistent n where
  size_blockOf := h.size_blockOf
  mem_iff := mem_getD_iff.trans (h.blockOf_iff _ _).symm
  ne_nil hb := by
    rw [getD_of_getElem? (Array.getElem?_eq_getElem hb)]
    exact h.ne_nil _ (Array.getElem_mem hb)

theorem Consistent.isPartition (ht : t.Consistent n) (hnodup : ∀ l ∈ t.members, l.Nodup) :
    t.IsPartition n where
  ne_nil l hl := by
    obtain ⟨b, hb, rfl⟩ := Array.mem_iff_getElem.1 hl
    rw [← getD_of_getElem? (Array.getElem?_eq_getElem hb)]
    exact ht.ne_nil hb
  nodup := hnodup
  disjoint := by
    rw [List.pairwise_iff_getElem]
    intro b c hb hc hlt i hib hic
    have block {b : Nat} (hb : b < t.members.toList.length) (hi : i ∈ t.members.toList[b]) :
        t.blockOf[i]? = some b :=
      ht.mem_iff.1 (mem_getD_iff.2 ⟨_, Array.getElem?_eq_getElem hb, hi⟩)
    have hbc : some b = some c := (block hb hib).symm.trans (block hc hic)
    exact absurd (Option.some.inj hbc) (Nat.ne_of_lt hlt)
  covers i := by
    constructor
    · intro ⟨l, hl, hi⟩
      obtain ⟨b, hb⟩ := Array.mem_iff_getElem?.1 hl
      exact ht.state_lt (ht.mem_iff.1 (mem_getD_iff.2 ⟨l, hb, hi⟩))
    · intro hi
      obtain ⟨b, hb⟩ := ht.exists_block hi
      obtain ⟨l, hl, hil⟩ := mem_getD_iff.1 (ht.mem_iff.2 hb)
      exact ⟨l, Array.mem_of_getElem? hl, hil⟩
  size_blockOf := ht.size_blockOf
  blockOf_iff i b := ht.mem_iff.symm.trans mem_getD_iff

/-! ## What every iteration keeps -/

/-- What holds after `n` iterations. -/
structure Progress (d : Dfa) (n : Nat) (t : Blocks) : Prop extends Stored d t where
  /-- Every block has been taken, or is still pending, once on every class. -/
  count : n + t.pending.length = d.numClasses * t.members.size

/-- Taking a pair counts it; the splits that follow, of the splitter too, keep the balance. -/
theorem Progress.iteration (h : Progress d n t) (hstep : Iteration d t u) :
    Progress d (n + 1) u := by
  refine hstep.keeps (fun p rest hp => ?_) (fun {t later} hp h => ?_) fun {t} splitter k b h => ?_
  · refine ⟨h.toStored.with_pending (subset_of_take hp), ?_⟩
    have hcount := h.count
    rw [hp.length_eq, List.length_cons] at hcount
    show n + 1 + rest.length = d.numClasses * t.members.size
    omega
  · refine ⟨h.toStored.with_pending hp.subset, ?_⟩
    rw [hp.length_eq]
    exact h.count
  · refine ⟨h.toStored.splitBlock splitter k b, ?_⟩
    have hcount := h.count
    have hpending := pending_splitBlock (d := d) h.consistent splitter k b
    omega

theorem Progress.le (h : Progress d n t) : n ≤ d.numClasses * d.size := by
  have hcount := h.count
  have hsize := Nat.mul_le_mul_left d.numClasses h.consistent.size_members_le
  omega

theorem Progress.pending_eq_nil_iff (h : Progress d n t) :
    t.pending = [] ↔ n = d.numClasses * t.members.size := by
  have hcount := h.count
  rw [← List.length_eq_zero_iff]
  omega

/-! ## Runs -/

/-- Where a refinement begins: every block is pending on every class. -/
structure IsStart (d : Dfa) (t : Blocks) : Prop where
  partition : t.IsPartition d.size
  pending : t.pending.Perm (List.range t.members.size ×ˢ List.range d.numClasses)

theorem IsStart.mem_pending_iff (h : IsStart d t) :
    (b, k) ∈ t.pending ↔ b < t.members.size ∧ k < d.numClasses := by
  rw [h.pending.mem_iff, List.mem_product, List.mem_range, List.mem_range]

theorem IsStart.progress (h : IsStart d t) : Progress d 0 t where
  consistent := h.partition.consistent
  nodup := h.partition.nodup
  pending_lt := h.mem_pending_iff.1
  count := by
    rw [h.pending.length_eq, List.length_product, List.length_range, List.length_range,
      Nat.zero_add, Nat.mul_comm]

theorem progress_of_inSteps {t₀ : Blocks} (h₀ : IsStart d t₀)
    (h : InSteps (Iteration d) t₀ n t) : Progress d n t :=
  h.keeps h₀.progress Progress.iteration

theorem IsStart.settled (hd : d.WellFormed) (h : IsStart d t) : t.Settled d :=
  h.partition.consistent.settled hd fun _ _ hb hk => h.mem_pending_iff.2 ⟨hb, hk⟩

theorem isStart_ofDfa (d : Dfa) (strict : Bool) : IsStart d (ofDfa d strict) where
  partition := (consistent_ofDfa d strict).isPartition (nodup_ofKeys _ _)
  pending := by
    rw [ofDfa, size_members_ofKeys]
    exact .refl _

/-- The refinement is a run, which ends only where nothing is pending or the fuel is used up. -/
theorem exists_run_refine (d : Dfa) (t : Blocks) (fuel : Nat) :
    ∃ n, InSteps (Iteration d) t n (t.refine d d.sources fuel) ∧
      ((t.refine d d.sources fuel).pending = [] ∨ n = fuel) := by
  induction fuel generalizing t with
  | zero => exact ⟨0, .refl, .inr rfl⟩
  | succ fuel ih =>
    unfold refine
    cases h : t.step d d.sources with
    | none =>
      refine ⟨0, .refl, .inl ?_⟩
      unfold Blocks.step at h
      split at h
      · assumption
      · cases h
    | some u =>
      obtain ⟨n, hrun, hend⟩ := ih u
      exact ⟨n + 1, hrun.head (iteration_of_step h), hend.imp_right (congrArg (· + 1))⟩

theorem finalBlocks_run (d : Dfa) (strict : Bool) :
    InSteps (Iteration d) (ofDfa d strict) (d.numClasses * (d.finalBlocks strict).members.size)
      (d.finalBlocks strict) := by
  obtain ⟨n, hrun, hend⟩ := exists_run_refine d (ofDfa d strict) (d.numClasses * d.size)
  have hprogress : Progress d n (d.finalBlocks strict) :=
    progress_of_inSteps (isStart_ofDfa d strict) hrun
  have hn : n = d.numClasses * (d.finalBlocks strict).members.size := by
    refine hprogress.pending_eq_nil_iff.1 (hend.elim id fun hfuel => ?_)
    have hcount := hprogress.count
    have hsize := Nat.mul_le_mul_left d.numClasses hprogress.consistent.size_members_le
    exact List.length_eq_zero_iff.1 (by omega)
  rw [← hn]
  exact hrun

/-! ## What a run ends with -/

/-- The blocks are sound, and the states of one block move into one block on every class. -/
structure Final (d : Dfa) (strict : Bool) (t : Blocks) : Prop extends Sound d strict t where
  stable : ∀ {i j : Nat}, t.blockOf[i]? = t.blockOf[j]? → ∀ k, t.dest d k i = t.dest d k j

/-- From states by their keys, a run in any order ends with final blocks. -/
theorem final_of_inSteps (hd : d.WellFormed) (h₀ : IsStart d t₀) (hsound : Sound d strict t₀)
    (hrun : InSteps (Iteration d) t₀ n t) (hend : t.pending = []) : Final d strict t := by
  have hkeep : Sound d strict t ∧ t.Settled d :=
    hrun.keeps (I := fun _ t => Sound d strict t ∧ t.Settled d) ⟨hsound, h₀.settled hd⟩
      fun ⟨ht, hs⟩ hstep => ⟨ht.iteration hd hstep, hs.iteration hd ht.toStored hstep⟩
  refine ⟨hkeep.1, fun {i j} e k => hkeep.2 k i j e fun b hb => ?_⟩
  rw [hend] at hb
  cases hb

theorem pending_finalBlocks (d : Dfa) (strict : Bool) : (d.finalBlocks strict).pending = [] :=
  (progress_of_inSteps (isStart_ofDfa d strict) (finalBlocks_run d strict)).pending_eq_nil_iff.2 rfl

theorem final_finalBlocks (hd : d.WellFormed) (strict : Bool) :
    Final d strict (d.finalBlocks strict) :=
  final_of_inSteps hd (isStart_ofDfa d strict) (sound_ofDfa d strict) (finalBlocks_run d strict)
    (pending_finalBlocks d strict)

/-- From every partition of the states, in whatever order pairs are taken and blocks are split, the
blocks partition the states after every iteration, and what is pending are blocks and classes that
exist. A run goes on as long as anything is pending and ends when every final block has been taken
once on every class, as the run from the states by their keys to the final blocks does. -/
theorem refinement_ends_with_partition (d : Dfa) (strict : Bool) :
    (∀ t₀ n t, IsStart d t₀ → InSteps (Iteration d) t₀ n t →
        t.IsPartition d.size ∧
          (∀ b k, (b, k) ∈ t.pending → b < t.members.size ∧ k < d.numClasses) ∧
          (t.pending ≠ [] → ∃ u, Iteration d t u) ∧ n ≤ d.numClasses * d.size ∧
          (t.pending = [] ↔ n = d.numClasses * t.members.size)) ∧
      IsStart d (ofDfa d strict) ∧
      InSteps (Iteration d) (ofDfa d strict) (d.numClasses * (d.finalBlocks strict).members.size)
        (d.finalBlocks strict) := by
  refine ⟨fun t₀ n t h₀ hrun => ?_, isStart_ofDfa d strict, finalBlocks_run d strict⟩
  have h := progress_of_inSteps h₀ hrun
  exact ⟨h.consistent.isPartition h.nodup, fun b k => h.pending_lt, exists_iteration d, h.le,
    h.pending_eq_nil_iff⟩

/-- Three states with one key, each of which but the last one moves into the next. -/
def chain : Dfa where
  states :=
    #[⟨#[some 1], false, false, false, none⟩, ⟨#[some 2], false, false, false, none⟩,
      ⟨#[none], false, false, false, none⟩]
  numClasses := 1
  starts := #[]

/-- The first block divides itself. -/
theorem refinement_ends_with_partition_chain :
    (ofDfa chain false).members = #[[0, 1, 2]] ∧
      IsPartition ⟨#[[0, 1], [2]], #[0, 0, 1], [(1, 0)]⟩ 3 ∧
      (chain.finalBlocks false).members = #[[0], [2], [1]] ∧
      (chain.finalBlocks false).IsPartition 3 ∧ (chain.finalBlocks false).pending = [] ∧
      InSteps (Iteration chain) (ofDfa chain false) 3 (chain.finalBlocks false) := by
  obtain ⟨hruns, hstart, hfinal⟩ := refinement_ends_with_partition chain false
  have hmembers : (chain.finalBlocks false).members = #[[0], [2], [1]] := by decide +kernel
  have hfirst : (ofDfa chain false).step chain chain.sources =
      some ⟨#[[0, 1], [2]], #[0, 0, 1], [(1, 0)]⟩ := by decide +kernel
  rw [hmembers] at hfinal
  obtain ⟨hpartition, -, -, -, hend⟩ := hruns _ _ _ hstart hfinal
  refine ⟨by decide +kernel, ?_, hmembers, hpartition, ?_, hfinal⟩
  · exact (hruns _ _ _ hstart (.tail .refl (iteration_of_step hfirst))).1
  · rw [hend, hmembers]

end Blocks

end ScannerGen
