import ScannerGen.Dfa.OfNfa
import ScannerGen.Proofs.Dfa.Behaviour
import ScannerGen.Proofs.Nfa.Clause
import ScannerGen.Proofs.Nfa.Subsets

/-
  Determinization. Every state stands for a closed set of states (`InRange.determinize_spec`), and a
  word leads to the set of all states that it leads to (`IsDeterminization.walk_spec`). The action
  of a set is of lowest priority among those of its final members, and of several such that of the
  highest member (`isChoice_actionOf`).
-/

namespace ScannerGen

/-! ## The action of a set -/

namespace Action

theorem merge_none_right (a? : Option Action) : merge a? none = a? := by cases a? <;> rfl

/-- The choice among the actions that `f` gives to the members of `s`: one of lowest priority, and
of several the one of the highest member. -/
def IsChoice (f : Nat → Option Action) (s : Set Nat) : Option Action → Prop
  | none => ∀ i ∈ s, f i = none
  | some a => ∃ i ∈ s, f i = some a ∧
      ∀ j ∈ s, ∀ b, f j = some b → a.priority < b.priority ∨ a.priority = b.priority ∧ j ≤ i

/-- A new member above all others has its action merged last. -/
theorem IsChoice.merge {f : Nat → Option Action} {s : Set Nat} {a? : Option Action} {i : Nat}
    (h : IsChoice f s a?) (hi : ∀ j ∈ s, j < i) : IsChoice f (insert i s) (merge a? (f i)) := by
  cases hb : f i with
  | none =>
    rw [merge_none_right]
    cases a? with
    | none => exact Set.forall_mem_insert.2 ⟨hb, h⟩
    | some a =>
      obtain ⟨j, hj, ha, hle⟩ := h
      refine ⟨j, .inr hj, ha, Set.forall_mem_insert.2 ⟨fun b hb' => ?_, hle⟩⟩
      rw [hb] at hb'
      cases hb'
  | some b =>
    cases a? with
    | none =>
      refine ⟨i, .inl rfl, hb, Set.forall_mem_insert.2 ⟨fun c hc => ?_, fun j hj c hc => ?_⟩⟩
      · rw [hb, Option.some.injEq] at hc
        exact .inr ⟨congrArg priority hc, Nat.le_refl i⟩
      · rw [h j hj] at hc
        cases hc
    | some a =>
      obtain ⟨j, hj, ha, hle⟩ := h
      unfold Action.merge earlier
      dsimp only
      split
      · next hlt =>
        refine ⟨j, .inr hj, ha, Set.forall_mem_insert.2 ⟨fun c hc => ?_, hle⟩⟩
        rw [hb, Option.some.injEq] at hc
        exact .inl (hc ▸ hlt)
      · next hge =>
        refine ⟨i, .inl rfl, hb, Set.forall_mem_insert.2 ⟨fun c hc => ?_, fun l hl c hc => ?_⟩⟩
        · rw [hb, Option.some.injEq] at hc
          exact .inr ⟨congrArg priority hc, Nat.le_refl i⟩
        · have := hle l hl c hc
          have := hi l hl
          omega

/-- To merge actions from the lowest member on is to choose among them. -/
theorem isChoice_foldl (f : Nat → Option Action) {l : List Nat} (hl : l.Pairwise (· < ·)) :
    IsChoice f {i | i ∈ l} ((l.map f).foldl merge none) := by
  induction l using List.reverseRecOn with
  | nil => exact fun _ hi => absurd hi List.not_mem_nil
  | append_singleton l i ih =>
    obtain ⟨hl, -, hlt⟩ := List.pairwise_append.1 hl
    have hinsert : {j | j ∈ l ++ [i]} = insert i {j | j ∈ l} := by
      ext j
      simp [or_comm]
    rw [hinsert, List.map_append, List.foldl_append]
    exact (ih hl).merge fun j hj => hlt j hj i (List.mem_singleton_self i)

end Action

namespace Nfa

variable {limit : Nat} {nfa : Nfa} {s : IdSet} {i j k q : Nat} {w : List Nat} {d : Dfa}
  {t : Subsets}

theorem hasFinal_iff : nfa.hasFinal s = true ↔ ∃ i ∈ s, ∃ a?, nfa.Accepts i a? := by
  simp only [hasFinal, List.any_eq_true, Option.any_eq_true]
  constructor
  · intro ⟨i, hi, st, hst, hfinal⟩
    exact ⟨i, hi, st.action?, st, hst, hfinal, rfl⟩
  · intro ⟨i, hi, _, st, hst, hfinal, _⟩
    exact ⟨i, hi, st, hst, hfinal⟩

/-- The action that a member brings. -/
def finalAction (nfa : Nfa) (i : Nat) : Option Action :=
  nfa.states[i]?.bind fun st => if st.isFinal then st.action? else none

theorem finalAction_eq_some {a : Action} :
    nfa.finalAction i = some a ↔ nfa.Accepts i (some a) := by
  simp only [finalAction, Option.bind_eq_some_iff, Option.ite_none_right_eq_some]
  rfl

theorem actionOf_eq (nfa : Nfa) (s : IdSet) :
    nfa.actionOf s = (s.toList.map nfa.finalAction).foldl Action.merge none := by
  unfold actionOf
  rw [List.foldl_map]
  congr 1
  funext acc i
  unfold finalAction
  cases nfa.states[i]? with
  | none => exact (Action.merge_none_right acc).symm
  | some st =>
    dsimp only [Option.bind_some]
    split
    · rfl
    · exact (Action.merge_none_right acc).symm

/-- The action of a set is the choice among those of its final members. -/
theorem isChoice_actionOf (nfa : Nfa) (s : IdSet) :
    Action.IsChoice nfa.finalAction {i | i ∈ s} (nfa.actionOf s) := by
  rw [actionOf_eq]
  exact Action.isChoice_foldl nfa.finalAction s.ascending

theorem actionOf_spec {a : Action} (hi : i ∈ s) (ha : nfa.Accepts i (some a)) :
    ∃ c, nfa.actionOf s = some c ∧ (∃ j ∈ s, nfa.Accepts j (some c)) ∧
      ∀ j ∈ s, ∀ b, nfa.Accepts j (some b) → c.priority ≤ b.priority := by
  have hchoice := isChoice_actionOf nfa s
  cases hc : nfa.actionOf s with
  | none =>
    rw [hc] at hchoice
    have := hchoice i hi
    rw [finalAction_eq_some.2 ha] at this
    cases this
  | some c =>
    rw [hc] at hchoice
    obtain ⟨j, hj, hjc, hle⟩ := hchoice
    refine ⟨c, rfl, ⟨j, hj, finalAction_eq_some.1 hjc⟩, fun l hl b hb => ?_⟩
    have := hle l hl b (finalAction_eq_some.2 hb)
    omega

/-! ## The table of sets -/

/-- The closures of the entries, and all sets that follow them. -/
inductive Found (nfa : Nfa) : IdSet → Prop
  | entry {i : Nat} : i < 2 * nfa.numLex → nfa.Found (nfa.closure (.single i))
  | next {s c : IdSet} {k : Nat} : nfa.Found s → (k, c) ∈ nfa.closedMovesOf s → nfa.Found c

theorem Found.isClosed (hs : nfa.Found s) (h : nfa.InRange) (hentries : 2 * nfa.numLex ≤ nfa.size) :
    nfa.IsClosed s := by
  induction hs with
  | @entry i hi =>
    apply h.isClosed_closure
    intro j hj
    obtain rfl := IdSet.mem_single.1 hj
    exact Nat.lt_of_lt_of_le hi hentries
  | next _ hc _ => exact (h.mem_closedMovesOf hc).2.1

/-- The states of `d` stand for the sets found, with their moves. -/
structure IsDeterminization (nfa : Nfa) (t : Subsets) (d : Dfa) : Prop where
  explored : t.Explored nfa.numClasses nfa.closedMovesOf
  rows_size : t.rows.size = t.sets.size
  found : ∀ s ∈ t.sets.values, nfa.Found s
  states_eq : d.states = (t.sets.values.toList.zipWith nfa.subsetState t.rows.toList).toArray
  numClasses_eq : d.numClasses = nfa.numClasses
  starts : List.Forall₂ (fun s q => t.sets.values[q]? = some s) nfa.entryClosures d.starts.toList

/-- The sets found are numbered, unless there are more than `limit`. -/
theorem InRange.determinize_spec (h : nfa.InRange) (hentries : 2 * nfa.numLex ≤ nfa.size) :
    Yields (nfa.determinize limit) (fun d => d.size ≤ limit ∧ ∃ t, nfa.IsDeterminization t d)
      (Subsets.Stopped limit nfa.Found) := by
  have hepsilon : nfa.epsilonInRange = true := by
    refine Array.all_eq_true_iff_forall_mem.2 fun st hst => List.all_eq_true.2 fun j hj => ?_
    obtain ⟨i, hi⟩ := Array.mem_iff_getElem?.1 hst
    refine decide_eq_true (h.target_lt (i := i) (o := none) ?_)
    show j ∈ (nfa.epsilonOf i).toList
    unfold epsilonOf
    rw [hi]
    exact hj
  have hclosures : ∀ s ∈ nfa.entryClosures, nfa.Found s := by
    intro s hs
    obtain ⟨i, hi, rfl⟩ := List.mem_map.1 hs
    exact .entry (Nat.lt_of_lt_of_le (List.mem_range.1 hi) (Nat.min_le_right ..))
  have hsteps : Subsets.Steps nfa.numClasses nfa.Found nfa.closedMoves nfa.closedMovesOf :=
    { eq_ok := fun _ => h.closedMoves_eq_ok _
      all := fun hs x hx => ⟨(h.mem_closedMovesOf (c := x.2) hx).1, hs.next hx⟩
      nodup := nfa.closedMovesOf_nodup }
  have hnone : ∀ s ∈ (Numbering.empty : Numbering IdSet).values, nfa.Found s :=
    fun _ hs => absurd hs (Array.not_mem_empty _)
  unfold determinize
  rw [if_neg (by simp [hepsilon])]
  refine yields_bind ((Subsets.numberAll_spec hnone hclosures).mono ?_ fun _ he => he)
  rintro ⟨sets, starts⟩ ⟨hnum, hstarts⟩
  dsimp only
  rw [if_neg (Nat.not_lt.2 hentries)]
  refine yields_bind ((Subsets.ofStart_spec hsteps hnum.all).mono ?_ fun _ he => he)
  rintro t ⟨hnum', hexplored, hrows⟩
  refine ⟨?_, t, hexplored, hrows, hnum'.all, rfl, rfl, hstarts.imp fun _ _ hq => hnum'.keeps hq⟩
  have hbounded := (hnum.trans hnum').bounded
  rw [Numbering.size_empty] at hbounded
  simp only [Dfa.size, List.size_toArray, List.length_zipWith, Array.length_toList]
  omega

namespace IsDeterminization

variable (hd : nfa.IsDeterminization t d)

include hd

theorem getElem?_states {row : Array (Option Nat)} (hs : t.sets.values[q]? = some s)
    (hrow : t.rows[q]? = some row) : d.states[q]? = some (nfa.subsetState s row) := by
  rw [hd.states_eq, List.getElem?_toArray, List.getElem?_zipWith, Array.getElem?_toList,
    Array.getElem?_toList, hs, hrow]

theorem size_eq : d.size = t.sets.size := by
  have hrows : t.rows.size = t.sets.values.size := hd.rows_size
  have hsize : t.sets.values.size = t.sets.size := rfl
  simp only [Dfa.size, hd.states_eq, List.size_toArray, List.length_zipWith, Array.length_toList]
  omega

theorem exists_row (hs : t.sets.values[q]? = some s) :
    ∃ row, d.states[q]? = some (nfa.subsetState s row) ∧
      Subsets.IsRow nfa.numClasses (nfa.closedMovesOf s) t.sets row := by
  obtain ⟨row, hrow, hisRow⟩ := hd.explored.exists_row hd.rows_size hs
  exact ⟨row, hd.getElem?_states hs hrow, hisRow⟩

theorem exists_set (hq : q < d.size) : ∃ s, t.sets.values[q]? = some s ∧ nfa.Found s := by
  rw [hd.size_eq] at hq
  have hs := Array.getElem?_eq_getElem hq
  exact ⟨_, hs, hd.found _ (Array.mem_of_getElem? hs)⟩

/-- A target stands for the set that follows by the class. -/
theorem target_spec (hs : t.sets.values[q]? = some s) (k : Nat) :
    (d.target? q k = none ∧ ∀ c, (k, c) ∉ nfa.closedMovesOf s) ∨
      ∃ q' c, d.target? q k = some q' ∧ (k, c) ∈ nfa.closedMovesOf s ∧
        t.sets.values[q']? = some c := by
  obtain ⟨row, hstate, hrow⟩ := hd.exists_row hs
  have htarget : d.target? q k = row[k]?.join := by
    unfold Dfa.target?
    rw [hstate]
    rfl
  rw [htarget]
  by_cases hk : ∃ c, (k, c) ∈ nfa.closedMovesOf s
  · obtain ⟨c, hc⟩ := hk
    obtain ⟨q', hq', hval⟩ := hrow.found hc
    exact .inr ⟨q', c, by rw [hq']; rfl, hc, hval⟩
  · refine .inl ⟨?_, fun c hc => hk ⟨c, hc⟩⟩
    by_cases hlt : k < nfa.numClasses
    · rw [hrow.missing hlt fun c hc => hk ⟨c, hc⟩]
      rfl
    · rw [Array.getElem?_eq_none (by rw [hrow.size]; omega)]
      rfl

theorem start_spec (h : 2 * nfa.numLex ≤ nfa.size) (hi : i < 2 * nfa.numLex) :
    ∃ q, d.starts[i]? = some q ∧ t.sets.values[q]? = some (nfa.closure (.single i)) := by
  have hlength := hd.starts.length_eq
  have hentries : nfa.entryClosures.length = 2 * nfa.numLex := by
    unfold entryClosures
    rw [List.length_map, List.length_range, Nat.min_eq_right h]
  have hlt : i < nfa.entryClosures.length := by omega
  refine ⟨d.starts.toList[i], ?_, ?_⟩
  · rw [← Array.getElem?_toList, List.getElem?_eq_getElem]
  · have := hd.starts.get hlt (hlength ▸ hlt)
    simpa [entryClosures] using this

theorem starts_size (h : 2 * nfa.numLex ≤ nfa.size) : d.starts.size = 2 * nfa.numLex := by
  have hlength := hd.starts.length_eq
  rw [entryClosures, List.length_map, List.length_range, Nat.min_eq_right h,
    Array.length_toList] at hlength
  exact hlength.symm

/-- The targets of every state are the row of a set. -/
theorem isRow_targets {st : DfaState} (hst : st ∈ d.states) :
    ∃ s, Subsets.IsRow nfa.numClasses (nfa.closedMovesOf s) t.sets st.targets := by
  obtain ⟨q, hq⟩ := Array.mem_iff_getElem?.1 hst
  obtain ⟨s, hs, -⟩ := hd.exists_set (Array.getElem?_eq_some_iff.1 hq).1
  obtain ⟨row, hstate, hrow⟩ := hd.exists_row hs
  rw [hq, Option.some.injEq] at hstate
  subst hstate
  exact ⟨s, hrow⟩

theorem wellFormed (h : 2 * nfa.numLex ≤ nfa.size) : d.WellFormed where
  row_size st hst := by
    obtain ⟨s, hrow⟩ := hd.isRow_targets hst
    rw [hd.numClasses_eq]
    exact hrow.size
  inRange := by
    have hlt : ∀ {q s}, t.sets.values[q]? = some s → q < d.size := fun hs => by
      rw [hd.size_eq]
      exact (Array.getElem?_eq_some_iff.1 hs).1
    constructor
    · rintro st hst _ htarget j rfl
      obtain ⟨s, hrow⟩ := hd.isRow_targets hst
      obtain ⟨k, hk⟩ := Array.mem_iff_getElem?.1 htarget
      obtain ⟨c, -, hval⟩ := hrow.exists_of_target hk
      exact hlt hval
    · intro q hq
      obtain ⟨i, hi⟩ := Array.mem_iff_getElem?.1 hq
      have hlt' : i < 2 * nfa.numLex := hd.starts_size h ▸ (Array.getElem?_eq_some_iff.1 hi).1
      obtain ⟨q', hq', hs⟩ := hd.start_spec h hlt'
      rw [hi, Option.some.injEq] at hq'
      exact hlt (hq' ▸ hs)

/-- A word leads to the state for all that it leads to, and nowhere if it leads to nothing. -/
theorem walk_spec (h : nfa.InRange) (hentries : 2 * nfa.numLex ≤ nfa.size)
    (hs : t.sets.values[q]? = some s) (w : List Nat) :
    (d.walk q w = none ∧ ∀ j, ¬∃ i ∈ s, nfa.Path i w j) ∨
      ∃ q' c, d.walk q w = some q' ∧ t.sets.values[q']? = some c ∧
        ∀ j, j ∈ c ↔ ∃ i ∈ s, nfa.Path i w j := by
  induction w generalizing q s with
  | nil =>
    have hclosed := (hd.found s (Array.mem_of_getElem? hs)).isClosed h hentries
    exact .inr ⟨q, s, rfl, hs, fun j => hclosed.path_nil_iff.symm⟩
  | cons k w ih =>
    have hclosed := (hd.found s (Array.mem_of_getElem? hs)).isClosed h hentries
    unfold Dfa.walk
    rcases hd.target_spec hs k with ⟨htarget, hnone⟩ | ⟨q', c, htarget, hc, hval⟩
    · rw [htarget]
      exact .inl ⟨rfl, fun j => hclosed.not_path_cons hnone⟩
    · rw [htarget, Option.bind_some]
      simp only [hclosed.path_cons_iff h hc]
      exact ih hval

end IsDeterminization

end Nfa

end ScannerGen
