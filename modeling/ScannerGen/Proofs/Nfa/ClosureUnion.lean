import ScannerGen.Dfa.OfNfa
import ScannerGen.Proofs.Nfa.Closure
import ScannerGen.Proofs.Search

/-
  Closures of unions. For a closure to be exact only the edges without a label have to lead to
  states (`mem_closure_iff`). So the closure of a set is the union of the closures of its members,
  and what follows a set can be put together from the closures of all states, each computed once
  (`unitedMoves`), instead of closing what each class leads to (`closedMoves`).
-/

namespace ScannerGen

theorem mapM_congr {ε α β : Type} {f g : α → Except ε β} {l : List α} (h : ∀ x ∈ l, f x = g x) :
    l.mapM f = l.mapM g := by
  induction l with
  | nil => rfl
  | cons x l ih =>
    obtain ⟨hx, hl⟩ := List.forall_mem_cons.1 h
    rw [List.mapM_cons, List.mapM_cons, hx, ih hl]

theorem all_ofList (l : List Nat) (p : Nat → Bool) : (IdSet.ofList l).toList.all p = l.all p := by
  rw [Bool.eq_iff_iff, List.all_eq_true, List.all_eq_true]
  exact forall_congr' fun i => imp_congr_left IdSet.mem_ofList

namespace Nfa

variable {nfa : Nfa} {s t : IdSet} {i j : Nat}

theorem epsilon_lt (h : nfa.epsilonInRange = true) (hj : j ∈ nfa.epsilonOf i) : j < nfa.size := by
  unfold epsilonOf at hj
  split at hj
  · next state hstate =>
    have hall := Array.all_eq_true'.1 h state (Array.mem_of_getElem? hstate)
    exact of_decide_eq_true (List.all_eq_true.1 hall j hj)
  · exact absurd hj IdSet.not_mem_empty

/-! ## Unions -/

theorem closure_union (h : nfa.epsilonInRange = true) (s t : IdSet) :
    nfa.closure (s.union t) = (nfa.closure s).union (nfa.closure t) := by
  refine IdSet.ext_mem fun j => ?_
  simp only [IdSet.mem_union, mem_closure_iff (epsilon_lt h), or_and_right, exists_or]

theorem closure_empty (h : nfa.epsilonInRange = true) : nfa.closure ∅ = ∅ := by
  refine IdSet.ext_mem fun j => ?_
  simp only [mem_closure_iff (epsilon_lt h), IdSet.not_mem_empty, false_and, exists_false]

/-- The closure of every state. -/
def stateClosures (nfa : Nfa) : Array IdSet :=
  (Array.range nfa.size).map fun i => nfa.closure (.single i)

/-- Adds the entries of `closures` with the given numbers to `c`, one after the other. -/
def uniteWith (closures : Array IdSet) (c : IdSet) : List Nat → Except Breach IdSet
  | [] => .ok c
  | j :: js =>
    match closures[j]? with
    | some d => uniteWith closures (c.union d) js
    | none => .error .noSuchState

/-- What follows a set of states, by class, from the closures of all states. -/
def unitedMoves (nfa : Nfa) (s : IdSet) : Except Failure (List (Nat × IdSet)) :=
  (gather (nfa.movesFrom s)).mapM fun x =>
    match uniteWith nfa.stateClosures ∅ (idsOf x.1 (nfa.movesFrom s)) with
    | .ok c => .ok (x.1, c)
    | .error b => .error (.breach b)

theorem getElem?_stateClosures (nfa : Nfa) (j : Nat) : nfa.stateClosures[j]? =
    if j < nfa.size then some (nfa.closure (.single j)) else none := by
  unfold stateClosures
  rw [Array.getElem?_map, Array.getElem?_range]
  split <;> rfl

/-- The closures of the entries are among those of all states. -/
theorem entryClosures_eq (nfa : Nfa) :
    nfa.entryClosures = nfa.stateClosures.toList.take (2 * nfa.numLex) := by
  unfold entryClosures stateClosures
  rw [Array.toList_map, Array.toList_range, ← List.map_take, List.take_range, Nat.min_comm]

/-- The closures of states are united to the closure of all of them. -/
theorem uniteWith_stateClosures (h : nfa.epsilonInRange = true) (c : IdSet) (js : List Nat) :
    uniteWith nfa.stateClosures c js =
      if js.all (· < nfa.size) then .ok (c.union (nfa.closure (.ofList js)))
      else .error .noSuchState := by
  induction js generalizing c with
  | nil =>
    have hnil : (IdSet.ofList []) = ∅ := IdSet.ext_mem fun j => by simp
    have hunion : c.union ∅ = c := IdSet.ext_mem fun j => by simp
    rw [hnil, closure_empty h, hunion]
    rfl
  | cons j js ih =>
    have hcons : IdSet.ofList (j :: js) = (IdSet.single j).union (.ofList js) :=
      IdSet.ext_mem fun k => by simp
    unfold uniteWith
    rw [getElem?_stateClosures, List.all_cons]
    by_cases hj : j < nfa.size
    · have hassoc : (c.union (nfa.closure (.single j))).union (nfa.closure (.ofList js)) =
          c.union (nfa.closure (.ofList (j :: js))) := by
        rw [hcons, closure_union h]
        exact IdSet.ext_mem fun k => by simp only [IdSet.mem_union, or_assoc]
      rw [if_pos hj, decide_eq_true hj, Bool.true_and, ← hassoc]
      exact ih _
    · rw [if_neg hj, decide_eq_false hj, Bool.false_and]
      rfl

/-- For every class the closure of all targets is the union of their closures, and where one of them
is no state neither form has an answer. -/
theorem closedMoves_eq_unitedMoves (h : nfa.epsilonInRange = true) (s : IdSet) :
    nfa.closedMoves s = nfa.unitedMoves s := by
  refine mapM_congr fun x hx => ?_
  obtain ⟨k, targets⟩ := x
  have htargets : targets = .ofList (idsOf k (nfa.movesFrom s)) :=
    IdSet.ext_mem fun j => by rw [(mem_gather_iff.1 hx).2 j, IdSet.mem_ofList, mem_idsOf]
  have hempty (c : IdSet) : (∅ : IdSet).union c = c := IdSet.ext_mem fun j => by simp
  have hclosed : nfa.closure? targets =
      uniteWith nfa.stateClosures ∅ (idsOf k (nfa.movesFrom s)) := by
    rw [closure?_eq (epsilon_lt h), uniteWith_stateClosures h, htargets, all_ofList, hempty]
  cases hunited : uniteWith nfa.stateClosures ∅ (idsOf k (nfa.movesFrom s)) with
  | ok c => simp only [hclosed.trans hunited]
  | error b => simp only [hclosed.trans hunited]

/-- If the edges without a label lead to states, the closure of every set of states is found, in
whatever order these are left, and is exactly what the edges lead to. Closing commutes with unions,
so what follows a set is the same whether the closures of all states are united or what has been
united is closed. -/
theorem closure_is_exact_and_additive (nfa : Nfa) (h : nfa.epsilonInRange = true) :
    (∀ s, nfa.Within s → nfa.closure? s = .ok (nfa.closure s) ∧
        (∀ j, j ∈ nfa.closure s ↔ ∃ i ∈ s, nfa.Drifts i j) ∧
        Search.Finds nfa.epsilonOf s (nfa.closure s)) ∧
      (∀ s t, nfa.closure (s.union t) = (nfa.closure s).union (nfa.closure t)) ∧
      nfa.entryClosures = nfa.stateClosures.toList.take (2 * nfa.numLex) ∧
      nfa.unitedMoves = nfa.closedMoves := by
  refine ⟨fun s hs => ⟨?_, fun j => mem_closure_iff (epsilon_lt h), ?_⟩, closure_union h,
    nfa.entryClosures_eq, funext fun s => (closedMoves_eq_unitedMoves h s).symm⟩
  · rw [closure?_eq (epsilon_lt h), if_pos (all_lt_iff.2 hs)]
  · exact Search.finds_of_mem_iff fun j => mem_closure_iff (epsilon_lt h)

/-- Its entries lead to each other without reading, the first one also to itself. -/
def circular : Nfa where
  states :=
    #[⟨[(0, 2)], .ofList [0, 1], false, false, none⟩, ⟨[(0, 3)], .single 0, false, false, none⟩,
      ⟨[], .single 1, false, false, none⟩, ⟨[], ∅, true, false, none⟩]
  numClasses := 1
  numLex := 1

theorem closure_is_exact_and_additive_circular : circular.epsilonInRange = true ∧
    Search.Finds circular.epsilonOf (.single 0) (.ofList [0, 1]) ∧
    circular.entryClosures = [.ofList [0, 1], .ofList [0, 1]] ∧
    circular.unitedMoves (.ofList [0, 1]) = .ok [(0, .ofList [0, 1, 2, 3])] := by
  have h : circular.epsilonInRange = true := by decide +kernel
  obtain ⟨hfinds, -, hentries, hmoves⟩ := closure_is_exact_and_additive circular h
  refine ⟨h, ?_, ?_, ?_⟩
  · have hclosure : circular.closure (.single 0) = .ofList [0, 1] := by decide +kernel
    have hwithin : circular.Within (.single 0) := fun i hi => by
      rw [IdSet.mem_single.1 hi]
      decide
    rw [← hclosure]
    exact (hfinds _ hwithin).2.2
  · rw [hentries]
    decide +kernel
  · rw [hmoves]
    decide +kernel

end Nfa

end ScannerGen
