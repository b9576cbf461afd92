import ScannerGen.Nfa.Basic

/-
  Paths through nondeterministic automata. When edges are added, a path is a route that changes
  over from one old path to the next by new edges (`Adds.path_iff`).
-/

namespace ScannerGen.Nfa

/-- An edge from `i` to `j` that reads a class, or nothing. -/
def Edge (nfa : Nfa) (i : Nat) : Option Nat → Nat → Prop
  | none, j => j ∈ nfa.epsilonOf i
  | some k, j => (k, j) ∈ nfa.movesOf i

/-- Edges lead from `i` to `l` and read `w` on the way. -/
inductive Path (nfa : Nfa) : Nat → List Nat → Nat → Prop where
  | refl (i : Nat) : Path nfa i [] i
  | step {i j l : Nat} {o : Option Nat} {w : List Nat} (h : nfa.Edge i o j) (p : Path nfa j w l) :
      Path nfa i (o.toList ++ w) l

variable {nfa nfa' : Nfa} {i j k l : Nat} {u v w : List Nat} {o : Option Nat}

theorem Path.eps (h : j ∈ nfa.epsilonOf i) (p : nfa.Path j w l) : nfa.Path i w l :=
  Path.step (o := none) h p

theorem Path.move (h : (k, j) ∈ nfa.movesOf i) (p : nfa.Path j w l) : nfa.Path i (k :: w) l :=
  Path.step (o := some k) h p

theorem Path.trans (h : nfa.Path i u j) (h' : nfa.Path j v l) : nfa.Path i (u ++ v) l := by
  induction h with
  | refl i => exact h'
  | step h p ih =>
    rw [List.append_assoc]
    exact .step h (ih h')

/-- A path is over, or goes on with an edge. -/
theorem Path.cases_first (h : nfa.Path i u l) :
    (i = l ∧ u = []) ∨ ∃ o j w, nfa.Edge i o j ∧ nfa.Path j w l ∧ u = o.toList ++ w := by
  cases h with
  | refl => exact .inl ⟨rfl, rfl⟩
  | step h p => exact .inr ⟨_, _, _, h, p, rfl⟩

/-- Without edges there is no way to go. -/
theorem Path.eq_of_stuck (h : nfa.Path i u l) (hi : ∀ o j, ¬nfa.Edge i o j) : i = l ∧ u = [] := by
  rcases h.cases_first with h | ⟨o, j, w, hedge, -, -⟩
  · exact h
  · exact absurd hedge (hi o j)

/-- A path stays where all edges stay. -/
theorem Path.stays {P : Nat → Prop} (hP : ∀ i o j, P i → nfa.Edge i o j → P j)
    (h : nfa.Path i u l) (hi : P i) : P l := by
  induction h with
  | refl => exact hi
  | step h _ ih => exact ih (hP _ _ _ hi h)

/-- A path of one automaton is one of the other, if that has the same edges where the path goes. -/
theorem Path.transfer {P : Nat → Prop} (hP : ∀ i o j, P i → nfa.Edge i o j → nfa'.Edge i o j ∧ P j)
    (h : nfa.Path i u l) (hi : P i) : nfa'.Path i u l := by
  induction h with
  | refl i => exact .refl i
  | step h _ ih => exact .step (hP _ _ _ hi h).1 (ih (hP _ _ _ hi h).2)

theorem Path.mono (h : nfa.Path i u l) (hsub : ∀ i o j, nfa.Edge i o j → nfa'.Edge i o j) :
    nfa'.Path i u l :=
  h.transfer (P := fun _ => True) (fun i o j _ he => ⟨hsub i o j he, trivial⟩) trivial

/-! ## Paths by words -/

/-- A path for a longer word reads its first class after some edges that read nothing. -/
theorem path_cons_iff : nfa.Path i (k :: w) l ↔
    ∃ a b, nfa.Path i [] a ∧ (k, b) ∈ nfa.movesOf a ∧ nfa.Path b w l := by
  constructor
  · intro h
    generalize hu : k :: w = u at h
    induction h with
    | refl => cases hu
    | @step i j l o u hedge p ih =>
      cases o with
      | none =>
        obtain ⟨a, b, ha, hab, hb⟩ := ih hu
        exact ⟨a, b, .eps hedge ha, hab, hb⟩
      | some k' =>
        obtain ⟨rfl, rfl⟩ := List.cons.inj hu
        exact ⟨i, j, .refl i, hedge, p⟩
  · intro ⟨a, b, ha, hab, hb⟩
    exact ha.trans (.move hab hb)

/-! ## New edges -/

/-- `nfa'` has the edges of `nfa` and those of `N`. -/
structure Adds (nfa nfa' : Nfa) (N : Nat → Option Nat → Nat → Prop) : Prop where
  edge : ∀ i o j, nfa'.Edge i o j ↔ nfa.Edge i o j ∨ N i o j

/-- Old paths with new edges between them, the last of which leads to `l`. -/
inductive Route (nfa : Nfa) (N : Nat → Option Nat → Nat → Prop) (l : Nat) :
    Nat → List Nat → Prop where
  | last {i : Nat} {w : List Nat} (p : nfa.Path i w l) : Route nfa N l i w
  | hop {i a b : Nat} {o : Option Nat} {u w : List Nat} (p : nfa.Path i u a) (h : N a o b)
      (q : Route nfa N l b w) : Route nfa N l i (u ++ (o.toList ++ w))

theorem Adds.path_iff {N : Nat → Option Nat → Nat → Prop} (h : Adds nfa nfa' N) :
    nfa'.Path i w l ↔ Route nfa N l i w := by
  constructor
  · intro p
    induction p with
    | refl i => exact .last (.refl i)
    | @step i j l o w hedge _ ih =>
      rcases (h.edge i o j).1 hedge with hold | hnew
      · cases ih with
        | last p => exact .last (.step hold p)
        | hop p hn q =>
          rw [← List.append_assoc]
          exact .hop (.step hold p) hn q
      · exact .hop (.refl i) hnew ih
  · intro r
    have hold : ∀ i o j, nfa.Edge i o j → nfa'.Edge i o j := fun i o j he =>
      (h.edge i o j).2 (.inl he)
    induction r with
    | last p => exact p.mono hold
    | hop p hn _ ih => exact (p.mono hold).trans (.step ((h.edge ..).2 (.inr hn)) ih)

/-! ## Edges of changed automata -/

theorem epsilonOf_congr (h : nfa'.states[i]? = nfa.states[i]?) :
    nfa'.epsilonOf i = nfa.epsilonOf i := by
  unfold epsilonOf
  rw [h]

theorem movesOf_congr (h : nfa'.states[i]? = nfa.states[i]?) :
    nfa'.movesOf i = nfa.movesOf i := by
  unfold movesOf
  rw [h]

theorem edge_congr (h : nfa'.states[i]? = nfa.states[i]?) :
    nfa'.Edge i o j ↔ nfa.Edge i o j := by
  cases o with
  | none => simp only [Edge, epsilonOf_congr h]
  | some k => simp only [Edge, movesOf_congr h]

/-- Only states of the automaton have edges. -/
theorem Edge.lt_size (h : nfa.Edge i o j) : i < nfa.size := by
  apply Nat.lt_of_not_le
  intro hi
  have hnone : nfa.states[i]? = none := Array.getElem?_eq_none hi
  cases o with
  | none =>
    unfold Edge at h
    rw [epsilonOf, hnone] at h
    exact IdSet.not_mem_empty h
  | some k =>
    unfold Edge at h
    rw [movesOf, hnone] at h
    exact absurd h List.not_mem_nil

@[simp] theorem size_push (s : NfaState) : (nfa.push s).size = nfa.size + 1 := Array.size_push ..

@[simp] theorem size_modify (i : Nat) (f : NfaState → NfaState) :
    (nfa.modify i f).size = nfa.size := Array.size_modify ..

@[simp] theorem size_addEpsilon (i j : Nat) : (nfa.addEpsilon i j).size = nfa.size :=
  size_modify ..

@[simp] theorem size_addMoves (i : Nat) (ms : List (Nat × Nat)) :
    (nfa.addMoves i ms).size = nfa.size := size_modify ..

theorem getElem?_push_lt (s : NfaState) (hi : i < nfa.size) :
    (nfa.push s).states[i]? = nfa.states[i]? := by
  unfold push
  rw [Array.getElem?_push]
  exact if_neg (Nat.ne_of_lt hi)

theorem getElem?_push_self (s : NfaState) : (nfa.push s).states[nfa.size]? = some s := by
  unfold push
  rw [Array.getElem?_push]
  exact if_pos rfl

theorem getElem?_modify_ne (f : NfaState → NfaState) (hi : i ≠ j) :
    (nfa.modify j f).states[i]? = nfa.states[i]? := by
  unfold modify
  rw [Array.getElem?_modify, if_neg hi.symm]

theorem getElem?_modify_self (f : NfaState → NfaState) :
    (nfa.modify i f).states[i]? = nfa.states[i]?.map f := by
  unfold modify
  rw [Array.getElem?_modify, if_pos rfl]

/-- A blank state brings no edges. -/
theorem edge_push_blank : (nfa.push .blank).Edge i o j ↔ nfa.Edge i o j := by
  rcases Nat.lt_trichotomy i nfa.size with hi | rfl | hi
  · exact edge_congr (getElem?_push_lt _ hi)
  · refine iff_of_false (fun h => ?_) fun h => Nat.lt_irrefl _ h.lt_size
    cases o with
    | none =>
      unfold Edge at h
      rw [epsilonOf, getElem?_push_self] at h
      exact IdSet.not_mem_empty h
    | some k =>
      unfold Edge at h
      rw [movesOf, getElem?_push_self] at h
      exact absurd h List.not_mem_nil
  · refine iff_of_false (fun h => ?_) fun h => Nat.lt_asymm hi h.lt_size
    have := h.lt_size
    rw [size_push] at this
    omega

theorem edge_modify {f : NfaState → NfaState} {N : Nat → Option Nat → Nat → Prop}
    (hi : i < nfa.size) (heps : ∀ s j, j ∈ (f s).epsilon ↔ j ∈ s.epsilon ∨ N i none j)
    (hmoves : ∀ s k j, (k, j) ∈ (f s).moves ↔ (k, j) ∈ s.moves ∨ N i (some k) j)
    (a : Nat) (o : Option Nat) (b : Nat) :
    (nfa.modify i f).Edge a o b ↔ nfa.Edge a o b ∨ a = i ∧ N i o b := by
  by_cases ha : a = i
  · subst ha
    have hs : nfa.states[a]? = some nfa.states[a] := Array.getElem?_eq_getElem hi
    cases o with
    | none => simp only [Edge, epsilonOf, getElem?_modify_self, hs, Option.map_some, heps, true_and]
    | some k =>
      simp only [Edge, movesOf, getElem?_modify_self, hs, Option.map_some, hmoves, true_and]
  · rw [edge_congr (getElem?_modify_ne f ha)]
    simp [ha]

theorem edge_addEpsilon (hi : i < nfa.size) {a b : Nat} :
    (nfa.addEpsilon i j).Edge a o b ↔ nfa.Edge a o b ∨ a = i ∧ o = none ∧ b = j := by
  refine edge_modify (N := fun _ o b => o = none ∧ b = j) hi (fun s b => ?_) (fun s k b => ?_) a o b
  · simp [or_comm]
  · simp

theorem edge_addMoves (hi : i < nfa.size) {ms : List (Nat × Nat)} {a b : Nat} :
    (nfa.addMoves i ms).Edge a o b ↔ nfa.Edge a o b ∨ a = i ∧ ∃ k, o = some k ∧ (k, b) ∈ ms := by
  refine edge_modify (N := fun _ o b => ∃ k, o = some k ∧ (k, b) ∈ ms) hi (fun s b => ?_)
    (fun s k b => ?_) a o b
  · simp
  · simp

end ScannerGen.Nfa
