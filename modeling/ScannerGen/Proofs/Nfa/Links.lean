import ScannerGen.Proofs.Nfa.Clause
import ScannerGen.Proofs.Nfa.Growth

/-
  How a fragment becomes a clause. The entries are linked to it while it is being built, so for the
  rest of the building they count among the old states (`Links.grown`). When the end of a linked
  fragment has been made final, the automaton recognizes one clause more (`Links.addsClause`).
-/

namespace ScannerGen

namespace Nfa

variable {limit : Nat} {nfa nfa₁ nfa₂ : Nfa} {start : Nat} {E : Nat → Prop} {f : Fragment}
  {K : Language Nat}

/-! ## Entries -/

/-- The states `E` have been linked to `start`. -/
structure Links (E : Nat → Prop) (start : Nat) (nfa nfa' : Nfa) : Prop where
  numClasses : nfa'.numClasses = nfa.numClasses
  numLex : nfa'.numLex = nfa.numLex
  size : nfa'.size = nfa.size
  edge : ∀ {i o j}, nfa'.Edge i o j ↔ nfa.Edge i o j ∨ E i ∧ o = none ∧ j = start
  frame : ∀ {i}, ¬E i → nfa'.states[i]? = nfa.states[i]?
  marks : ∀ i, nfa'.marksAt i = nfa.marksAt i

theorem Links.refl (start : Nat) (nfa : Nfa) : Links (fun _ => False) start nfa nfa :=
  ⟨rfl, rfl, rfl, by simp, fun _ => rfl, fun _ => rfl⟩

theorem Links.congr {E' : Nat → Prop} (h : Links E start nfa nfa₁) (hE : ∀ i, E i ↔ E' i) :
    Links E' start nfa nfa₁ where
  numClasses := h.numClasses
  numLex := h.numLex
  size := h.size
  edge := by
    intro i o j
    rw [h.edge, hE]
  frame hi := h.frame fun hi' => hi ((hE _).1 hi')
  marks := h.marks

theorem marksAt_modify {i : Nat} {g : NfaState → NfaState}
    (hg : ∀ s, ((g s).isFinal, (g s).isPushback, (g s).action?) =
      (s.isFinal, s.isPushback, s.action?)) (j : Nat) :
    (nfa.modify i g).marksAt j = nfa.marksAt j := by
  unfold marksAt
  by_cases hj : j = i
  · subst hj
    rw [getElem?_modify_self, Option.map_map]
    exact congrArg (Option.map · _) (funext hg)
  · rw [getElem?_modify_ne _ hj]

theorem Links.addEpsilon (h : Links E start nfa nfa₁) {i : Nat} (hi : i < nfa.size) :
    Links (fun a => E a ∨ a = i) start nfa (nfa₁.addEpsilon i start) where
  numClasses := h.numClasses
  numLex := h.numLex
  size := by rw [size_addEpsilon, h.size]
  edge {a o b} := by
    rw [edge_addEpsilon (h.size ▸ hi), h.edge, or_assoc, or_and_right]
  frame {a} ha := by
    rw [not_or] at ha
    exact (getElem?_modify_ne _ ha.2).trans (h.frame ha.1)
  marks a := (marksAt_modify (g := fun s => { s with epsilon := s.epsilon.insert start })
    (fun _ => rfl) a).trans (h.marks a)

theorem Links.inRange (h : Links E start nfa nfa₁) (hr : nfa.InRange) (hs : start < nfa.size) :
    nfa₁.InRange where
  target_lt he := by
    rw [h.size]
    rcases h.edge.1 he with he | ⟨-, -, rfl⟩
    · exact hr.target_lt he
    · exact hs
  class_lt he := by
    rw [h.numClasses]
    rcases h.edge.1 he with he | ⟨-, ho, -⟩
    · exact hr.class_lt he
    · cases ho

/-- The first states alone. -/
def restrict (nfa : Nfa) (n : Nat) : Nfa := { nfa with states := nfa.states.extract 0 n }

theorem size_restrict {n : Nat} (h : n ≤ nfa.size) : (nfa.restrict n).size = n := by
  show (nfa.states.extract 0 n).size = n
  rw [Array.size_extract]
  exact Nat.min_eq_left h

theorem getElem?_restrict {n i : Nat} (h : n ≤ nfa.size) (hi : i < n) :
    (nfa.restrict n).states[i]? = nfa.states[i]? := by
  have hlt : i < min n nfa.states.size - 0 := Nat.lt_min.2 ⟨hi, Nat.lt_of_lt_of_le hi h⟩
  show (nfa.states.extract 0 n)[i]? = _
  rw [Array.getElem?_extract, if_pos hlt, Nat.zero_add]

/-! ### What is built after the linking

For it the linked states are old ones. -/

section Linked

variable (h : Links E start nfa₁ nfa₂) (h₁ : Grown limit nfa nfa₁)
  (hE : ∀ {i}, E i → i < nfa.size)

include h h₁ in
theorem Links.size_restrict : (nfa₂.restrict nfa.size).size = nfa.size :=
  Nfa.size_restrict (h.size ▸ h₁.size_le)

include h h₁ in
theorem Links.getElem?_restrict {i : Nat} (hi : i < nfa.size) :
    (nfa₂.restrict nfa.size).states[i]? = nfa₂.states[i]? :=
  Nfa.getElem?_restrict (h.size ▸ h₁.size_le) hi

include h hE in
theorem Links.frame_of_ge {i : Nat} (hi : nfa.size ≤ i) : nfa₂.states[i]? = nfa₁.states[i]? :=
  h.frame fun he => Nat.not_lt.2 hi (hE he)

include h hE in
theorem Links.edge_of_ge {i j : Nat} {o : Option Nat} (hi : nfa.size ≤ i) :
    nfa₂.Edge i o j ↔ nfa₁.Edge i o j :=
  edge_congr (h.frame_of_ge hE hi)

include h h₁ hE

theorem Links.grown : Grown limit (nfa₂.restrict nfa.size) nfa₂ where
  numClasses := rfl
  numLex := rfl
  size_le := by
    rw [h.size_restrict h₁, h.size]
    exact h₁.size_le
  bounded := by
    rw [h.size_restrict h₁, h.size]
    exact h₁.bounded
  old {i} hi := by
    rw [h.size_restrict h₁] at hi
    exact (h.getElem?_restrict h₁ hi).symm
  unmarked {i s} hi hs := by
    rw [h.size_restrict h₁] at hi
    rw [h.frame_of_ge hE hi] at hs
    exact h₁.unmarked hi hs
  edge {i o j} hi he := by
    rw [h.size_restrict h₁] at hi ⊢
    rw [h.size]
    exact h₁.edge hi ((h.edge_of_ge hE hi).1 he)
  class_lt {i k j} hi he := by
    rw [h.size_restrict h₁] at hi
    show k < nfa₂.numClasses
    rw [h.numClasses, h₁.numClasses]
    exact h₁.class_lt hi ((h.edge_of_ge hE hi).1 he)

theorem Links.path_iff {i j : Nat} {w : List Nat} (hi : nfa.size ≤ i) :
    nfa₂.Path i w j ↔ nfa₁.Path i w j := by
  constructor
  · intro p
    exact p.transfer (P := fun i => nfa.size ≤ i)
      (fun i o j hi he => ⟨(h.edge_of_ge hE hi).1 he,
        (h₁.edge hi ((h.edge_of_ge hE hi).1 he)).1⟩) hi
  · intro p
    exact p.transfer (P := fun i => nfa.size ≤ i)
      (fun i o j hi he => ⟨(h.edge_of_ge hE hi).2 he, (h₁.edge hi he).1⟩) hi

theorem Links.isFragment (hf : IsFragment nfa nfa₁ f K) :
    IsFragment (nfa₂.restrict nfa.size) nfa₂ f K where
  start_ge := by
    rw [h.size_restrict h₁]
    exact hf.start_ge
  start_lt := h.size ▸ hf.start_lt
  stop_ge := by
    rw [h.size_restrict h₁]
    exact hf.stop_ge
  stop_lt := h.size ▸ hf.stop_lt
  start_ne_stop := hf.start_ne_stop
  no_entry {i o} hi he := by
    rw [h.size_restrict h₁] at hi
    exact hf.no_entry hi ((h.edge_of_ge hE hi).1 he)
  no_exit he := hf.no_exit ((h.edge_of_ge hE hf.stop_ge).1 he)
  language w := (h.path_iff h₁ hE hf.start_ge).trans (hf.language w)

end Linked

/-! ## Final states -/

/-- Only what is said about matches has changed, and of the states from `lo` on only `stop` is
final. -/
structure Finishes (lo stop : Nat) (a : Action) (nfa nfa' : Nfa) : Prop where
  numClasses : nfa'.numClasses = nfa.numClasses
  numLex : nfa'.numLex = nfa.numLex
  size : nfa'.size = nfa.size
  edge : ∀ {i o j}, nfa'.Edge i o j ↔ nfa.Edge i o j
  marks : ∀ {i}, i < lo → nfa'.marksAt i = nfa.marksAt i
  accepts : ∀ {i a?}, lo ≤ i → (nfa'.Accepts i a? ↔ i = stop ∧ a? = some a)

variable {lo stop i : Nat} {a : Action} {g : NfaState → NfaState}

theorem edge_modify_marks (hg : ∀ s, (g s).moves = s.moves ∧ (g s).epsilon = s.epsilon) {j k : Nat}
    {o : Option Nat} : (nfa.modify i g).Edge j o k ↔ nfa.Edge j o k := by
  by_cases hi : i < nfa.size
  · rw [edge_modify (N := fun _ _ _ => False) hi (fun s j => by rw [(hg s).2, or_false])
      fun s k j => by rw [(hg s).1, or_false]]
    simp
  · apply edge_congr
    by_cases hij : j = i
    · subst hij
      rw [getElem?_modify_self, Array.getElem?_eq_none (Nat.le_of_not_lt hi)]
      rfl
    · exact getElem?_modify_ne _ hij

theorem marksAt_modify_lt (hi : lo ≤ i) {j : Nat} (hj : j < lo) :
    (nfa.modify i g).marksAt j = nfa.marksAt j := by
  unfold marksAt
  rw [getElem?_modify_ne _ (by omega)]

theorem finishes_accept (hnone : ∀ {i a?}, lo ≤ i → ¬nfa.Accepts i a?)
    (hstop : lo ≤ stop ∧ stop < nfa.size) :
    Finishes lo stop a nfa
      (nfa.modify stop ({ · with isFinal := true, action? := some a })) where
  numClasses := rfl
  numLex := rfl
  size := size_modify ..
  edge := edge_modify_marks (g := fun s => { s with isFinal := true, action? := some a })
    fun _ => ⟨rfl, rfl⟩
  marks := marksAt_modify_lt hstop.1
  accepts {i a?} hi := by
    by_cases his : i = stop
    · subst his
      unfold Accepts
      rw [getElem?_modify_self, Array.getElem?_eq_getElem hstop.2, Option.map_some]
      constructor
      · intro ⟨s, hs, _, haction⟩
        obtain rfl := Option.some.inj hs
        exact ⟨rfl, haction.symm⟩
      · rintro ⟨-, rfl⟩
        exact ⟨_, rfl, rfl, rfl⟩
    · unfold Accepts
      rw [getElem?_modify_ne _ his]
      exact iff_of_false (hnone hi) fun h => his h.1

theorem Finishes.of_pushback (hi : lo ≤ i) (h : Finishes lo stop a
    (nfa.modify i ({ · with isPushback := true })) nfa₁) : Finishes lo stop a nfa nfa₁ where
  numClasses := h.numClasses
  numLex := h.numLex
  size := by rw [h.size, size_modify]
  edge := by
    intro j o k
    rw [h.edge, edge_modify_marks (g := fun s => { s with isPushback := true })
      fun _ => ⟨rfl, rfl⟩]
  marks hj := (h.marks hj).trans (marksAt_modify_lt hi hj)
  accepts := h.accepts

theorem Apart.not_accepts {base : Nfa} (h : Apart limit base nfa) (hi : base.size ≤ i)
    {a? : Option Action} : ¬nfa.Accepts i a? := by
  intro ⟨s, hs, hfinal, _⟩
  rw [(h.unmarked hi hs).1] at hfinal
  cases hfinal

theorem not_accepts_pushback {a? : Option Action} {j : Nat} (h : ¬nfa.Accepts j a?) :
    ¬(nfa.modify i ({ · with isPushback := true })).Accepts j a? := by
  intro ⟨s, hs, hfinal, haction⟩
  by_cases hj : j = i
  · subst hj
    rw [getElem?_modify_self] at hs
    obtain ⟨s', hs', rfl⟩ := Option.map_eq_some_iff.1 hs
    exact h ⟨s', hs', hfinal, haction⟩
  · rw [getElem?_modify_ne _ hj] at hs
    exact h ⟨s, hs, hfinal, haction⟩

theorem Finishes.path_iff {nfa₃ nfa₄ : Nfa} (hd : Finishes lo stop a nfa₃ nfa₄) {j : Nat}
    {w : List Nat} : nfa₄.Path i w j ↔ nfa₃.Path i w j :=
  ⟨fun p => p.mono fun _ _ _ => hd.edge.1, fun p => p.mono fun _ _ _ => hd.edge.2⟩

/-- A finished fragment that is linked to entries adds a clause. -/
theorem Links.addsClause {nfa₃ nfa₄ : Nfa} (h : Links E start nfa₁ nfa₂)
    (h₁ : Grown limit nfa nfa₁) (hE : ∀ {i}, E i → i < 2 * nfa.numLex)
    (hg : Grown limit (nfa₂.restrict nfa.size) nfa₃)
    (hf : IsFragment (nfa₂.restrict nfa.size) nfa₃ f K) (hstart : f.start = start)
    (hd : Finishes nfa.size f.stop a nfa₃ nfa₄) : AddsClause limit nfa nfa₄ ⟨E, K, a⟩ start where
  numClasses := hd.numClasses.trans (hg.numClasses.trans (h.numClasses.trans h₁.numClasses))
  numLex := hd.numLex.trans (hg.numLex.trans (h.numLex.trans h₁.numLex))
  size_le := by
    rw [hd.size, ← h.size_restrict h₁]
    exact hg.size_le
  bounded := by
    have hbounded := hg.bounded
    rwa [h.size_restrict h₁, ← hd.size] at hbounded
  entries_lt := hE
  edge {i o j} hi := by
    have hlt : i < (nfa₂.restrict nfa.size).size := (h.size_restrict h₁).symm ▸ hi
    rw [hd.edge, hg.old_edge hlt, edge_congr (h.getElem?_restrict h₁ hi), h.edge, h₁.old_edge hi]
  marks {i} hi := by
    have hlt : i < (nfa₂.restrict nfa.size).size := (h.size_restrict h₁).symm ▸ hi
    rw [hd.marks hi, marksAt, hg.old hlt, h.getElem?_restrict h₁ hi]
    apply (h.marks i).trans
    rw [marksAt, h₁.old hi, marksAt]
  new_edge {i o j} hi he := by
    have hge : (nfa₂.restrict nfa.size).size ≤ i := (h.size_restrict h₁).symm ▸ hi
    have hnew := hg.edge hge (hd.edge.1 he)
    rwa [h.size_restrict h₁, ← hd.size] at hnew
  class_lt {i k j} hi he := by
    have hge : (nfa₂.restrict nfa.size).size ≤ i := (h.size_restrict h₁).symm ▸ hi
    rw [← h₁.numClasses, ← h.numClasses]
    exact hg.class_lt hge (hd.edge.1 he)
  start_ge := hstart ▸ h.size_restrict h₁ ▸ hf.start_ge
  start_lt := hstart ▸ hd.size ▸ hf.start_lt
  accepts_iff {w a?} := by
    subst hstart
    constructor
    · intro ⟨l, p, hl⟩
      have p := hd.path_iff.1 p
      have hge : nfa.size ≤ l := h.size_restrict h₁ ▸ hg.path_ge p hf.start_ge
      obtain ⟨rfl, rfl⟩ := (hd.accepts hge).1 hl
      exact ⟨(hf.language w).1 p, rfl⟩
    · rintro ⟨hw, rfl⟩
      have hge : nfa.size ≤ f.stop := h.size_restrict h₁ ▸ hf.stop_ge
      exact ⟨f.stop, hd.path_iff.2 ((hf.language w).2 hw), (hd.accepts hge).2 ⟨rfl, rfl⟩⟩

end Nfa

end ScannerGen
