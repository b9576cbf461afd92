import ScannerGen.Dfa.Minimize

/-
  What can be observed of a deterministic automaton. In a well-formed automaton every run over
  classes ends in a state or gets stuck (`run_eq_ok`). The outcome of a word is the key of the state
  that it leads to; states are equivalent if no word has different outcomes from them. A map of
  states that commutes with the transitions and keeps the keys keeps every outcome
  (`outcome_map`).
-/

namespace ScannerGen.Dfa

/-- Every state has a target, possibly missing, for every class, and targets and starts exist. -/
structure WellFormed (d : Dfa) : Prop where
  row_size : ∀ s ∈ d.states, s.targets.size = d.numClasses
  inRange : d.InRange

instance (d : Dfa) : Decidable d.WellFormed :=
  decidable_of_iff ((∀ s ∈ d.states, s.targets.size = d.numClasses) ∧ d.InRange)
    ⟨fun h => ⟨h.1, h.2⟩, fun h => ⟨h.row_size, h.inRange⟩⟩

/-- A word over the classes of the automaton. -/
def IsWord (d : Dfa) (w : List Nat) : Prop := ∀ k ∈ w, k < d.numClasses

/-- The key of the state that `w` leads to from `i`, or nothing if the automaton gets stuck. -/
def outcome (d : Dfa) (strict : Bool) (i : Nat) (w : List Nat) : Option StateKey :=
  match d.run i w with
  | .ok (some j) => d.states[j]?.map (·.key strict)
  | _ => none

/-- No word tells the two states apart. -/
def Equivalent (d : Dfa) (strict : Bool) (i j : Nat) : Prop :=
  ∀ w, d.IsWord w → d.outcome strict i w = d.outcome strict j w

theorem isWord_cons {d : Dfa} {k : Nat} {w : List Nat} :
    d.IsWord (k :: w) ↔ k < d.numClasses ∧ d.IsWord w := by
  simp [IsWord]

theorem Equivalent.symm {d : Dfa} {strict : Bool} {i j : Nat} (h : d.Equivalent strict i j) :
    d.Equivalent strict j i := fun w hw => (h w hw).symm

/-! ## Single steps -/

theorem target?_eq {d : Dfa} {i : Nat} {s : DfaState} (hs : d.states[i]? = some s) (k : Nat) :
    d.target? i k = s.target? k := by
  rw [target?, hs, Option.bind_some]

theorem target?_eq_some {d : Dfa} {i k j : Nat} (h : d.target? i k = some j) :
    ∃ s, d.states[i]? = some s ∧ s.targets[k]? = some (some j) := by
  obtain ⟨s, hs, hk⟩ := Option.bind_eq_some_iff.1 h
  refine ⟨s, hs, ?_⟩
  unfold DfaState.target? at hk
  rwa [Option.join_eq_some_iff] at hk

theorem source_lt {d : Dfa} {i k j : Nat} (h : d.target? i k = some j) : i < d.size := by
  obtain ⟨s, hs, -⟩ := target?_eq_some h
  exact (Array.getElem?_eq_some_iff.1 hs).1

theorem InRange.target_lt {d : Dfa} (hd : d.InRange) {i k j : Nat} (h : d.target? i k = some j) :
    j < d.size := by
  obtain ⟨s, hs, hk⟩ := target?_eq_some h
  exact hd.1 s (Array.mem_of_getElem? hs) _ (Array.mem_of_getElem? hk) j rfl

theorem WellFormed.class_lt {d : Dfa} (hd : d.WellFormed) {i k j : Nat}
    (h : d.target? i k = some j) : k < d.numClasses := by
  obtain ⟨s, hs, hk⟩ := target?_eq_some h
  rw [← hd.row_size s (Array.mem_of_getElem? hs)]
  exact (Array.getElem?_eq_some_iff.1 hk).1

/-- A step fails only if a row is too short. -/
theorem step_eq_ok {d : Dfa} (hd : ∀ s ∈ d.states, s.targets.size = d.numClasses) {i k : Nat}
    (hi : i < d.size) (hk : k < d.numClasses) : d.step i k = .ok (d.target? i k) := by
  have hs : d.states[i]? = some d.states[i] := Array.getElem?_eq_getElem hi
  have hrow : k < d.states[i].targets.size := by
    rw [hd _ (Array.getElem_mem hi)]
    exact hk
  simp [step, target?, DfaState.target?, hs, Array.getElem?_eq_getElem hrow]

theorem WellFormed.step_eq_ok {d : Dfa} (hd : d.WellFormed) {i k : Nat} (hi : i < d.size)
    (hk : k < d.numClasses) : d.step i k = .ok (d.target? i k) :=
  Dfa.step_eq_ok hd.row_size hi hk

/-! ## Runs -/

/-- The state that a word leads to, if the automaton does not get stuck. -/
def walk (d : Dfa) (i : Nat) : List Nat → Option Nat
  | [] => some i
  | k :: w => (d.target? i k).bind (d.walk · w)

theorem InRange.walk_lt {d : Dfa} (hd : d.InRange) {i j : Nat} {w : List Nat} (hi : i < d.size)
    (h : d.walk i w = some j) : j < d.size := by
  induction w generalizing i with
  | nil =>
    unfold walk at h
    rw [Option.some.injEq] at h
    rwa [← h]
  | cons k w ih =>
    obtain ⟨l, hl, hw⟩ := Option.bind_eq_some_iff.1 h
    exact ih (hd.target_lt hl) hw

/-- Over classes of the automaton a run reaches a state or gets stuck, but never fails. -/
theorem WellFormed.run_eq_ok {d : Dfa} (hd : d.WellFormed) {i : Nat} {w : List Nat}
    (hi : i < d.size) (hw : d.IsWord w) : d.run i w = .ok (d.walk i w) := by
  induction w generalizing i with
  | nil => rfl
  | cons k w ih =>
    rw [isWord_cons] at hw
    unfold run
    rw [hd.step_eq_ok hi hw.1]
    cases ht : d.target? i k with
    | none => simp [walk, ht, bind, Except.bind]
    | some j => simpa [walk, ht, bind, Except.bind] using ih (hd.inRange.target_lt ht) hw.2

theorem WellFormed.outcome_eq {d : Dfa} (hd : d.WellFormed) (strict : Bool) {i : Nat}
    {w : List Nat} (hi : i < d.size) (hw : d.IsWord w) :
    d.outcome strict i w = (d.walk i w).bind fun j => d.states[j]?.map (·.key strict) := by
  unfold outcome
  rw [hd.run_eq_ok hi hw]
  cases d.walk i w <;> rfl

/-! ## Equivalent states -/

theorem outcome_nil {d : Dfa} (strict : Bool) (i : Nat) :
    d.outcome strict i [] = d.states[i]?.map (·.key strict) := rfl

theorem WellFormed.outcome_cons {d : Dfa} (hd : d.WellFormed) (strict : Bool) {i k : Nat}
    {w : List Nat} (hi : i < d.size) (hw : d.IsWord (k :: w)) :
    d.outcome strict i (k :: w) = (d.target? i k).bind (d.outcome strict · w) := by
  rw [hd.outcome_eq strict hi hw, walk, Option.bind_assoc]
  cases ht : d.target? i k with
  | none => rfl
  | some j => exact (hd.outcome_eq strict (hd.inRange.target_lt ht) (isWord_cons.1 hw).2).symm

theorem equivalent_key {d : Dfa} {strict : Bool} {i j : Nat}
    (h : d.Equivalent strict i j) :
    d.states[i]?.map (·.key strict) = d.states[j]?.map (·.key strict) :=
  h [] (by simp [IsWord])

/-- Equivalent states move to equivalent states. -/
theorem WellFormed.equivalent_target {d : Dfa} (hd : d.WellFormed) {strict : Bool} {i j a k : Nat}
    (hi : i < d.size) (hj : j < d.size) (h : d.Equivalent strict i j)
    (ha : d.target? i k = some a) : ∃ b, d.target? j k = some b ∧ d.Equivalent strict a b := by
  have hk := hd.class_lt ha
  have alen := hd.inRange.target_lt ha
  have step : ∀ w, d.IsWord w →
      d.outcome strict a w = (d.target? j k).bind (d.outcome strict · w) := by
    intro w hw
    have hkw : d.IsWord (k :: w) := isWord_cons.2 ⟨hk, hw⟩
    have := h _ hkw
    rwa [hd.outcome_cons strict hi hkw, hd.outcome_cons strict hj hkw, ha, Option.bind_some] at this
  cases hb : d.target? j k with
  | none =>
    -- the empty word has an outcome from `a`
    have := step [] (by simp [IsWord])
    rw [hb, outcome_nil, Array.getElem?_eq_getElem alen] at this
    simp at this
  | some b =>
    refine ⟨b, rfl, fun w hw => ?_⟩
    rw [step w hw, hb, Option.bind_some]

/-! ## Maps between automata -/

/-- `f` takes the states of `d` to those of `m`, along with their keys and transitions. -/
structure Commutes (strict : Bool) (d m : Dfa) (f : Nat → Nat) : Prop where
  numClasses : m.numClasses = d.numClasses
  lt_size : ∀ {i}, i < d.size → f i < m.size
  key : ∀ {i}, i < d.size →
    m.states[f i]?.map (·.key strict) = d.states[i]?.map (·.key strict)
  target : ∀ {i} (k : Nat), i < d.size → m.target? (f i) k = (d.target? i k).map f

theorem Commutes.refl (strict : Bool) (d : Dfa) : Commutes strict d d id :=
  ⟨rfl, id, fun _ => rfl, fun _ _ => by simp⟩

theorem Commutes.walk {strict : Bool} {d m : Dfa} {f : Nat → Nat} (hf : Commutes strict d m f)
    (hd : d.InRange) {i : Nat} (hi : i < d.size) (w : List Nat) :
    m.walk (f i) w = (d.walk i w).map f := by
  induction w generalizing i with
  | nil => rfl
  | cons k w ih =>
    unfold Dfa.walk
    rw [hf.target k hi]
    cases ht : d.target? i k with
    | none => rfl
    | some j => exact ih (hd.target_lt ht)

theorem Commutes.isWord {strict : Bool} {d m : Dfa} {f : Nat → Nat} (hf : Commutes strict d m f)
    {w : List Nat} : m.IsWord w ↔ d.IsWord w := by
  unfold IsWord
  rw [hf.numClasses]

theorem Commutes.outcome {strict : Bool} {d m : Dfa} {f : Nat → Nat} (hf : Commutes strict d m f)
    (hd : d.WellFormed) (hm : m.WellFormed) {i : Nat} (hi : i < d.size) {w : List Nat}
    (hw : d.IsWord w) : m.outcome strict (f i) w = d.outcome strict i w := by
  rw [hm.outcome_eq strict (hf.lt_size hi) (hf.isWord.2 hw), hd.outcome_eq strict hi hw,
    hf.walk hd.inRange hi w]
  cases hj : d.walk i w with
  | none => rfl
  | some j => exact hf.key (hd.inRange.walk_lt hi hj)

end ScannerGen.Dfa
