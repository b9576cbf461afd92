import ScannerGen.Proofs.Dfa.Minimal

/-
  Lexical states that scan alike. The report compares nothing but start states of the minimal
  automaton. As it has one state for all equivalent ones and different states for others, starts
  coincide exactly if no word tells them apart in the automaton that was minimized, in which the
  starts of two lexical states are two states in any case (`equivalentLexStates_is_exact`).
-/

namespace ScannerGen

theorem DfaState.Alike.key_eq {strict : Bool} {s s' : DfaState} (h : s.Alike strict s') :
    s'.key strict = s.key strict := by
  unfold key
  rw [h.isFinal, h.isPushback, h.isLookEnd, h.code]
  cases strict with
  | true => rw [if_pos rfl, if_pos rfl, h.priority rfl]
  | false => rfl

namespace Dfa

variable {d m : Dfa} {strict atLineStart : Bool} {f : Nat → Nat} {i j a b numLex : Nat}
  {w : List Nat}

/-- Reading `w` gets stuck from both states, or leads to states with the same attributes and
interchangeable actions. -/
def EndsAlike (d : Dfa) (strict : Bool) (w : List Nat) (i j : Nat) : Prop :=
  (d.run i w = .ok none ∧ d.run j w = .ok none) ∨
    ∃ p s q s', d.run i w = .ok (some p) ∧ d.states[p]? = some s ∧
      d.run j w = .ok (some q) ∧ d.states[q]? = some s' ∧ s.Alike strict s'

/-- The two lexical states have starts for the beginning of a line and for elsewhere, and all words
end alike in them. -/
def ScansAlike (d : Dfa) (strict : Bool) (a b : Nat) : Prop :=
  ∀ atLineStart, ∃ i j, d.start? a atLineStart = some i ∧ d.start? b atLineStart = some j ∧
    ∀ w, d.IsWord w → d.EndsAlike strict w i j

theorem WellFormed.endsAlike_iff (hd : d.WellFormed) (hi : i < d.size) (hj : j < d.size)
    (hw : d.IsWord w) :
    d.EndsAlike strict w i j ↔ d.outcome strict i w = d.outcome strict j w := by
  have hstate {i p : Nat} (hi : i < d.size) (hp : d.walk i w = some p) :
      ∃ s, d.states[p]? = some s :=
    ⟨_, Array.getElem?_eq_getElem (hd.inRange.walk_lt hi hp)⟩
  unfold EndsAlike
  rw [hd.outcome_eq strict hi hw, hd.outcome_eq strict hj hw, hd.run_eq_ok hi hw,
    hd.run_eq_ok hj hw]
  cases hp : d.walk i w with
  | none =>
    cases hq : d.walk j w with
    | none => simp
    | some q =>
      obtain ⟨s', hs'⟩ := hstate hj hq
      simp [hs']
  | some p =>
    obtain ⟨s, hs⟩ := hstate hi hp
    cases hq : d.walk j w with
    | none => simp [hs]
    | some q =>
      obtain ⟨s', hs'⟩ := hstate hj hq
      simp only [Option.bind_some, hs, hs', Option.map_some, Option.some.injEq, Except.ok.injEq,
        reduceCtorEq, false_and, false_or, exists_and_left, exists_eq_left']
      exact ⟨fun h => h.key_eq.symm, fun h => DfaState.alike_of_key_eq h.symm⟩

theorem WellFormed.equivalent_iff (hd : d.WellFormed) (hi : i < d.size) (hj : j < d.size) :
    d.Equivalent strict i j ↔ ∀ w, d.IsWord w → d.EndsAlike strict w i j :=
  forall₂_congr fun _ hw => (hd.endsAlike_iff hi hj hw).symm

/-! ## Pairs of starts -/

theorem start?_lt (h : d.starts.size = 2 * numLex) (ha : a < numLex) (atLineStart : Bool) :
    2 * a + atLineStart.toNat < d.starts.size := by
  have := atLineStart.toNat_le
  omega

theorem exists_start (h : d.starts.size = 2 * numLex) (ha : a < numLex) (atLineStart : Bool) :
    ∃ i, d.start? a atLineStart = some i :=
  ⟨_, Array.getElem?_eq_getElem (start?_lt h ha atLineStart)⟩

theorem lt_of_start? (h : d.starts.size = 2 * numLex) (ha : d.start? a atLineStart = some i) :
    a < numLex := by
  have hlt := (Array.getElem?_eq_some_iff.1 ha).1
  omega

theorem InRange.start_lt (hd : d.InRange) (ha : d.start? a atLineStart = some i) : i < d.size :=
  hd.2 i (Array.mem_of_getElem? ha)

/-- With a pair of starts for every lexical state, the report lists the pairs that coincide. -/
theorem mem_equivalentLexStates (h : d.starts.size = 2 * numLex) :
    (a, b) ∈ d.equivalentLexStates ↔
      a < b ∧ b < numLex ∧ ∀ atLineStart, d.start? a atLineStart = d.start? b atLineStart := by
  have hnum : (d.starts.size + 1) / 2 = numLex := by omega
  have hor {a : Nat} (ha : a < numLex) :
      d.starts[2 * a + 1]?.or d.starts[2 * a]? = d.starts[2 * a + 1]? := by
    have hlt : 2 * a + 1 < d.starts.size := start?_lt h ha true
    rw [Array.getElem?_eq_getElem hlt, Option.some_or]
  unfold equivalentLexStates
  simp only [hnum, List.mem_flatMap, List.mem_range, List.mem_map, List.mem_filter,
    Bool.and_eq_true, decide_eq_true_eq, Prod.mk.injEq, Bool.forall_bool]
  constructor
  · rintro ⟨a', ha, b', ⟨hb, hlt, heq, heq'⟩, rfl, rfl⟩
    rw [hor ha, hor hb] at heq'
    exact ⟨hlt, hb, heq, heq'⟩
  · intro ⟨hlt, hb, heq, heq'⟩
    have ha : a < numLex := Nat.lt_trans hlt hb
    refine ⟨a, ha, b, ⟨hb, hlt, heq, ?_⟩, rfl, rfl⟩
    rw [hor ha, hor hb]
    exact heq'

theorem IsQuotient.start?_eq (hf : IsQuotient strict d m f) (a : Nat) (atLineStart : Bool) :
    m.start? a atLineStart = (d.start? a atLineStart).map f := by
  unfold start?
  rw [hf.starts_eq, Array.getElem?_map]

/-- In the quotient the starts of two lexical states coincide exactly if these scan alike. -/
theorem IsQuotient.scansAlike_iff (hf : IsQuotient strict d m f) (hd : d.WellFormed)
    (h : d.starts.size = 2 * numLex) (ha : a < numLex) (hb : b < numLex) :
    d.ScansAlike strict a b ↔
      ∀ atLineStart, m.start? a atLineStart = m.start? b atLineStart := by
  refine forall_congr' fun atLineStart => ?_
  obtain ⟨i, hi⟩ := exists_start h ha atLineStart
  obtain ⟨j, hj⟩ := exists_start h hb atLineStart
  have hilt := hd.inRange.start_lt hi
  have hjlt := hd.inRange.start_lt hj
  rw [hf.start?_eq, hf.start?_eq, hi, hj, Option.map_some, Option.map_some, Option.some.injEq,
    hf.eq_iff hilt hjlt, hd.equivalent_iff hilt hjlt]
  simp

/-- Of the minimal automaton exactly those lexical states are reported, the lower number first, in
which all words end alike before minimizing. -/
theorem equivalentLexStates_is_exact (d : Dfa) (strict : Bool) (numLex : Nat) (hd : d.WellFormed)
    (h : d.starts.size = 2 * numLex) :
    ∃ m, d.minimize? strict = .ok m ∧
      ∀ a b, (a, b) ∈ m.equivalentLexStates ↔ a < b ∧ d.ScansAlike strict a b := by
  obtain ⟨f, hf⟩ := exists_isQuotient hd strict
  have hm : (d.minimize strict).starts.size = 2 * numLex := by
    rw [hf.starts_eq, Array.size_map, h]
  refine ⟨_, minimize?_eq_ok hd.inRange strict, fun a b => ?_⟩
  rw [mem_equivalentLexStates hm]
  refine and_congr_right fun hlt => ?_
  constructor
  · intro ⟨hb, hstarts⟩
    exact (hf.scansAlike_iff hd h (Nat.lt_trans hlt hb) hb).2 hstarts
  · intro hscan
    obtain ⟨i, j, -, hj, -⟩ := hscan false
    have hb := lt_of_start? h hj
    exact ⟨hb, (hf.scansAlike_iff hd h (Nat.lt_trans hlt hb) hb).1 hscan⟩

/-- Three lexical states with six starts. The second one differs from the others at the beginning of
a line only, and the third one differs from the first in the line of its rule only. -/
def dialects : Dfa where
  states := #[
    ⟨#[some 6, none], false, false, false, none⟩,
    ⟨#[some 6, none], false, false, false, none⟩,
    ⟨#[some 6, none], false, false, false, none⟩,
    ⟨#[some 6, some 7], false, false, false, none⟩,
    ⟨#[some 8, none], false, false, false, none⟩,
    ⟨#[some 8, none], false, false, false, none⟩,
    ⟨#[none, none], true, false, false, some ⟨"a", 1, false⟩⟩,
    ⟨#[none, none], true, false, false, some ⟨"b", 2, false⟩⟩,
    ⟨#[none, none], true, false, false, some ⟨" a", 3, false⟩⟩]
  numClasses := 2
  starts := #[0, 1, 2, 3, 4, 5]

theorem equivalentLexStates_is_exact_dialects :
    dialects.WellFormed ∧ dialects.starts.size = 2 * 3 ∧
      dialects.ScansAlike false 0 2 ∧ ¬dialects.ScansAlike false 0 1 ∧
      ¬dialects.ScansAlike true 0 2 := by
  have hd : dialects.WellFormed := by decide
  have hlax : dialects.minimize? false = .ok (dialects.minimize false) := rfl
  have hstrict : dialects.minimize? true = .ok (dialects.minimize true) := rfl
  have hpairs : (dialects.minimize false).equivalentLexStates = [(0, 2)] := by decide +kernel
  have hnone : (dialects.minimize true).equivalentLexStates = [] := by decide +kernel
  obtain ⟨m, hm, hiff⟩ := equivalentLexStates_is_exact dialects false 3 hd rfl
  obtain ⟨m', hm', hiff'⟩ := equivalentLexStates_is_exact dialects true 3 hd rfl
  rw [hlax, Except.ok.injEq] at hm
  rw [hstrict, Except.ok.injEq] at hm'
  subst hm hm'
  simp only [hpairs, hnone, List.mem_singleton, List.not_mem_nil, false_iff] at hiff hiff'
  refine ⟨hd, rfl, ((hiff 0 2).1 rfl).2, fun h => ?_, fun h => hiff' 0 2 ⟨by decide, h⟩⟩
  exact absurd ((hiff 0 1).2 ⟨by decide, h⟩) (by decide)

end Dfa

end ScannerGen
