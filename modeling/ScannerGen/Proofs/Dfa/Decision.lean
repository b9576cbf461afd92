import ScannerGen.Proofs.Dfa.Determinize
import ScannerGen.Proofs.Dfa.Minimal

/-
  What a deterministic automaton decides. After every word the state tells whether a clause matches
  it, and if so it has the action of a matching clause of lowest priority (`Tells`). Minimization
  leaves states that are alike (`Dfa.Decides.commutes`).
-/

namespace ScannerGen

namespace Clause

variable {cs : List Clause} {c : Clause} {i : Nat} {w : List Nat}

/-- The clause is in force at entry `i`, and `w` is one of its words. -/
def Matches (c : Clause) (i : Nat) (w : List Nat) : Prop := c.entries i ∧ w ∈ c.language

/-- No clause that matches `w` has a lower priority than `c`, which matches it too. -/
structure IsFirst (cs : List Clause) (i : Nat) (w : List Nat) (c : Clause) : Prop where
  mem : c ∈ cs
  isMatch : c.Matches i w
  le : ∀ c' ∈ cs, c'.Matches i w → c.action.priority ≤ c'.action.priority

end Clause

open Clause

/-- The state tells whether a clause matches `w`, and has the action of a first one. -/
structure DfaState.Tells (cs : List Clause) (i : Nat) (w : List Nat) (s : DfaState) : Prop where
  final_iff : s.isFinal = true ↔ ∃ c ∈ cs, c.Matches i w
  first : s.isFinal = true →
    ∃ c, IsFirst cs i w c ∧ s.action? = some c.action ∧ s.isLookEnd = c.action.isLookahead

/-- From start `i` every word leads to a state like one that tells which clauses match it; it leads
nowhere only if none does. -/
def Dfa.Decides (strict : Bool) (cs : List Clause) (d : Dfa) (i : Nat) : Prop :=
  ∃ q, d.starts[i]? = some q ∧ ∀ w, (d.walk q w = none ∧ ∀ c ∈ cs, ¬c.Matches i w) ∨
    ∃ (j : Nat) (s s' : DfaState), d.walk q w = some j ∧ d.states[j]? = some s ∧
      s'.Tells cs i w ∧ s'.Alike strict s

namespace Nfa

variable {nfa : Nfa} {cs : List Clause} {s : IdSet} {i : Nat} {w : List Nat} {d : Dfa}
  {t : Subsets} {strict : Bool}

theorem Recognizes.matches_iff (h : Recognizes nfa cs) (hi : i < 2 * nfa.numLex) {a : Action} :
    (∃ l, nfa.Path i w l ∧ nfa.Accepts l (some a)) ↔
      ∃ c ∈ cs, c.Matches i w ∧ c.action = a := by
  rw [h.accepts_iff hi]
  simp only [Matches, Option.some.injEq, and_assoc, eq_comm (a := a)]

/-- The set of all states that a word leads to tells which clauses match it. -/
theorem Recognizes.tells (h : Recognizes nfa cs) (hi : i < 2 * nfa.numLex)
    (hs : ∀ l, l ∈ s ↔ nfa.Path i w l) (row : Array (Option Nat)) :
    (nfa.subsetState s row).Tells cs i w := by
  have hfinal : nfa.hasFinal s = true ↔ ∃ c ∈ cs, c.Matches i w := by
    rw [hasFinal_iff]
    constructor
    · intro ⟨l, hl, a?, ha⟩
      obtain ⟨c, hc, hentry, hw, -⟩ := (h.accepts_iff hi).1 ⟨l, (hs l).1 hl, ha⟩
      exact ⟨c, hc, hentry, hw⟩
    · intro ⟨c, hc, hmatch⟩
      obtain ⟨l, p, ha⟩ := (h.matches_iff hi).2 ⟨c, hc, hmatch, rfl⟩
      exact ⟨l, (hs l).2 p, some c.action, ha⟩
  refine ⟨hfinal, fun hf => ?_⟩
  obtain ⟨c, hc, hmatch⟩ := hfinal.1 hf
  obtain ⟨l, p, ha⟩ := (h.matches_iff hi).2 ⟨c, hc, hmatch, rfl⟩
  obtain ⟨a, haction, ⟨m, hm, hma⟩, hle⟩ := actionOf_spec ((hs l).2 p) ha
  obtain ⟨b, hb, hbmatch, rfl⟩ := (h.matches_iff hi).1 ⟨m, (hs m).1 hm, hma⟩
  refine ⟨b, ⟨hb, hbmatch, fun c' hc' hmatch' => ?_⟩, haction, ?_⟩
  · obtain ⟨l', p', ha'⟩ := (h.matches_iff hi).2 ⟨c', hc', hmatch', rfl⟩
    exact hle l' ((hs l').2 p') _ ha'
  · show (nfa.actionOf s).any (·.isLookahead) = _
    rw [haction]
    rfl

/-- From start `i` every word leads to the state for all that it leads to from entry `i`. -/
theorem IsDeterminization.exists_start (hd : nfa.IsDeterminization t d) (h : Recognizes nfa cs)
    (hi : i < 2 * nfa.numLex) :
    ∃ q, d.starts[i]? = some q ∧ ∀ w, (d.walk q w = none ∧ ∀ l, ¬nfa.Path i w l) ∨
      ∃ j s row, d.walk q w = some j ∧ d.states[j]? = some (nfa.subsetState s row) ∧
        ∀ l, l ∈ s ↔ nfa.Path i w l := by
  obtain ⟨q, hq, hset⟩ := hd.start_spec h.entries_le hi
  have hstart : ∀ {w j}, (∃ a ∈ nfa.closure (.single i), nfa.Path a w j) ↔ nfa.Path i w j := by
    intro w j
    rw [h.inRange.path_closure]
    simp only [IdSet.mem_single, exists_eq_left]
  refine ⟨q, hq, fun w => ?_⟩
  rcases hd.walk_spec h.inRange h.entries_le hset w with ⟨hw, hnone⟩ | ⟨j, s, hw, hs, hmem⟩
  · exact .inl ⟨hw, fun l p => hnone l (hstart.2 p)⟩
  · obtain ⟨row, hrow, -⟩ := hd.exists_row hs
    exact .inr ⟨j, s, row, hw, hrow, fun l => (hmem l).trans hstart⟩

theorem IsDeterminization.decides (hd : nfa.IsDeterminization t d) (h : Recognizes nfa cs)
    (hi : i < 2 * nfa.numLex) : d.Decides strict cs i := by
  obtain ⟨q, hq, hwalk⟩ := hd.exists_start h hi
  refine ⟨q, hq, fun w => ?_⟩
  rcases hwalk w with ⟨hw, hnone⟩ | ⟨j, s, row, hw, hrow, hs⟩
  · refine .inl ⟨hw, fun c hc hmatch => ?_⟩
    obtain ⟨l, p, -⟩ := (h.matches_iff hi).2 ⟨c, hc, hmatch, rfl⟩
    exact hnone l p
  · exact .inr ⟨j, _, _, hw, hrow, h.tells hi hs row, .refl strict _⟩

end Nfa

namespace Dfa

variable {d m : Dfa} {cs : List Clause} {i : Nat} {strict : Bool} {f : Nat → Nat}

/-- An automaton decides what another one does to which its states are mapped. -/
theorem Decides.commutes (h : d.Decides strict cs i) (hf : Commutes strict d m f)
    (hd : d.InRange) (hstarts : m.starts = d.starts.map f) : m.Decides strict cs i := by
  obtain ⟨q, hq, h⟩ := h
  have hlt : q < d.size := hd.2 q (Array.mem_of_getElem? hq)
  refine ⟨f q, ?_, fun w => ?_⟩
  · rw [hstarts, Array.getElem?_map, hq, Option.map_some]
  · rw [hf.walk hd hlt]
    rcases h w with ⟨hw, hnone⟩ | ⟨j, s, s', hw, hs, htells, halike⟩
    · exact .inl ⟨by rw [hw]; rfl, hnone⟩
    · have hkey := hf.key (hd.walk_lt hlt hw)
      rw [hs, Option.map_some] at hkey
      obtain ⟨u, hu, hkey⟩ := Option.map_eq_some_iff.1 hkey
      refine .inr ⟨f j, u, s', by rw [hw]; rfl, hu, htells, ?_⟩
      exact halike.trans (DfaState.alike_of_key_eq hkey)

end Dfa

end ScannerGen
