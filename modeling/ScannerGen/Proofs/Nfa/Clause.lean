import ScannerGen.Proofs.Grouping
import ScannerGen.Proofs.Nfa.Growth

/-
  Automata of several clauses. A clause is a language with an action and the entries from which it
  is in force. An automaton recognizes clauses if the words that lead from an entry to a final state
  are those of the clauses in force there, each with its action (`Recognizes`); this is kept when a
  clause is added (`Recognizes.add`). The final states of a clause come after those of the clauses
  before it (`Ranked`).
-/

namespace ScannerGen

/-- What a rule means to the entries of an automaton. -/
structure Clause where
  entries : Nat → Prop
  language : Language Nat
  action : Action

namespace Nfa

variable {limit : Nat} {nfa nfa' : Nfa} {i j k l : Nat} {o : Option Nat} {w : List Nat}
  {a? : Option Action}

/-- What is said about a match that ends in the state. -/
def marksAt (nfa : Nfa) (i : Nat) : Option (Bool × Bool × Option Action) :=
  nfa.states[i]?.map fun s => (s.isFinal, s.isPushback, s.action?)

/-- A match with this action may end in the state. -/
def Accepts (nfa : Nfa) (i : Nat) (a? : Option Action) : Prop :=
  ∃ s, nfa.states[i]? = some s ∧ s.isFinal = true ∧ s.action? = a?

theorem accepts_iff_marksAt :
    nfa.Accepts i a? ↔ ∃ pushback, nfa.marksAt i = some (true, pushback, a?) := by
  unfold marksAt
  constructor
  · rintro ⟨s, hs, hfinal, rfl⟩
    exact ⟨s.isPushback, by rw [hs, Option.map_some, hfinal]⟩
  · intro ⟨pushback, h⟩
    obtain ⟨s, hs, heq⟩ := Option.map_eq_some_iff.1 h
    simp only [Prod.mk.injEq] at heq
    exact ⟨s, hs, heq.1, heq.2.2⟩

theorem Accepts.congr (h : nfa'.marksAt i = nfa.marksAt i) :
    nfa'.Accepts i a? ↔ nfa.Accepts i a? := by
  rw [accepts_iff_marksAt, accepts_iff_marksAt, h]

/-- The words that lead from an entry to a final state are those of the clauses. -/
structure Recognizes (nfa : Nfa) (cs : List Clause) : Prop where
  inRange : nfa.InRange
  entries_le : 2 * nfa.numLex ≤ nfa.size
  not_entered : ∀ {i o j}, nfa.Edge i o j → 2 * nfa.numLex ≤ j
  accepts_iff : ∀ {i w a?}, i < 2 * nfa.numLex → ((∃ l, nfa.Path i w l ∧ nfa.Accepts l a?) ↔
    ∃ c ∈ cs, c.entries i ∧ w ∈ c.language ∧ a? = some c.action)

/-- New states have been added for the clause, and they are entered at `start`. -/
structure AddsClause (limit : Nat) (nfa nfa' : Nfa) (c : Clause) (start : Nat) : Prop where
  numClasses : nfa'.numClasses = nfa.numClasses
  numLex : nfa'.numLex = nfa.numLex
  size_le : nfa.size ≤ nfa'.size
  bounded : nfa'.size = nfa.size ∨ nfa'.size ≤ limit
  entries_lt : ∀ {i}, c.entries i → i < 2 * nfa.numLex
  edge : ∀ {i o j}, i < nfa.size →
    (nfa'.Edge i o j ↔ nfa.Edge i o j ∨ c.entries i ∧ o = none ∧ j = start)
  marks : ∀ {i}, i < nfa.size → nfa'.marksAt i = nfa.marksAt i
  new_edge : ∀ {i o j}, nfa.size ≤ i → nfa'.Edge i o j → nfa.size ≤ j ∧ j < nfa'.size
  class_lt : ∀ {i k j}, nfa.size ≤ i → nfa'.Edge i (some k) j → k < nfa.numClasses
  start_ge : nfa.size ≤ start
  start_lt : start < nfa'.size
  accepts_iff : ∀ {w a?}, (∃ l, nfa'.Path start w l ∧ nfa'.Accepts l a?) ↔
    w ∈ c.language ∧ a? = some c.action

variable {cs : List Clause} {c : Clause} {start : Nat}

theorem AddsClause.inRange (h : AddsClause limit nfa nfa' c start) (hr : nfa.InRange) :
    nfa'.InRange where
  target_lt {i o j} he := by
    by_cases hi : i < nfa.size
    · rcases (h.edge hi).1 he with he | ⟨-, -, rfl⟩
      · exact Nat.lt_of_lt_of_le (hr.target_lt he) h.size_le
      · exact h.start_lt
    · exact (h.new_edge (Nat.le_of_not_lt hi) he).2
  class_lt {i k j} he := by
    rw [h.numClasses]
    by_cases hi : i < nfa.size
    · rcases (h.edge hi).1 he with he | ⟨-, ho, -⟩
      · exact hr.class_lt he
      · cases ho
    · exact h.class_lt (Nat.le_of_not_lt hi) he

/-- From an entry a path stays among the old states, or goes to the new ones at once. -/
theorem AddsClause.path_iff (h : AddsClause limit nfa nfa' c start) (hr : Recognizes nfa cs)
    (hi : i < 2 * nfa.numLex) :
    nfa'.Path i w l ↔ nfa.Path i w l ∨ c.entries i ∧ nfa'.Path start w l := by
  have hlt : ∀ {i}, i < 2 * nfa.numLex → i < nfa.size := fun hi =>
    Nat.lt_of_lt_of_le hi hr.entries_le
  -- behind the entries there are only the edges that were there
  have hbehind : ∀ a o b, 2 * nfa.numLex ≤ a ∧ a < nfa.size → nfa'.Edge a o b →
      nfa.Edge a o b ∧ 2 * nfa.numLex ≤ b ∧ b < nfa.size := by
    intro a o b ha he
    rcases (h.edge ha.2).1 he with he | ⟨hc, -, -⟩
    · exact ⟨he, hr.not_entered he, hr.inRange.target_lt he⟩
    · exact absurd (h.entries_lt hc) (Nat.not_lt.2 ha.1)
  constructor
  · intro p
    rcases p.cases_first with ⟨rfl, rfl⟩ | ⟨o, j, u, he, q, rfl⟩
    · exact .inl (.refl i)
    · rcases (h.edge (hlt hi)).1 he with he | ⟨hc, rfl, rfl⟩
      · have hj := And.intro (hr.not_entered he) (hr.inRange.target_lt he)
        exact .inl (.step he (q.transfer hbehind hj))
      · exact .inr ⟨hc, q⟩
  · rintro (p | ⟨hc, p⟩)
    · refine p.transfer (P := (· < nfa.size)) (fun a o b ha he => ?_) (hlt hi)
      exact ⟨(h.edge ha).2 (.inl he), hr.inRange.target_lt he⟩
    · exact .eps ((h.edge (o := none) (hlt hi)).2 (.inr ⟨hc, rfl, rfl⟩)) p

theorem Recognizes.add (hr : Recognizes nfa cs) (h : AddsClause limit nfa nfa' c start) :
    Recognizes nfa' (cs ++ [c]) where
  inRange := h.inRange hr.inRange
  entries_le := by
    rw [h.numLex]
    exact Nat.le_trans hr.entries_le h.size_le
  not_entered {i o j} he := by
    rw [h.numLex]
    by_cases hi : i < nfa.size
    · rcases (h.edge hi).1 he with he | ⟨-, -, rfl⟩
      · exact hr.not_entered he
      · exact Nat.le_trans hr.entries_le h.start_ge
    · exact Nat.le_trans hr.entries_le (h.new_edge (Nat.le_of_not_lt hi) he).1
  accepts_iff {i w a?} hi := by
    rw [h.numLex] at hi
    have hold : (∃ l, nfa.Path i w l ∧ nfa'.Accepts l a?) ↔
        ∃ l, nfa.Path i w l ∧ nfa.Accepts l a? := by
      refine exists_congr fun l => and_congr_right fun p => Accepts.congr (h.marks ?_)
      exact hr.inRange.path_lt p (Nat.lt_of_lt_of_le hi hr.entries_le)
    simp only [h.path_iff hr hi, or_and_right, exists_or, hold, hr.accepts_iff hi, and_assoc,
      exists_and_left, h.accepts_iff, List.mem_append, List.mem_singleton, exists_eq_left]

/-! ## The order of the clauses -/

/-- A match of the clause at place `n` ends in a state of rank `n`, and ranks ascend with the
numbers of the states. -/
structure Ranked (nfa : Nfa) (cs : List Clause) (rank : Nat → Nat) : Prop where
  mono : Monotone rank
  le_length : ∀ i < nfa.size, rank i ≤ cs.length
  accepts_iff : ∀ {i w a? n}, i < 2 * nfa.numLex →
    ((∃ l, nfa.Path i w l ∧ nfa.Accepts l a? ∧ rank l = n) ↔
      ∃ c, cs[n]? = some c ∧ c.entries i ∧ w ∈ c.language ∧ a? = some c.action)

variable {rank : Nat → Nat}

/-- The states that come with a clause rank above all others. -/
theorem Ranked.add (hk : Ranked nfa cs rank) (hr : Recognizes nfa cs)
    (h : AddsClause limit nfa nfa' c start) :
    Ranked nfa' (cs ++ [c]) fun l => if l < nfa.size then rank l else cs.length where
  mono i j hij := by
    dsimp only
    split <;> split
    · exact hk.mono hij
    · next hi _ => exact hk.le_length i hi
    · omega
    · exact Nat.le_refl _
  le_length i _ := by
    rw [List.length_append]
    split
    · next hi => exact Nat.le_add_right_of_le (hk.le_length i hi)
    · exact Nat.le_add_right ..
  accepts_iff {i w a? n} hi := by
    rw [h.numLex] at hi
    have hlt : i < nfa.size := Nat.lt_of_lt_of_le hi hr.entries_le
    -- what an old path ends in is old, and what a path from `start` ends in is new
    have hold : (∃ l, nfa.Path i w l ∧ nfa'.Accepts l a? ∧
        (if l < nfa.size then rank l else cs.length) = n) ↔
        ∃ l, nfa.Path i w l ∧ nfa.Accepts l a? ∧ rank l = n := by
      refine exists_congr fun l => and_congr_right fun p => ?_
      have hl := hr.inRange.path_lt p hlt
      rw [Accepts.congr (h.marks hl), if_pos hl]
    have hnew : (∃ l, nfa'.Path start w l ∧ nfa'.Accepts l a? ∧
        (if l < nfa.size then rank l else cs.length) = n) ↔
        (w ∈ c.language ∧ a? = some c.action) ∧ cs.length = n := by
      rw [← h.accepts_iff, ← exists_and_right]
      refine exists_congr fun l => ?_
      rw [and_assoc]
      refine and_congr_right fun p => ?_
      have hl : nfa.size ≤ l :=
        p.stays (P := fun l => nfa.size ≤ l) (fun _ _ _ hi he => (h.new_edge hi he).1) h.start_ge
      rw [if_neg (Nat.not_lt.2 hl)]
    simp only [h.path_iff hr hi, or_and_right, exists_or, hold, hk.accepts_iff hi, and_assoc,
      exists_and_left, hnew, getElem?_snoc_eq_some_iff, exists_eq_left']
    exact or_congr_right ⟨fun ⟨hc, hw, ha, hn⟩ => ⟨hn.symm, hc, hw, ha⟩,
      fun ⟨hn, hc, hw, ha⟩ => ⟨hc, hw, ha, hn.symm⟩⟩

end Nfa

end ScannerGen
