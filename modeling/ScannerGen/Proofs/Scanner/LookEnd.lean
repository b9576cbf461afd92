import ScannerGen.Proofs.Dfa.Canonical
import ScannerGen.Proofs.Scanner.Meaning
import ScannerGen.Proofs.Table.Labels

/-
  What the tables say of lookahead, twice: in the attributes of a state and in the action that its
  label stands for. The attributes are those of the state's own action (`Stages.actsBy`). The action
  in the table is that of the lowest state with the label, which may be that of another rule with
  the same code, so the two agree unless rules with and without lookahead share a label
  (`lookEnd_agrees_unless_shared`).
-/

namespace ScannerGen

/-- The state is final if it has an action. This is one of `actions`, and it tells whether a
lookahead ends in the state. -/
structure DfaState.ActsBy (actions : Set Action) (s : DfaState) : Prop where
  final_iff : s.isFinal = true ↔ ∃ a, s.action? = some a
  mem : ∀ {a}, s.action? = some a → a ∈ actions
  lookEnd_iff : ∀ {a}, s.action? = some a → (s.isLookEnd = true ↔ a.isLookahead = true)

theorem DfaState.ActsBy.renumber {actions : Set Action} {s : DfaState} (h : s.ActsBy actions)
    (f : Nat → Nat) : (s.renumber f).ActsBy actions :=
  ⟨h.final_iff, h.mem, h.lookEnd_iff⟩

/-! ## Automata -/

namespace Nfa

variable {nfa : Nfa} {cs : List Clause} {s : IdSet} {l : Nat} {a? : Option Action}

/-- A state of a set that is found is reached from an entry. -/
theorem Found.exists_path (hs : nfa.Found s) (h : nfa.InRange) (hl : l ∈ s) :
    ∃ e < 2 * nfa.numLex, ∃ w, nfa.Path e w l := by
  induction hs generalizing l with
  | @entry e he =>
    obtain ⟨i, hi, path⟩ := h.mem_closure.1 hl
    obtain rfl := IdSet.mem_single.1 hi
    exact ⟨i, he, [], path⟩
  | @next s c k _ hc ih =>
    obtain ⟨-, -, -, hmem⟩ := h.mem_closedMovesOf hc
    obtain ⟨i, hi, j, hmove, path⟩ := (hmem l).1 hl
    obtain ⟨e, he, w, path'⟩ := ih hi
    exact ⟨e, he, w ++ [k], path'.trans (.move hmove path)⟩

theorem Recognizes.exists_clause (h : Recognizes nfa cs) (hs : nfa.Found s) (hl : l ∈ s)
    (ha : nfa.Accepts l a?) : ∃ c ∈ cs, a? = some c.action := by
  obtain ⟨e, he, w, path⟩ := hs.exists_path h.inRange hl
  obtain ⟨c, hc, -, -, rfl⟩ := (h.accepts_iff he).1 ⟨l, path, ha⟩
  exact ⟨c, hc, rfl⟩

/-- A set that is found acts by a clause. -/
theorem Recognizes.actsBy (h : Recognizes nfa cs) (hs : nfa.Found s) (row : Array (Option Nat)) :
    (nfa.subsetState s row).ActsBy {a | ∃ c ∈ cs, c.action = a} := by
  have hchosen : ∀ {a}, nfa.actionOf s = some a → ∃ l ∈ s, nfa.Accepts l (some a) := by
    intro a ha
    have hchoice := isChoice_actionOf nfa s
    rw [ha] at hchoice
    obtain ⟨l, hl, hla, -⟩ := hchoice
    exact ⟨l, hl, finalAction_eq_some.1 hla⟩
  refine ⟨hasFinal_iff.trans ⟨?_, ?_⟩, ?_, ?_⟩
  · rintro ⟨l, hl, a?, ha⟩
    obtain ⟨c, -, rfl⟩ := h.exists_clause hs hl ha
    obtain ⟨b, hb, -⟩ := actionOf_spec hl ha
    exact ⟨b, hb⟩
  · rintro ⟨a, ha⟩
    obtain ⟨l, hl, hla⟩ := hchosen ha
    exact ⟨l, hl, some a, hla⟩
  · intro a ha
    obtain ⟨l, hl, hla⟩ := hchosen ha
    obtain ⟨c, hc, heq⟩ := h.exists_clause hs hl hla
    exact ⟨c, hc, (Option.some.inj heq).symm⟩
  · intro a ha
    show (nfa.actionOf s).any (·.isLookahead) = true ↔ _
    rw [show nfa.actionOf s = some a from ha, Option.any_some]

end Nfa

theorem Automata.Stages.actsBy {spec : Spec} {p : Partition} {config : Config} {nfa : Nfa}
    {full : Dfa} {a : Automata} (h : Stages spec p config nfa full a) {s : DfaState}
    (hs : s ∈ a.dfa.states) : s.ActsBy {b | ∃ c ∈ spec.clauses p, c.action = b} := by
  obtain ⟨t, ht⟩ := h.determinized
  have hfull : ∀ (i : Nat) (s : DfaState), full.states[i]? = some s →
      s.ActsBy {b | ∃ c ∈ spec.clauses p, c.action = b} := by
    intro i s hs
    obtain ⟨set, hset, hfound⟩ := ht.exists_set (Array.getElem?_eq_some_iff.1 hs).1
    obtain ⟨row, hstate, -⟩ := ht.exists_row hset
    obtain rfl := Option.some.inj (hs.symm.trans hstate)
    exact h.built.recognizes.actsBy hfound row
  obtain ⟨i, hi⟩ := Array.mem_iff_getElem?.1 hs
  rw [h.dfa_eq] at hi
  split at hi
  · exact hfull i s hi
  · -- a minimized state is a copy of the lowest one of its class
    obtain ⟨f, hf⟩ := Dfa.exists_isCanonical h.full_wellFormed config.strict
    obtain ⟨j, hj, rfl, hfirst⟩ := hf.exists_first (Array.getElem?_eq_some_iff.1 hi).1
    rw [hf.state hj hfirst] at hi
    obtain ⟨s', hs', rfl⟩ := Option.map_eq_some_iff.1 hi
    exact (hfull j s' hs').renumber f

/-- The actions that the rules bring, and the one that echoes. -/
def Spec.actions (spec : Spec) : Set Action :=
  {a | (∃ rule ∈ spec.rules, rule.effect = a) ∨ spec.standalone = true ∧ Build.echo = a}

theorem Generated.actsBy {spec : Spec} {config : Config} {t : MacroTable} {p : Partition}
    {nfa : Nfa} {full : Dfa} {scanner : Scanner} (g : Generated spec config t p nfa full scanner)
    {s : DfaState} (hs : s ∈ scanner.dfa.states) : s.ActsBy spec.actions := by
  have h := g.stages.actsBy hs
  refine ⟨h.final_iff, fun {a} ha => ?_, h.lookEnd_iff⟩
  obtain ⟨c, hc, rfl⟩ := h.mem ha
  obtain ⟨n, hn⟩ := List.mem_iff_getElem?.1 hc
  rcases Spec.getElem?_clauses_eq_some.1 hn with ⟨rule, hrule, rfl⟩ | ⟨-, hstandalone, rfl⟩
  · exact .inl ⟨rule, List.mem_of_getElem? hrule, clause_action.symm⟩
  · exact .inr ⟨hstandalone, rfl⟩

/-! ## Scanners -/

/-- A final state has an action of its own, with the flag that its attributes have. In the tables it
has the action of the lowest state with the same label. This one is like its own action, and it has
the same flag unless an action of some rule is like its own but for the flag. -/
theorem lookEnd_agrees_unless_shared (spec : Spec) (config : Config) (scanner : Scanner)
    (h : spec.macros.WellFormed) (hok : (generate spec config).2.result = .ok scanner) (i : Nat)
    (hi : scanner.tables.HasBit finalBit i) :
    ∃ own a j, scanner.dfa.ownAction? i = some own ∧ own ∈ spec.actions ∧
      (own.isLookahead = true ↔ scanner.tables.HasBit lookEndBit i) ∧
      scanner.tables.action? i = some a ∧ a.Alike config.strict own ∧
      scanner.tables.IsLowest i j ∧ scanner.dfa.ownAction? j = some a ∧ a ∈ spec.actions ∧
      (a.isLookahead = true ↔ scanner.tables.HasBit lookEndBit j) ∧
      ((∀ b ∈ spec.actions, b.Alike config.strict own → b.isLookahead = own.isLookahead) →
        (a.isLookahead = true ↔ scanner.tables.HasBit lookEndBit i)) := by
  obtain ⟨t, p, nfa, full, g⟩ := (generate_spec h config).of_ok hok
  have hmem : ∀ {i : Nat} {a : Action}, scanner.dfa.ownAction? i = some a → a ∈ spec.actions ∧
      (a.isLookahead = true ↔ scanner.tables.HasBit lookEndBit i) := by
    intro i a ha
    obtain ⟨s, hs, ha⟩ := Option.bind_eq_some_iff.1 ha
    have hacts := g.actsBy (Array.mem_of_getElem? hs)
    rw [g.tables_eq, Dfa.lookEndBit_iff hs]
    exact ⟨hacts.mem ha, (hacts.lookEnd_iff ha).symm⟩
  obtain ⟨own, hown⟩ : ∃ own, scanner.dfa.ownAction? i = some own := by
    rw [g.tables_eq] at hi
    obtain ⟨s, hs, hfinal⟩ := Dfa.exists_final hi
    obtain ⟨own, hown⟩ := (g.actsBy (Array.mem_of_getElem? hs)).final_iff.1 hfinal
    exact ⟨own, Option.bind_eq_some_iff.2 ⟨s, hs, hown⟩⟩
  have hlowest := scanner.dfa.exists_lowest spec.eof spec.states.size config.encoding config.strict
    hown
  rw [← g.tables_eq] at hlowest
  obtain ⟨a, j, ha, halike, hj, haction⟩ := hlowest
  obtain ⟨howned, hlookEnd⟩ := hmem hown
  obtain ⟨hkept, hlookEnd'⟩ := hmem haction
  refine ⟨own, a, j, hown, howned, hlookEnd, ha, halike, hj, haction, hkept, hlookEnd',
    fun hsame => ?_⟩
  rw [hsame a hkept halike]
  exact hlookEnd

/-- No two actions of words and digits have the same code, so the flag in the table is right. -/
theorem lookEnd_agrees_unless_shared_wordsAndDigits : wordsAndDigits.macros.WellFormed ∧
    ∃ scanner, (generate wordsAndDigits .default).2.result = .ok scanner ∧
      scanner.tables.HasBit finalBit 4 ∧
      ∃ a, scanner.tables.action? 4 = some a ∧
        (a.isLookahead = true ↔ scanner.tables.HasBit lookEndBit 4) := by
  obtain ⟨scanner, hok⟩ := exists_eq_ok
    (show (generate wordsAndDigits .default).2.result.toOption.isSome = true by decide +kernel)
  have hattributes : (generate wordsAndDigits .default).2.result.toOption.any
      (fun scanner => scanner.tables.attributes[4]? = some 13) = true := by
    decide +kernel
  rw [hok] at hattributes
  have hfinal : scanner.tables.HasBit finalBit 4 := ⟨13, of_decide_eq_true hattributes, by decide⟩
  have hmem : ∀ a ∈ wordsAndDigits.actions,
      a ∈ wordsAndDigits.rules.map Rule.effect ++ [Build.echo] := by
    rintro _ (⟨rule, hrule, rfl⟩ | ⟨-, rfl⟩)
    · exact List.mem_append_left _ (List.mem_map_of_mem hrule)
    · exact List.mem_append_right _ List.mem_cons_self
  have happart : ∀ a ∈ wordsAndDigits.rules.map Rule.effect ++ [Build.echo],
      ∀ b ∈ wordsAndDigits.rules.map Rule.effect ++ [Build.echo],
        b.code = a.code → b.isLookahead = a.isLookahead := by
    decide +kernel
  obtain ⟨own, a, j, -, hown, -, ha, -, -, -, -, -, hagrees⟩ :=
    lookEnd_agrees_unless_shared wordsAndDigits .default scanner (by decide) hok 4 hfinal
  refine ⟨by decide, scanner, hok, hfinal, a, ha, hagrees fun b hb halike => ?_⟩
  exact happart own (hmem own hown) b (hmem b hb) halike

/-- Two rules with the same code, the second one with a lookahead. -/
def sharedCode : Spec where
  macros := .empty
  rules := [.new 1 (.one (.code 97 false)) "found",
    (Rule.new 2 (.one (.code 98 false)) "found").withLookahead (.one (.code 99 false))]
  states := .initial
  eof := .empty
  standalone := false

/-- The default settings over a small alphabet. -/
def asciiMinimized : Config := { Config.default with maxCode := 127 }

/-- The match of the second rule ends in state 3. -/
theorem exists_sharedCode_scanner :
    ∃ scanner, (generate sharedCode asciiMinimized).2.result = .ok scanner ∧
      scanner.tables.HasBit finalBit 3 ∧ scanner.tables.HasBit lookEndBit 3 ∧
      scanner.tables.action? 3 = some ⟨"found", 1, false⟩ := by
  have hrun : (generate sharedCode asciiMinimized).2.result.toOption.any (fun scanner =>
      scanner.tables.attributes[3]? = some 13 ∧
        scanner.tables.action? 3 = some ⟨"found", 1, false⟩) = true := by
    decide +kernel
  obtain ⟨scanner, hok⟩ := exists_eq_ok
    (show (generate sharedCode asciiMinimized).2.result.toOption.isSome = true by decide +kernel)
  rw [hok] at hrun
  obtain ⟨hattributes, haction⟩ := of_decide_eq_true hrun
  exact ⟨scanner, hok, ⟨13, hattributes, by decide⟩, ⟨13, hattributes, by decide⟩, haction⟩

/-- The two rules share a label, so the tables give the second one the action of the first. -/
theorem sharedCode_loses_flag :
    ¬∀ (spec : Spec) (config : Config) (scanner : Scanner), spec.macros.WellFormed →
      (generate spec config).2.result = .ok scanner → ∀ i, scanner.tables.HasBit finalBit i →
        ∃ a, scanner.tables.action? i = some a ∧
          (a.isLookahead = true ↔ scanner.tables.HasBit lookEndBit i) := by
  intro h
  obtain ⟨scanner, hok, hfinal, hlookEnd, haction⟩ := exists_sharedCode_scanner
  obtain ⟨a, ha, hiff⟩ := h sharedCode asciiMinimized scanner (by decide) hok 3 hfinal
  obtain rfl := Option.some.inj (haction.symm.trans ha)
  exact absurd (hiff.2 hlookEnd) (by decide)

end ScannerGen
