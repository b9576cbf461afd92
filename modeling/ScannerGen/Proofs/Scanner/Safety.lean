import ScannerGen.Proofs.Generate
import ScannerGen.Proofs.Table.Folding

/-
  Generation is safe. No operation on the way is asked for what it is not made for, tables that
  contradict each other are met only where a rule lists a lexical state that does not exist, and
  all that a scanner refers to is there.
-/

namespace ScannerGen

/-- Every automaton that is made on the way has the states and classes that it refers to. -/
structure StagesInRange (spec : Spec) (p : Partition) (limit : Nat) : Prop where
  nfa : ∀ nfa, Nfa.ofSpec spec p limit = .ok nfa → nfa.InRange ∧ 2 * nfa.numLex ≤ nfa.size
  full : ∀ nfa full, Nfa.ofSpec spec p limit = .ok nfa → nfa.determinize limit = .ok full →
    full.WellFormed

/-- The automata keep to the limit, and all that the tables refer to is there. -/
structure Scanner.WellFormed (limit : Nat) (s : Scanner) : Prop where
  numNfaStates_le : s.stats.numNfaStates ≤ limit
  numDfaStates_le : s.stats.numDfaStates ≤ limit
  dfa : s.dfa.WellFormed
  tables : s.tables.WellFormed

variable {spec : Spec} {p : Partition} {config : Config} {t : MacroTable} {nfa : Nfa} {full : Dfa}
  {scanner : Scanner} {limit : Nat} {e : Failure}

theorem stagesInRange (spec : Spec) (hp : p.Valid)
    (hexprs : ∀ r ∈ spec.exprs, Build.Buildable p spec.macros r) (limit : Nat) :
    StagesInRange spec p limit := by
  have hnfa : ∀ nfa, Nfa.ofSpec spec p limit = .ok nfa →
      nfa.InRange ∧ 2 * nfa.numLex ≤ nfa.size := by
    intro nfa hok
    have hr := ((Nfa.ofSpec_spec hp hexprs).of_ok hok).recognizes
    exact ⟨hr.inRange, hr.entries_le⟩
  refine ⟨hnfa, fun nfa full hok hfull => ?_⟩
  obtain ⟨hr, hentries⟩ := hnfa nfa hok
  obtain ⟨-, t, ht⟩ := (hr.determinize_spec hentries).of_ok hfull
  exact ht.wellFormed hentries

theorem Generated.wellFormed (g : Generated spec config t p nfa full scanner) :
    scanner.WellFormed config.maxStates where
  numNfaStates_le := Nat.le_trans (Nat.le_of_eq g.stages.numNfaStates_eq) g.stages.built.size_le
  numDfaStates_le := Nat.le_trans (Nat.le_of_eq g.stages.numDfaStates_eq) g.stages.size_le
  dfa := g.stages.wellFormed
  tables := by
    rw [g.tables_eq]
    exact g.stages.wellFormed.inRange.wellFormed_tables ..

theorem Rejected.not_breach (h : Rejected spec limit e) (b : Breach) : e ≠ .breach b := by
  rintro rfl
  rcases h with ⟨e', he, -⟩ | he | ⟨rule, -, k, -, -, he⟩ <;> cases he

/-- Of contradicting tables only a lexical state that does not exist is a reason. -/
theorem Rejected.inconsistent {cause : Inconsistency}
    (h : Rejected spec limit (.error (.inconsistent cause))) :
    ∃ rule ∈ spec.rules, ∃ k ∈ rule.states, spec.states.size ≤ k ∧
      cause = .noSuchLexState rule.line k spec.states.size := by
  rcases h with ⟨e', he, hm | ⟨line, hline⟩⟩ | he | ⟨rule, hrule, k, hk, hle, he⟩
  · obtain rfl := Failure.error.inj he
    cases hm
  · obtain rfl := Failure.error.inj he
    cases hline
  · cases he
  · exact ⟨rule, hrule, k, hk, hle, GenerateError.inconsistent.inj (Failure.error.inj he)⟩

/-- Generation never breaks a precondition of its own steps: it fails over contradicting tables only
if a rule lists a lexical state that does not exist, and its scanners are well formed. -/
theorem generate_is_safe (spec : Spec) (config : Config) (h : spec.macros.WellFormed) :
    (∀ b, (generate spec config).2.result ≠ .error (.breach b)) ∧
      (∀ cause, (generate spec config).2.result = .error (.error (.inconsistent cause)) →
        ∃ rule ∈ spec.rules, ∃ k ∈ rule.states, spec.states.size ≤ k ∧
          cause = .noSuchLexState rule.line k spec.states.size) ∧
      (∀ r ∈ spec.exprs, ∀ s, spec.macros.Occurs (.one (.noneOf s)) r →
        s.complement? config.maxCode = .ok (s.complement config.maxCode)) ∧
      ((spec.prepare config.maxCode).result = .ok () →
        ∃ p, Partition.ofRules? spec.rules (spec.prepare config.maxCode).spec.macros
            config.maxCode = .ok p ∧
          StagesInRange (spec.prepare config.maxCode).spec p config.maxStates) ∧
      ∀ scanner, (generate spec config).2.result = .ok scanner →
        scanner.WellFormed config.maxStates := by
  have hgen := generate_spec h config
  refine ⟨fun b hb => ?_, fun cause hcause => ?_, fun _ _ s _ => ?_, fun hok => ?_,
    fun scanner hok => ?_⟩
  · exact (hgen.of_error hb).not_breach b rfl
  · exact (hgen.of_error hcause).inconsistent
  · exact s.complement?_eq_ok config.maxCode
  · obtain ⟨t, p, ht, hp, hready, hvalid, -, hl⟩ := Spec.exists_prepared h hok
    rw [ht]
    refine ⟨p, hp, stagesInRange { spec with macros := t } hvalid (fun r hr => ?_) _⟩
    exact ⟨hready.grounded hr, hl r hr⟩
  · obtain ⟨t, p, nfa, full, g⟩ := hgen.of_ok hok
    exact g.wellFormed

theorem generate_is_safe_wordsAndDigits : wordsAndDigits.macros.WellFormed ∧
    (∀ b, (generate wordsAndDigits .default).2.result ≠ .error (.breach b)) ∧
    (∀ cause, (generate wordsAndDigits .default).2.result ≠ .error (.error (.inconsistent cause))) ∧
    ∃ scanner, (generate wordsAndDigits .default).2.result = .ok scanner ∧
      scanner.WellFormed Config.default.maxStates := by
  have h : wordsAndDigits.macros.WellFormed := by decide
  obtain ⟨hbreach, hinconsistent, -, -, hok⟩ := generate_is_safe wordsAndDigits .default h
  obtain ⟨scanner, hscanner⟩ := exists_eq_ok
    (show (generate wordsAndDigits .default).2.result.toOption.isSome = true by decide +kernel)
  refine ⟨h, hbreach, fun cause hcause => ?_, scanner, hscanner, hok scanner hscanner⟩
  obtain ⟨rule, hrule, k, hk, -⟩ := hinconsistent cause hcause
  have hstates : ∀ rule ∈ wordsAndDigits.rules, rule.states = [] := by decide
  rw [hstates rule hrule] at hk
  cases hk

end ScannerGen
