import ScannerGen.Generate
import ScannerGen.Proofs.Dfa.Decision
import ScannerGen.Proofs.Nfa.Rules

/-
  Generation, stage by stage. It goes through all its stages, each with what its results have been
  proved to be (`generate_spec`), or fails for one of a few reasons (`Rejected`).
-/

namespace ScannerGen

variable {spec : Spec} {p : Partition} {config : Config} {nfa : Nfa} {full : Dfa} {a : Automata}
  {i : Nat}

/-! ## Automata -/

namespace Automata

/-- The automata from which `a` was made. -/
structure Stages (spec : Spec) (p : Partition) (config : Config) (nfa : Nfa) (full : Dfa)
    (a : Automata) : Prop where
  built : Nfa.Built config.maxStates p.numClasses spec.states.size (spec.clauses p) nfa
  determinized : ∃ t, nfa.IsDeterminization t full
  size_le : full.size ≤ config.maxStates
  dfa_eq : a.dfa = if config.skipMinimization then full else full.minimize config.strict
  numNfaStates_eq : a.numNfaStates = nfa.size
  numDfaStates_eq : a.numDfaStates = full.size

theorem Stages.full_wellFormed (h : Stages spec p config nfa full a) : full.WellFormed := by
  obtain ⟨t, ht⟩ := h.determinized
  exact ht.wellFormed h.built.recognizes.entries_le

/-- The states of the automaton before minimization are mapped to those of the final one. -/
theorem Stages.exists_commutes (h : Stages spec p config nfa full a) :
    ∃ f, Dfa.Commutes config.strict full a.dfa f ∧ a.dfa.WellFormed ∧
      a.dfa.starts = full.starts.map f := by
  have hfull := h.full_wellFormed
  rw [h.dfa_eq]
  split
  · exact ⟨id, .refl _ _, hfull, Array.map_id_fun ▸ rfl⟩
  · obtain ⟨f, hf⟩ := Dfa.exists_isQuotient hfull config.strict
    exact ⟨f, hf.toCommutes, hf.wellFormed, hf.starts_eq⟩

theorem Stages.wellFormed (h : Stages spec p config nfa full a) : a.dfa.WellFormed := by
  obtain ⟨-, -, hwf, -⟩ := h.exists_commutes
  exact hwf

theorem Stages.numClasses_eq (h : Stages spec p config nfa full a) :
    a.dfa.numClasses = p.numClasses := by
  obtain ⟨f, hf, -, -⟩ := h.exists_commutes
  obtain ⟨t, ht⟩ := h.determinized
  rw [hf.numClasses, ht.numClasses_eq, h.built.numClasses_eq]

/-- The final automaton decides about the clauses of the rules. -/
theorem Stages.decides (h : Stages spec p config nfa full a) (hi : i < 2 * spec.states.size) :
    a.dfa.Decides config.strict (spec.clauses p) i := by
  obtain ⟨f, hf, -, hstarts⟩ := h.exists_commutes
  obtain ⟨t, ht⟩ := h.determinized
  rw [← h.built.numLex_eq] at hi
  exact (ht.decides h.built.recognizes hi).commutes hf h.full_wellFormed.inRange hstarts

theorem ofSpec_spec (hp : p.Valid)
    (hexprs : ∀ r ∈ spec.exprs, Build.Buildable p spec.macros r) :
    Yields (ofSpec spec p config) (fun a => ∃ nfa full, Stages spec p config nfa full a)
      (Nfa.Refused config.maxStates spec) := by
  unfold ofSpec
  refine yields_bind ((Nfa.ofSpec_spec hp hexprs).mono (fun nfa hnfa => ?_) fun _ he => he)
  have hr := hnfa.recognizes
  refine yields_bind ((hr.inRange.determinize_spec hr.entries_le).mono ?_ fun _ he => .inl he.1)
  intro full ⟨hsize, t, ht⟩
  have hwf := ht.wellFormed hr.entries_le
  have hstages : ∀ dfa,
      dfa = (if config.skipMinimization then full else full.minimize config.strict) →
        Stages spec p config nfa full ⟨dfa, full.size, nfa.size⟩ :=
    fun dfa hdfa => ⟨hnfa, ⟨t, ht⟩, hsize, hdfa, rfl, rfl⟩
  dsimp only
  split
  · next hskip => exact ⟨nfa, full, hstages full (if_pos hskip).symm⟩
  · next hskip =>
    rw [Dfa.minimize?_eq_ok hwf.inRange]
    exact ⟨nfa, full, hstages _ (if_neg hskip).symm⟩

end Automata

/-! ## Scanners -/

/-- Words of small letters, and digits before such a letter; other codes are echoed. -/
def wordsAndDigits : Spec where
  macros := MacroTable.empty.define "letter" (.leaf (.one (.oneOf .smallLetters)))
  rules := [.new 1 (.plus (.use "letter")) "word",
    (Rule.new 2 (.leaf (.one (.oneOf .digits))) "digit").withLookahead (.use "letter")]
  states := .initial
  eof := .empty
  standalone := true

/-- The stages that a scanner was generated in, over the expanded macros `t`. -/
structure Generated (spec : Spec) (config : Config) (t : MacroTable) (p : Partition) (nfa : Nfa)
    (full : Dfa) (scanner : Scanner) : Prop where
  ready : Ready spec.macros t spec.exprs
  valid : p.Valid
  top_eq : p.top = config.maxCode
  resolves : ∀ r ∈ spec.exprs, ∀ l, t.Occurs l r → p.FineFor l
  stages : Automata.Stages { spec with macros := t } p config nfa full
    ⟨scanner.dfa, scanner.stats.numDfaStates, scanner.stats.numNfaStates⟩
  tables_eq : scanner.tables =
    scanner.dfa.tables spec.eof spec.states.size config.encoding config.strict
  charMap_eq : scanner.charMap = p.intervals

/-- After a preparation that succeeds, the macros are ready and there is a valid partition that is
fine for all leaves that occur. -/
theorem Spec.exists_prepared (h : spec.macros.WellFormed) {top : Nat}
    (hok : (spec.prepare top).result = .ok ()) :
    ∃ t p, (spec.prepare top).spec = { spec with macros := t } ∧
      Partition.ofRules? spec.rules t top = .ok p ∧ Ready spec.macros t spec.exprs ∧ p.Valid ∧
      p.top = top ∧ ∀ r ∈ spec.exprs, ∀ l, t.Occurs l r → p.FineFor l := by
  have hprepare := prepare_spec h top
  rw [hok] at hprepare
  obtain ⟨t, ht, hready⟩ := hprepare
  obtain ⟨hrules, hvalid, htop, hfine⟩ := Partition.ofRules_spec spec.rules t top
  exact ⟨t, _, ht, hrules, hready, hvalid, htop, hfine⟩

/-- Why nothing is generated: macros are missing or circular, a lookahead is ambiguous, or the
automata cannot be built. -/
def Rejected (spec : Spec) (limit : Nat) (e : Failure) : Prop :=
  (∃ e', e = .error e' ∧ (e'.OfMacros ∨ ∃ line, e' = .ambiguousLookahead line)) ∨
    Nfa.Refused limit spec e

theorem generateWith_spec {t : MacroTable} (hr : Ready spec.macros t spec.exprs) (hp : p.Valid)
    (htop : p.top = config.maxCode)
    (hl : ∀ r ∈ spec.exprs, ∀ l, t.Occurs l r → p.FineFor l) :
    Yields (generateWith { spec with macros := t } p config).result
      (fun scanner => ∃ nfa full, Generated spec config t p nfa full scanner)
      (Nfa.Refused config.maxStates spec) := by
  have h : Yields (Automata.ofSpec { spec with macros := t } p config) _ _ :=
    Automata.ofSpec_spec hp fun r hr' => ⟨hr.grounded hr', hl r hr'⟩
  unfold generateWith
  cases ha : Automata.ofSpec { spec with macros := t } p config with
  | error e => exact h.of_error ha
  | ok a =>
    obtain ⟨nfa, full, hstages⟩ := h.of_ok ha
    exact ⟨nfa, full, hr, hp, htop, hl, hstages, rfl, rfl⟩

/-- A generation goes through all its stages, or is rejected. -/
theorem generate_spec (h : spec.macros.WellFormed) (config : Config) :
    Yields (generate spec config).2.result
      (fun scanner => ∃ t p nfa full, Generated spec config t p nfa full scanner)
      (Rejected spec config.maxStates) := by
  have hprepare := prepare_spec h config.maxCode
  unfold generate
  cases hresult : (spec.prepare config.maxCode).result with
  | error e =>
    rw [hresult] at hprepare
    simp only [hresult]
    exact .inl ⟨e, rfl, hprepare⟩
  | ok =>
    obtain ⟨t, p, ht, hp, hready, hvalid, htop, hl⟩ := Spec.exists_prepared h hresult
    simp only [hresult, ht, hp]
    refine (generateWith_spec hready hvalid htop hl).mono ?_ fun _ he => .inr he
    exact fun _ ⟨nfa, full, hgen⟩ => ⟨t, p, nfa, full, hgen⟩

end ScannerGen
