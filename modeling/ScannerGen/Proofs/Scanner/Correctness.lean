import ScannerGen.Proofs.Scanner.Meaning
import ScannerGen.Proofs.Table.Labels

/-
  Scanners do what their specification means. Reading a word by the map of the classes and the
  tables is a walk through the automaton (`Generated.run_eq`), and the automaton decides about the
  clauses of the rules (`Automata.Stages.decides`).
-/

namespace ScannerGen

/-- The state that a word of codes leads to from state `i`. -/
def Scanner.run (s : Scanner) (i : Nat) : List Nat → Except Breach (Option Nat)
  | [] => .ok (some i)
  | c :: w =>
    match classAt? s.charMap c with
    | none => .error .noSuchClass
    | some k => do
      match ← s.tables.lookup i k with
      | some j => s.run j w
      | none => .ok none

/-- Of all active rules that match `w`, none has a lower priority than the one with action `a`. -/
structure Spec.IsFirst (spec : Spec) (top k : Nat) (atLineStart : Bool) (w : List Nat)
    (a : Action) : Prop where
  isMatch : spec.Matches top k atLineStart w a
  le : ∀ b, spec.Matches top k atLineStart w b → a.priority ≤ b.priority

/-- What the tables tell of a match that ends in the state is what action `a` demands. -/
structure Tables.Report (t : Tables) (strict : Bool) (state : Nat) (a : Action) : Prop where
  action : ∃ b, t.action? state = some b ∧ b.code = a.code ∧
    (strict = true → b.priority = a.priority)
  lookEnd_iff : t.HasBit lookEndBit state ↔ a.isLookahead = true

variable {spec : Spec} {config : Config} {t : MacroTable} {p : Partition} {nfa : Nfa} {full : Dfa}
  {scanner : Scanner} {i k : Nat} {atLineStart : Bool} {w : List Nat}

namespace Generated

variable (g : Generated spec config t p nfa full scanner)

include g

theorem run_eq (hi : i < scanner.dfa.size) (hw : IsText config.maxCode w) :
    scanner.run i w = .ok (scanner.dfa.walk i (w.map p.classOf)) := by
  induction w generalizing i with
  | nil => rfl
  | cons c w ih =>
    obtain ⟨hc, hw⟩ := List.forall_mem_cons.1 hw
    have hc' : c ≤ p.top := g.top_eq ▸ hc
    have hclass : p.classOf c < scanner.dfa.numClasses := by
      rw [g.stages.numClasses_eq]
      exact g.valid.classOf_lt hc'
    unfold Scanner.run
    rw [g.charMap_eq, g.valid.classAt?_eq_some hc', g.tables_eq]
    simp only [Dfa.lookup_tables hi hclass, List.map_cons, Dfa.walk]
    cases htarget : scanner.dfa.target? i (p.classOf c) with
    | none => rfl
    | some j => exact ih (g.stages.wellFormed.inRange.target_lt htarget) hw

theorem isFirst (hk : k < spec.states.size) (hw : IsText config.maxCode w) {c : Clause}
    (hc : c.IsFirst (({ spec with macros := t } : Spec).clauses p) (2 * k + atLineStart.toNat)
      (w.map p.classOf)) : spec.IsFirst config.maxCode k atLineStart w c.action where
  isMatch := (g.matches_iff hk hw).1 ⟨c, hc.mem, hc.isMatch, rfl⟩
  le b hb := by
    obtain ⟨c', hc', hmatch, rfl⟩ := (g.matches_iff hk hw).2 hb
    exact hc.le c' hc' hmatch

/-- A final state reports the action of a first rule that matches. -/
theorem report {s s' : DfaState} (hs : scanner.dfa.states[i]? = some s)
    (halike : s'.Alike config.strict s) {a : Action} (ha : s'.action? = some a)
    (hlook : s'.isLookEnd = a.isLookahead) : scanner.tables.Report config.strict i a := by
  rw [g.tables_eq]
  have hcode := halike.code
  rw [ha, Option.map_some] at hcode
  obtain ⟨b, hb, hbcode⟩ := Option.map_eq_some_iff.1 hcode
  obtain ⟨c, hc, hccode, hcprio⟩ := Dfa.exists_action hs hb
  refine ⟨⟨c, hc, hccode.trans hbcode, fun hstrict => ?_⟩, ?_⟩
  · have hprio := halike.priority hstrict
    rw [ha, hb, Option.map_some, Option.map_some, Option.some.injEq] at hprio
    exact (hcprio hstrict).trans hprio
  · rw [Dfa.lookEndBit_iff hs, halike.isLookEnd, hlook]

end Generated

/-- The state that a word leads to is final exactly if an active rule matches the word, and then it
reports the action of such a rule of lowest priority. -/
theorem generate_is_correct (spec : Spec) (config : Config) (scanner : Scanner)
    (h : spec.macros.WellFormed) (hok : (generate spec config).2.result = .ok scanner) (k : Nat)
    (hk : k < spec.states.size) (atLineStart : Bool) (w : List Nat)
    (hw : IsText config.maxCode w) :
    ∃ start state?, scanner.tables.starts[2 * k + atLineStart.toNat]? = some start ∧
      scanner.run start w = .ok state? ∧
      ((∃ state ∈ state?, scanner.tables.HasBit finalBit state) ↔
        ∃ a, spec.Matches config.maxCode k atLineStart w a) ∧
      ∀ state ∈ state?, scanner.tables.HasBit finalBit state →
        ∃ a, spec.IsFirst config.maxCode k atLineStart w a ∧
          scanner.tables.Report config.strict state a := by
  obtain ⟨t, p, nfa, full, g⟩ := (generate_spec h config).of_ok hok
  have hentry : 2 * k + atLineStart.toNat < 2 * spec.states.size := by
    have := atLineStart.toNat_le
    omega
  obtain ⟨start, hstart, hdecides⟩ := g.stages.decides hentry
  have hlt : start < scanner.dfa.size :=
    g.stages.wellFormed.inRange.2 start (Array.mem_of_getElem? hstart)
  have hstart' : scanner.tables.starts[2 * k + atLineStart.toNat]? = some start := by
    rw [g.tables_eq]
    exact hstart
  refine ⟨start, _, hstart', g.run_eq hlt hw, ?_⟩
  have hmatch : ∀ {a}, _ ↔ spec.Matches config.maxCode k atLineStart w a := g.matches_iff hk hw
  rcases hdecides (w.map p.classOf) with ⟨hwalk, hnone⟩ | ⟨j, s, s', hwalk, hs, htells, halike⟩
  · rw [hwalk]
    refine ⟨iff_of_false (by simp) ?_, by simp⟩
    intro ⟨a, ha⟩
    obtain ⟨c, hc, hcw, -⟩ := hmatch.2 ha
    exact hnone c hc hcw
  · have hbit : scanner.tables.HasBit finalBit j ↔ s'.isFinal = true := by
      rw [g.tables_eq, Dfa.finalBit_iff hs, halike.isFinal]
    rw [hwalk]
    simp only [Option.mem_some, exists_eq_left', forall_eq', hbit]
    refine ⟨?_, fun hfinal => ?_⟩
    · rw [htells.final_iff]
      constructor
      · intro ⟨c, hc, hcw⟩
        exact ⟨_, hmatch.1 ⟨c, hc, hcw, rfl⟩⟩
      · intro ⟨a, ha⟩
        obtain ⟨c, hc, hcw, -⟩ := hmatch.2 ha
        exact ⟨c, hc, hcw⟩
    · obtain ⟨c, hc, haction, hlook⟩ := htells.first hfinal
      exact ⟨c.action, g.isFirst hk hw hc, g.report hs halike haction hlook⟩

theorem generate_is_correct_wordsAndDigits : wordsAndDigits.macros.WellFormed ∧
    0 < wordsAndDigits.states.size ∧ IsText Config.default.maxCode [48, 97] ∧
    ∃ scanner, (generate wordsAndDigits .default).2.result = .ok scanner ∧
      ∃ start state?, scanner.tables.starts[2 * 0 + true.toNat]? = some start ∧
        scanner.run start [48, 97] = .ok state? ∧
        ((∃ state ∈ state?, scanner.tables.HasBit finalBit state) ↔
          ∃ a, wordsAndDigits.Matches Config.default.maxCode 0 true [48, 97] a) ∧
        ∀ state ∈ state?, scanner.tables.HasBit finalBit state →
          ∃ a, wordsAndDigits.IsFirst Config.default.maxCode 0 true [48, 97] a ∧
            scanner.tables.Report Config.default.strict state a := by
  obtain ⟨scanner, hok⟩ := exists_eq_ok
    (show (generate wordsAndDigits .default).2.result.toOption.isSome = true by decide +kernel)
  exact ⟨by decide, by decide, by decide, scanner, hok,
    generate_is_correct wordsAndDigits .default scanner (by decide) hok 0 (by decide) true [48, 97]
      (by decide)⟩

end ScannerGen
