import ScannerGen.Proofs.Scanner.Safety
import ScannerGen.Proofs.Table.Labels

/-
  Where words suffice. In a machine the ids of states, classes and labels are words of 32 bits, and
  the last one of them stands for a missing target; here they are numbers. Under a limit of less
  than `2 ^ 31` states, over an alphabet that does not use up all words, it makes no difference:
  every id on the way to a scanner and in its tables is a word (`generate_fits_words`), and the
  forms of the stages that ask first whether the machine can go on are the stages themselves
  (`Generated.WithinCapacity`).
-/

namespace ScannerGen

variable {spec : Spec} {config : Config} {t : MacroTable} {p : Partition} {nfa : Nfa} {full : Dfa}
  {scanner : Scanner}

/-- Every class has a code of its own. -/
theorem Partition.Valid.numClasses_le (hp : p.Valid) : p.numClasses ≤ p.top + 1 := by
  have hcodes : ∀ i < p.numClasses, i ∈ (List.range (p.top + 1)).map p.classOf := by
    intro i hi
    obtain ⟨c, hc, rfl⟩ := hp.exists_classOf hi
    exact List.mem_map_of_mem (List.mem_range.2 (Nat.lt_succ_of_le hc))
  have hle := le_length_of_forall_mem hcodes
  rwa [List.length_map, List.length_range] at hle

/-- The ids of states are below the one that stands for a missing target, and those of classes,
rows, columns and labels are words. -/
structure Tables.FitsWords (t : Tables) : Prop where
  numStates_le : t.numStates ≤ lastWord
  numClasses_le : t.numClasses ≤ lastWord
  numRows_le : t.numRows ≤ t.numStates
  numCols_le : t.numCols ≤ t.numClasses
  label_le : ∀ n ∈ t.labels, n ≤ lastWord

theorem Labels.le_length {strict : Bool} {entries : List (Option Action)} {labels : List Nat}
    {actions : Array Action} (h : Labels strict entries labels actions) :
    ∀ n ∈ labels, n ≤ entries.length := by
  intro n hn
  cases n with
  | zero => exact Nat.zero_le _
  | succ m =>
    have hle : m + 1 ≤ (labels.map (· - 1)).length := by
      refine le_length_of_forall_mem fun i hi => List.mem_map.2 ⟨i + 1, ?_, Nat.add_sub_cancel ..⟩
      exact (h.mem_iff i).2 (Nat.lt_of_lt_of_le hi ((h.mem_iff m).1 hn))
    rwa [List.length_map, h.length_eq] at hle

theorem Dfa.fitsWords_tables {d : Dfa} {eof : EofActions} {numLex : Nat} {encoding : Encoding}
    {strict : Bool} (hclasses : d.numClasses ≤ lastWord) (hstates : d.size + numLex ≤ lastWord) :
    (d.tables eof numLex encoding strict).FitsWords where
  numStates_le := Nat.le_trans (Nat.le_add_right ..) hstates
  numClasses_le := hclasses
  numRows_le := by
    have hle := (ofKeys_foldedRows d).size_leaders_le
    rwa [List.length_map, Array.length_toList] at hle
  numCols_le := by
    have hle := (ofKeys_foldedColumns d).size_leaders_le
    rwa [List.length_range] at hle
  label_le n hn := by
    have hle := (labels_tables d eof numLex encoding strict).le_length n hn
    rw [length_entries] at hle
    exact Nat.le_trans hle hstates

namespace Generated

variable (g : Generated spec config t p nfa full scanner)
include g

theorem size_dfa_le : scanner.dfa.size ≤ config.maxStates := by
  have hdfa : scanner.dfa = if config.skipMinimization then full else full.minimize config.strict :=
    g.stages.dfa_eq
  rw [hdfa]
  split
  · exact g.stages.size_le
  · obtain ⟨f, hf⟩ := Dfa.exists_isQuotient g.stages.full_wellFormed config.strict
    exact Nat.le_trans hf.size_le g.stages.size_le

theorem numLex_le : 2 * spec.states.size ≤ config.maxStates := by
  have hentries := g.stages.built.recognizes.entries_le
  rw [g.stages.built.numLex_eq] at hentries
  exact Nat.le_trans hentries g.stages.built.size_le

theorem numClasses_le (hcode : config.maxCode < lastWord) : p.numClasses ≤ lastWord := by
  have hle := g.valid.numClasses_le
  rw [g.top_eq] at hle
  exact Nat.le_trans hle hcode

end Generated

/-- The machine is never asked for more than it holds: the estimate for the rules is a count, the
rows of the automaton and the maps of the tables can be stored, and no id is cut off. -/
structure Generated.WithinCapacity (spec : Spec) (config : Config) (t : MacroTable) (nfa : Nfa)
    (scanner : Scanner) : Prop where
  estimate : estimateStates? t spec.rules spec.states.size =
    .ok (estimateStates t spec.rules spec.states.size)
  determinize : nfa.determinize? config.maxStates = nfa.determinize config.maxStates
  tables : scanner.dfa.tables? spec.eof spec.states.size config.encoding config.strict =
    .ok scanner.tables

theorem Generated.withinCapacity (g : Generated spec config t p nfa full scanner)
    (hcode : config.maxCode < lastWord) (hlimit : config.maxStates ≤ lastWord) :
    WithinCapacity spec config t nfa scanner where
  estimate := by
    have hlex := g.numLex_le
    unfold estimateStates?
    rw [if_pos]
    unfold lastWord at hlimit
    unfold maxWord
    omega
  determinize := by
    have hlex := g.numLex_le
    have hclasses := g.numClasses_le hcode
    rw [← g.stages.built.numLex_eq] at hlex
    have hfits : fitsMemory cellBytes nfa.numClasses = true := by
      rw [g.stages.built.numClasses_eq]
      exact fitsMemory_cells hclasses
    have hcount : ¬maxWord < 2 * nfa.numLex :=
      Nat.not_lt.2 (Nat.le_trans (Nat.le_trans hlex hlimit) (by decide))
    rw [Nfa.determinize?, if_neg hcount, hfits, Bool.not_true, Bool.and_false,
      if_neg Bool.false_ne_true]
  tables := by
    have hlex : spec.states.size ≤ lastWord := by
      have := g.numLex_le
      omega
    rw [g.tables_eq]
    refine Dfa.tables?_eq_ok ?_ (fitsMemory_cells hlex) spec.eof config.encoding config.strict
    rw [g.stages.numClasses_eq]
    exact g.numClasses_le hcode

/-- Under a limit that leaves room for labels, everything that identifies a state, a class or an
action of a scanner is a word, and no stage fails for lack of room. -/
theorem generate_fits_words (h : spec.macros.WellFormed) (hcode : config.maxCode < lastWord)
    (hlimit : 2 * config.maxStates ≤ lastWord)
    (hok : (generate spec config).2.result = .ok scanner) :
    scanner.tables.FitsWords ∧ scanner.stats.numNfaStates ≤ lastWord ∧
      scanner.stats.numDfaStates ≤ lastWord ∧
      ∃ t p nfa full, Generated spec config t p nfa full scanner ∧
        Generated.WithinCapacity spec config t nfa scanner := by
  obtain ⟨t, p, nfa, full, g⟩ := (generate_spec h config).of_ok hok
  have hwf := g.wellFormed
  have hmax : config.maxStates ≤ lastWord := by omega
  refine ⟨?_, Nat.le_trans hwf.numNfaStates_le hmax, Nat.le_trans hwf.numDfaStates_le hmax,
    t, p, nfa, full, g, g.withinCapacity hcode hmax⟩
  rw [g.tables_eq]
  refine Dfa.fitsWords_tables ?_ ?_
  · rw [g.stages.numClasses_eq]
    exact g.numClasses_le hcode
  · have := g.size_dfa_le
    have := g.numLex_le
    omega

end ScannerGen
