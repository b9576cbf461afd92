import ScannerGen.Alphabet.CaseMap
import ScannerGen.Alphabet.CodeSet

/-
  Sets without regard to case: `caseless` adds the counterparts of every member. Only codes with a
  counterpart are looked at, so the size of the set does not matter.
-/

namespace ScannerGen

theorem CaseRun.move?_eq_some {run : CaseRun} {c d : Nat} : run.move? c = some d ↔
    (run.first ≤ c ∧ c ≤ run.last ∧ (c - run.first) % run.step = 0) ∧
      d = run.image + (c - run.first) := by
  unfold move?
  split
  · next h =>
    simp only [Bool.and_eq_true, decide_eq_true_eq, beq_iff_eq, and_assoc] at h
    rw [Option.some.injEq, and_iff_right h, eq_comm]
  · next h =>
    simp only [Bool.and_eq_true, decide_eq_true_eq, beq_iff_eq, and_assoc] at h
    simp [h]

theorem CaseRun.mem_codes {run : CaseRun} {c d : Nat} (h : run.move? c = some d) :
    c ∈ run.codes := by
  obtain ⟨⟨hfirst, hlast, hstep⟩, -⟩ := move?_eq_some.1 h
  refine List.mem_map.2 ⟨(c - run.first) / run.step, ?_, ?_⟩
  · rw [List.mem_range, Nat.lt_succ_iff]
    exact Nat.div_le_div_right (by omega)
  · rw [Nat.mul_div_cancel' (Nat.dvd_of_mod_eq_zero hstep)]
    omega

/-- Counterparts come from the runs. -/
theorem exists_run_of_mem_caseVariants {c d : Nat} (h : d ∈ caseVariants c) :
    ∃ run ∈ lowerRuns ++ upperRuns, run.move? c = some d := by
  simp only [caseVariants, lowerCase?, upperCase?, List.mem_append, Option.mem_toList] at h
  rcases h with h | h
  · obtain ⟨run, hr, hc⟩ := List.exists_of_findSome?_eq_some h
    exact ⟨run, List.mem_append_left _ hr, hc⟩
  · obtain ⟨run, hr, hc⟩ := List.exists_of_findSome?_eq_some h
    exact ⟨run, List.mem_append_right _ hr, hc⟩

/-- A code with a counterpart is among the cased codes. -/
theorem mem_casedCodes {c d : Nat} (h : d ∈ caseVariants c) : c ∈ casedCodes := by
  obtain ⟨run, hrun, hc⟩ := exists_run_of_mem_caseVariants h
  rw [casedCodes, List.mem_flatMap]
  exact ⟨run, hrun, CaseRun.mem_codes hc⟩

/-- The set together with the case variants of its members. -/
def CodeSet.caseless (s : CodeSet) : CodeSet :=
  (casedCodes.filter s.contains).foldl (fun acc c => (caseVariants c).foldl insertCode acc) s

/-- The set as it is, or without regard to case. -/
def CodeSet.withCase (s : CodeSet) (caseless : Bool) : CodeSet := if caseless then s.caseless else s

end ScannerGen
