import ScannerGen.Proofs.Alphabet.CodeSet

/-
  How far `caseless` is from a closure. The case variants of a code lead back to the code or to each
  other, except for 27 codes whose only variant has another one besides (`mem_strays_iff`). One
  pass misses that other variant. A second pass adds it and closes the set
  (`caseless_closes_in_two_passes`).
-/

namespace ScannerGen

/-- Codes with the variant of their variant that they do not have themselves. -/
def strays : List (Nat × Nat) := [
  (0xB5, 0x3BC), (0x131, 0x69), (0x17F, 0x73), (0x345, 0x3B9), (0x3C2, 0x3C3), (0x3D0, 0x3B2),
  (0x3D1, 0x3B8), (0x3D5, 0x3C6), (0x3D6, 0x3C0), (0x3F0, 0x3BA), (0x3F1, 0x3C1), (0x3F4, 0x398),
  (0x3F5, 0x3B5), (0x1C80, 0x432), (0x1C81, 0x434), (0x1C82, 0x43E), (0x1C83, 0x441),
  (0x1C84, 0x442), (0x1C85, 0x442), (0x1C86, 0x44A), (0x1C87, 0x463), (0x1C88, 0xA64B),
  (0x1E9B, 0x1E61), (0x1FBE, 0x3B9), (0x2126, 0x3A9), (0x212A, 0x4B), (0x212B, 0xC5)]

/-- What is one step on from a variant of `c` needs no second pass, or is that of a stray. -/
def Settled (c x : Nat) : Prop := x = c ∨ (c, x) ∈ strays ∨ x ∈ caseVariants c

instance (c x : Nat) : Decidable (Settled c x) := inferInstanceAs (Decidable (_ ∨ _))

/-- A check that every step by `next` after one by `run` is settled. -/
def CaseRun.settles (run next : CaseRun) : Bool :=
  next.last < run.image || run.image + (run.last - run.first) < next.first ||
    run.image + next.image == run.first + next.first ||
    run.codes.all fun c => (next.move? (run.image + (c - run.first))).all fun x => Settled c x

theorem CaseRun.settled_of_settles {run next : CaseRun} (h : run.settles next = true)
    {c d x : Nat} (hd : run.move? c = some d) (hx : next.move? d = some x) : Settled c x := by
  have hc := mem_codes hd
  obtain ⟨⟨hfirst, hlast, -⟩, rfl⟩ := move?_eq_some.1 hd
  obtain ⟨⟨hfirst', hlast', -⟩, hx'⟩ := move?_eq_some.1 hx
  unfold settles at h
  simp only [Bool.or_eq_true, decide_eq_true_eq, beq_iff_eq] at h
  rcases h with ((h | h) | h) | h
  · omega
  · omega
  · -- the second run takes back what the first one does
    exact .inl (by omega)
  · have := List.all_eq_true.1 h c hc
    rw [hx] at this
    exact of_decide_eq_true this

/-- The check for all pairs of runs, of which those that are more than a few codes apart are not
looked at: the codes from `lo` on are halved `n` times, and each half takes the runs that lead
into it and those that lead on from it. -/
def CaseRun.allSettle : Nat → Nat → List CaseRun → List CaseRun → Bool
  | 0, _, runs, nexts => runs.all fun run => nexts.all run.settles
  | n + 1, lo, runs, nexts =>
    let mid := lo + 32 <<< n
    runs.isEmpty || nexts.isEmpty ||
      allSettle n lo (runs.filter (·.image < mid)) (nexts.filter (·.first < mid)) &&
        allSettle n mid (runs.filter fun run => mid ≤ run.image + (run.last - run.first))
          (nexts.filter (mid ≤ ·.last))

theorem CaseRun.settled_of_allSettle {n lo : Nat} {runs nexts : List CaseRun}
    (h : allSettle n lo runs nexts = true) {run next : CaseRun} (hrun : run ∈ runs)
    (hnext : next ∈ nexts) {c d x : Nat} (hd : run.move? c = some d)
    (hx : next.move? d = some x) : Settled c x := by
  induction n generalizing lo runs nexts with
  | zero =>
    unfold allSettle at h
    exact settled_of_settles (List.all_eq_true.1 (List.all_eq_true.1 h run hrun) next hnext) hd hx
  | succ n ih =>
    have hd' := move?_eq_some.1 hd
    have hx' := move?_eq_some.1 hx
    unfold allSettle at h
    rw [Bool.or_eq_true, Bool.or_eq_true, Bool.and_eq_true] at h
    rcases h with (h | h) | ⟨hleft, hright⟩
    · rw [List.isEmpty_iff.1 h] at hrun
      cases hrun
    · rw [List.isEmpty_iff.1 h] at hnext
      cases hnext
    · by_cases hmid : d < lo + 32 <<< n
      · refine ih hleft (List.mem_filter.2 ⟨hrun, ?_⟩) (List.mem_filter.2 ⟨hnext, ?_⟩)
        · exact decide_eq_true (by omega)
        · exact decide_eq_true (by omega)
      · refine ih hright (List.mem_filter.2 ⟨hrun, ?_⟩) (List.mem_filter.2 ⟨hnext, ?_⟩)
        · exact decide_eq_true (by omega)
        · exact decide_eq_true (by omega)

theorem settled_of_mem_caseVariants {c d x : Nat} (hd : d ∈ caseVariants c)
    (hx : x ∈ caseVariants d) : Settled c x := by
  have hall : CaseRun.allSettle 12 0 (lowerRuns ++ upperRuns) (lowerRuns ++ upperRuns) = true := by
    decide +kernel
  obtain ⟨run, hrun, hd⟩ := exists_run_of_mem_caseVariants hd
  obtain ⟨next, hnext, hx⟩ := exists_run_of_mem_caseVariants hx
  exact CaseRun.settled_of_allSettle hall hrun hnext hd hx

/-- What a stray misses is a variant of its variant and has itself no others. -/
theorem strays_spec : ∀ p ∈ strays, p.2 ∉ p.1 :: caseVariants p.1 ∧
    (∃ d ∈ caseVariants p.1, p.2 ∈ caseVariants d) ∧
      ∀ y ∈ caseVariants p.2, y ∈ caseVariants p.1 := by
  decide +kernel

theorem mem_strays_iff {c x : Nat} : (c, x) ∈ strays ↔
    x ∉ c :: caseVariants c ∧ ∃ d ∈ caseVariants c, x ∈ caseVariants d := by
  constructor
  · intro h
    obtain ⟨hnot, hstep, -⟩ := strays_spec (c, x) h
    exact ⟨hnot, hstep⟩
  · rintro ⟨hnot, d, hd, hx⟩
    rw [List.mem_cons, not_or] at hnot
    rcases settled_of_mem_caseVariants hd hx with h | h | h
    · exact absurd h hnot.1
    · exact h
    · exact absurd h hnot.2

namespace CodeSet

variable {s t : CodeSet} {c x : Nat}

/-- No case variant leads out of the set. -/
def CaseClosed (s : CodeSet) : Prop := ∀ c ∈ s, ∀ d ∈ caseVariants c, d ∈ s

/-- `t` is the least set around `s` that is closed. -/
structure IsCaseClosure (s t : CodeSet) : Prop where
  subset : ∀ c ∈ s, c ∈ t
  closed : t.CaseClosed
  least : ∀ u : CodeSet, u.CaseClosed → (∀ c ∈ s, c ∈ u) → ∀ c ∈ t, c ∈ u

theorem caseless_eq_self_iff : s.caseless = s ↔ s.CaseClosed := by
  constructor
  · intro h c hc d hd
    rw [← h]
    exact mem_caseless.2 (.inr ⟨c, hc, hd⟩)
  · intro h
    refine ext fun d => mem_caseless.trans (or_iff_left_of_imp ?_)
    rintro ⟨c, hc, hd⟩
    exact h c hc d hd

theorem caseless_subset (ht : t.CaseClosed) (h : ∀ c ∈ s, c ∈ t) :
    ∀ c ∈ s.caseless, c ∈ t := by
  intro d hd
  rcases mem_caseless.1 hd with hd | ⟨c, hc, hd⟩
  · exact h d hd
  · exact ht c (h c hc) d hd

/-- The second pass adds what the strays miss. -/
theorem mem_caseless_caseless :
    x ∈ s.caseless.caseless ↔ x ∈ s.caseless ∨ ∃ c ∈ s, (c, x) ∈ strays := by
  rw [mem_caseless]
  constructor
  · rintro (hx | ⟨d, hd, hx⟩)
    · exact .inl hx
    · rcases mem_caseless.1 hd with hd | ⟨c, hc, hd⟩
      · exact .inl (mem_caseless.2 (.inr ⟨d, hd, hx⟩))
      · rcases settled_of_mem_caseVariants hd hx with rfl | h | h
        · exact .inl (mem_caseless.2 (.inl hc))
        · exact .inr ⟨c, hc, h⟩
        · exact .inl (mem_caseless.2 (.inr ⟨c, hc, h⟩))
  · rintro (hx | ⟨c, hc, hx⟩)
    · exact .inl hx
    · obtain ⟨-, d, hd, hx⟩ := mem_strays_iff.1 hx
      exact .inr ⟨d, mem_caseless.2 (.inr ⟨c, hc, hd⟩), hx⟩

theorem caseClosed_caseless_caseless :
    s.caseless.caseless.CaseClosed := by
  intro x hx y hy
  rw [mem_caseless]
  rcases mem_caseless_caseless.1 hx with hx | ⟨c, hc, hx⟩
  · exact .inr ⟨x, hx, hy⟩
  · exact .inl (mem_caseless.2 (.inr ⟨c, hc, (strays_spec (c, x) hx).2.2 y hy⟩))

theorem isCaseClosure (s : CodeSet) : IsCaseClosure s s.caseless.caseless where
  subset _ hc := mem_caseless.2 (.inl (mem_caseless.2 (.inl hc)))
  closed := caseClosed_caseless_caseless
  least _ hu h := caseless_subset hu (caseless_subset hu h)

/-- Two passes close a set. One does exactly if the set has, for every stray in it, also what the
stray misses, or another code with that variant. -/
theorem caseless_closes_in_two_passes (s : CodeSet) :
    IsCaseClosure s s.caseless.caseless ∧
      (∀ x, x ∈ s.caseless.caseless ↔ x ∈ s.caseless ∨ ∃ c ∈ s, (c, x) ∈ strays) ∧
      (s.caseless.caseless = s.caseless ↔ s.caseless.CaseClosed) ∧
      (s.caseless.CaseClosed ↔ ∀ c ∈ s, ∀ x, (c, x) ∈ strays → x ∈ s.caseless) := by
  refine ⟨isCaseClosure s, fun x => mem_caseless_caseless, caseless_eq_self_iff, ?_⟩
  rw [← caseless_eq_self_iff]
  constructor
  · intro h c hc x hx
    rw [← h]
    exact mem_caseless_caseless.2 (.inr ⟨c, hc, hx⟩)
  · intro h
    refine ext fun x => ?_
    refine mem_caseless_caseless.trans (or_iff_left_of_imp ?_)
    rintro ⟨c, hc, hx⟩
    exact h c hc x hx

/-- The Kelvin sign and the long s. -/
def kelvinLongS : CodeSet := .ofList [.single 0x17F, .single 0x212A]

theorem caseless_closes_in_two_passes_kelvinLongS :
    IsCaseClosure kelvinLongS kelvinLongS.caseless.caseless ∧
    (∀ x, x ∈ kelvinLongS.caseless.caseless ↔
      x ∈ kelvinLongS.caseless ∨ ∃ c ∈ kelvinLongS, (c, x) ∈ strays) ∧
    (0x4B ∈ kelvinLongS.caseless.caseless ∧ 0x73 ∈ kelvinLongS.caseless.caseless) := by
  obtain ⟨hclosure, hmem, -, -⟩ := caseless_closes_in_two_passes kelvinLongS
  refine ⟨hclosure, hmem, (hmem 0x4B).2 (.inr ⟨0x212A, ?_, by decide⟩),
    (hmem 0x73).2 (.inr ⟨0x17F, ?_, by decide⟩)⟩
  · exact contains_iff.1 (by decide)
  · exact contains_iff.1 (by decide)

/-- The variant of the Kelvin sign is a small k, and the capital one is missing. -/
theorem caseless_misses_capital :
    (single 0x212A).caseless.caseless ≠ (single 0x212A).caseless ∧
      0x6B ∈ (single 0x212A).caseless ∧ 0x4B ∈ caseVariants 0x6B ∧
      0x4B ∉ (single 0x212A).caseless := by
  have hk : 0x6B ∈ caseVariants 0x212A := by decide +kernel
  have hcapital : 0x4B ∈ caseVariants 0x6B := by decide +kernel
  have hnot : 0x4B ∉ (single 0x212A).caseless := by
    rw [mem_caseless]
    simp only [mem_single, exists_eq_left]
    decide +kernel
  have hmem : 0x6B ∈ (single 0x212A).caseless :=
    mem_caseless.2 (.inr ⟨0x212A, mem_single.2 rfl, hk⟩)
  refine ⟨fun h => hnot ?_, hmem, hcapital, hnot⟩
  rw [← h]
  exact mem_caseless.2 (.inr ⟨0x6B, hmem, hcapital⟩)

end CodeSet

end ScannerGen
