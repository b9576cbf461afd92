import ScannerGen.Generate
import ScannerGen.Proofs.Nfa.Scaling
import ScannerGen.Proofs.Spec.ExactExpansion

/-
  What the limit on the number of states decides. Under whatever limit there is a scanner at all, it
  is the same one, and there is one under every limit that its automata do not exceed and for which
  memory can be set aside at the start (`generateWith_is_limited_by_size`). How much is set aside
  hangs on an estimate, which can be far above the states that are needed, so a higher limit can
  fail where a lower one does not (`generateWith_fails_under_a_higher_limit`).

  Memory is taken to be refused only beyond the bytes that one allocation can have (`maxBytes`);
  what a machine really has is not part of this.
-/

namespace ScannerGen

variable {spec : Spec} {p : Partition} {config : Config} {limit : Nat} {nfa : Nfa} {a : Automata}

/-- The states that the rules are expected to need can be stored, as far as the limit allows
them. -/
def Reservable (spec : Spec) (limit : Nat) : Prop :=
  fitsMemory Nfa.stateBytes (max (2 * spec.states.size)
    (min (estimateStates spec.macros spec.rules spec.states.size) limit)) = true

instance (spec : Spec) (limit : Nat) : Decidable (Reservable spec limit) :=
  inferInstanceAs (Decidable (_ = true))

namespace Nfa

theorem scales_rules (hg : ∀ r ∈ spec.exprs, spec.macros.Grounded r) :
    Build.Scales fun limit => (do
      spec.rules.forM (Build.addRule p limit spec.macros spec.states)
      if spec.standalone then Build.addEcho limit : Build Unit) := by
  refine (Build.scales_forM fun rule hrule => ?_).bind fun _ => ?_
  · exact Build.scales_addRule p spec.states fun r hr =>
      hg r (List.mem_flatMap.2 ⟨rule, hrule, hr⟩)
  · split
    · exact Build.scales_addEcho
    · exact Build.scales_pure ()

theorem start_eq_ite (spec : Spec) (numClasses limit : Nat) :
    start numClasses spec.states.size
        (estimateStates spec.macros spec.rules spec.states.size) limit =
      if 2 * spec.states.size ≤ limit ∧ Reservable spec limit then
        .ok (entries numClasses spec.states.size)
      else .error (.error (.stateLimit limit)) := by
  unfold start Reservable
  by_cases hroom : 2 * spec.states.size ≤ limit
  · rw [decide_eq_false (Nat.not_lt.2 hroom), Bool.false_or]
    simp only [hroom, true_and]
    split <;> simp_all
  · simp [hroom, Nat.lt_of_not_le hroom]

/-- An automaton that was built under one limit is built under all that leave room for it. -/
theorem ofSpec_eq_ite (hg : ∀ r ∈ spec.exprs, spec.macros.Grounded r)
    (hok : ofSpec spec p limit = .ok nfa) (limit' : Nat) :
    ofSpec spec p limit' = if Reservable spec limit' ∧ nfa.size ≤ limit' then .ok nfa
      else .error (.error (.stateLimit limit')) := by
  obtain ⟨nfa₀, hstart, h⟩ := bind_eq_ok.1 hok
  obtain ⟨⟨u, nfa₁⟩, hrun, h⟩ := bind_eq_ok.1 h
  obtain rfl := pure_eq_ok.1 h
  rw [start_eq_ite] at hstart
  split at hstart
  · next hle =>
    cases hstart
    have hscales := scales_rules hg (p := p) (entries p.numClasses spec.states.size)
    rw [size_entries] at hscales
    have hsize : 2 * spec.states.size ≤ nfa₁.size := hscales.le_size hle.1 hrun
    unfold ofSpec
    dsimp only
    rw [start_eq_ite]
    by_cases hroom : 2 * spec.states.size ≤ limit' ∧ Reservable spec limit'
    · rw [if_pos hroom]
      show (Build.run _ (entries p.numClasses spec.states.size) >>= _) = _
      rw [hscales.eq_ite hle.1 hrun hroom.1]
      simp only [hroom.2, true_and]
      split <;> rfl
    · have hnot : ¬(Reservable spec limit' ∧ nfa₁.size ≤ limit') :=
        fun h => hroom ⟨Nat.le_trans hsize h.2, h.1⟩
      rw [if_neg hroom, if_neg hnot]
      rfl
  · cases hstart

theorem limitedBy_determinize (nfa : Nfa) :
    LimitedBy 0 Dfa.size fun limit => nfa.determinize limit := by
  unfold determinize
  split
  · exact .const fun _ h => by cases h
  · have hentries : LimitedBy (Numbering.size (.empty : Numbering IdSet)) (·.1.size) fun limit =>
      Subsets.numberAll limit nfa.entryClosures .empty := Subsets.limitedBy_numberAll _
    refine hentries.bind fun x _ => ?_
    obtain ⟨sets, starts⟩ := x
    dsimp only
    split
    · exact .const fun _ h => by cases h
    · refine (Subsets.limitedBy_ofStart sets).bind fun t ht => ?_
      obtain ⟨limit, hle, ht⟩ := ht
      refine .const fun d hd => ?_
      cases hd
      have hrows := Subsets.size_rows_ofStart hle ht
      show (List.toArray _).size = t.sets.values.size
      rw [List.size_toArray, List.length_zipWith, Array.length_toList, Array.length_toList, hrows]
      exact Nat.min_self _

end Nfa

theorem Automata.ofSpec_eq_ite (hg : ∀ r ∈ spec.exprs, spec.macros.Grounded r)
    (hok : ofSpec spec p config = .ok a) (limit : Nat) :
    ofSpec spec p { config with maxStates := limit } =
      if Reservable spec limit ∧ a.numNfaStates ≤ limit ∧ a.numDfaStates ≤ limit then .ok a
      else .error (.error (.stateLimit limit)) := by
  obtain ⟨nfa, hnfa, h⟩ := bind_eq_ok.1 hok
  obtain ⟨full, hfull, h⟩ := bind_eq_ok.1 h
  have hsizes : a.numNfaStates = nfa.size ∧ a.numDfaStates = full.size := by
    dsimp only at h
    split at h
    · cases h
      exact ⟨rfl, rfl⟩
    · split at h
      · cases h
        exact ⟨rfl, rfl⟩
      · cases h
  rw [hsizes.1, hsizes.2]
  unfold ofSpec
  dsimp only
  rw [Nfa.ofSpec_eq_ite hg hnfa]
  by_cases hroom : Reservable spec limit ∧ nfa.size ≤ limit
  · rw [if_pos hroom]
    show (nfa.determinize limit >>= _) = _
    rw [nfa.limitedBy_determinize.eq_ite (Nat.zero_le _) hfull (Nat.zero_le limit)]
    simp only [hroom, true_and]
    split
    · exact h
    · rfl
  · have hnot : ¬(Reservable spec limit ∧ nfa.size ≤ limit ∧ full.size ≤ limit) :=
      fun h => hroom ⟨h.1, h.2.1⟩
    rw [if_neg hroom, if_neg hnot]
    rfl

theorem generateWith_eq_ite {scanner : Scanner} (hg : ∀ r ∈ spec.exprs, spec.macros.Grounded r)
    (hok : (generateWith spec p config).result = .ok scanner) (limit : Nat) :
    generateWith spec p { config with maxStates := limit } =
      if Reservable spec limit ∧ scanner.stats.numNfaStates ≤ limit ∧
        scanner.stats.numDfaStates ≤ limit then generateWith spec p config
      else ⟨[], .error (.error (.stateLimit limit))⟩ := by
  unfold generateWith at hok ⊢
  cases ha : Automata.ofSpec spec p config with
  | error e =>
    rw [ha] at hok
    cases hok
  | ok a =>
    rw [ha] at hok
    cases hok
    rw [Automata.ofSpec_eq_ite hg ha]
    by_cases hroom : Reservable spec limit ∧ a.numNfaStates ≤ limit ∧ a.numDfaStates ≤ limit
    · rw [if_pos hroom]
      exact (if_pos hroom).symm
    · rw [if_neg hroom]
      exact (if_neg hroom).symm

/-- If a prepared specification has a scanner under some limit, it has the same one under every
limit that leaves room for both automata and for what is set aside at the start, and none under
others. -/
theorem generateWith_is_limited_by_size {scanner : Scanner} (ht : MacroTable.Built spec.macros)
    {top : Nat} (hprep : (spec.prepare top).result = .ok ())
    (hok : (generateWith (spec.prepare top).spec p config).result = .ok scanner) :
    (∀ limit ≥ config.maxStates, Reservable (spec.prepare top).spec limit →
      generateWith (spec.prepare top).spec p { config with maxStates := limit } =
        generateWith (spec.prepare top).spec p config) ∧
      ∀ limit, (generateWith (spec.prepare top).spec p { config with maxStates := limit }).result =
        if Reservable (spec.prepare top).spec limit ∧ scanner.stats.numNfaStates ≤ limit ∧
          scanner.stats.numDfaStates ≤ limit then .ok scanner
        else .error (.error (.stateLimit limit)) := by
  have hg : ∀ r ∈ (spec.prepare top).spec.exprs, (spec.prepare top).spec.macros.Grounded r := by
    have hready := prepare_spec ht.wellFormed top
    rw [hprep] at hready
    obtain ⟨t, hspec, hready⟩ := hready
    rw [hspec]
    exact fun r hr => hready.grounded hr
  have heq := generateWith_eq_ite hg hok
  constructor
  · intro limit hle hroom
    have hsame := heq config.maxStates
    rw [show ({ config with maxStates := config.maxStates } : Config) = config from rfl] at hsame
    split at hsame
    · next h => exact (heq limit).trans (if_pos ⟨hroom, h.2.1.trans hle, h.2.2.trans hle⟩)
    · rw [hsame] at hok
      cases hok
  · intro limit
    rw [heq limit]
    split
    · exact hok
    · rfl

/-- Negations that give small automata, while each of them squares the estimate. -/
def tower : Spec where
  macros := .empty
  rules :=
    let a := Regex.one (.code 97 false)
    [.new 1 (.compl (.compl (.compl (.compl (.compl (.compl a)))))) "a"]
  states := .initial
  eof := .empty
  standalone := false

/-- The letter `a` and all other codes. -/
def towerPartition : Partition := (Partition.whole 127).refineCode 97 false

/-- The default settings with 1000 states at most. -/
def towerConfig : Config := { Config.default with maxCode := 127, maxStates := 1000 }

theorem exists_tower_scanner : ∃ scanner,
    (generateWith (tower.prepare 127).spec towerPartition towerConfig).result = .ok scanner ∧
      scanner.stats.numNfaStates = 37 ∧ scanner.stats.numDfaStates = 3 := by
  have h : (generateWith (tower.prepare 127).spec towerPartition towerConfig).result.toOption.map
      (fun scanner => (scanner.stats.numNfaStates, scanner.stats.numDfaStates)) = some (37, 3) := by
    decide +kernel
  cases hrun : (generateWith (tower.prepare 127).spec towerPartition towerConfig).result with
  | error e =>
    rw [hrun] at h
    cases h
  | ok scanner =>
    rw [hrun] at h
    exact ⟨scanner, rfl, Prod.mk.inj (Option.some.inj h)⟩

theorem generateWith_is_limited_by_size_tower : MacroTable.Built tower.macros ∧
    (tower.prepare 127).result = .ok () ∧ Reservable (tower.prepare 127).spec (2 ^ 20) ∧
    (∃ scanner, (generateWith (tower.prepare 127).spec towerPartition towerConfig).result =
      .ok scanner) ∧
    generateWith (tower.prepare 127).spec towerPartition { towerConfig with maxStates := 2 ^ 20 } =
      generateWith (tower.prepare 127).spec towerPartition towerConfig ∧
    (generateWith (tower.prepare 127).spec towerPartition
      { towerConfig with maxStates := 36 }).result = .error (.error (.stateLimit 36)) := by
  obtain ⟨scanner, hok, hnfa, -⟩ := exists_tower_scanner
  have hroom : Reservable (tower.prepare 127).spec (2 ^ 20) := by decide +kernel
  obtain ⟨hsame, hlimit⟩ := generateWith_is_limited_by_size .empty (by rfl) hok
  refine ⟨.empty, rfl, hroom, ⟨scanner, hok⟩, hsame _ (by decide) hroom, ?_⟩
  rw [hlimit, if_neg (by omega)]

theorem generateWith_fails_under_a_higher_limit :
    (tower.prepare 127).result = .ok () ∧
      (∃ scanner, (generateWith (tower.prepare 127).spec towerPartition towerConfig).result =
        .ok scanner ∧ scanner.stats.numNfaStates = 37 ∧ scanner.stats.numDfaStates = 3) ∧
      towerConfig.maxStates ≤ maxWord ∧
      (generateWith (tower.prepare 127).spec towerPartition
        { towerConfig with maxStates := maxWord }).result =
          .error (.error (.stateLimit maxWord)) :=
  ⟨rfl, exists_tower_scanner, by decide, rfl⟩

end ScannerGen
