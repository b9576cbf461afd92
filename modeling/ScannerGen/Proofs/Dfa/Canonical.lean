import ScannerGen.Proofs.Dfa.Minimal

/-
  The minimal automaton is canonical. Of the quotients of an automaton, which differ in how the
  states are numbered and in the member that stands for a class, only one numbers the classes by
  their lowest members and copies these (`IsCanonical.unique`). A canonical quotient of a canonical
  quotient is one of the first automaton (`IsCanonical.trans`), also if the second one merges more
  than the first. So minimizing again changes nothing, and to tell rules apart first makes no
  difference to a minimization that does not (`minimize_is_canonical`). Where the blocks of the
  refinement come from, and in which order, plays no part in this (`byBlocks_eq_minimize`).
-/

namespace ScannerGen

/-! ## Keys -/

/-- The key without the line, unless `strict`. -/
def StateKey.relax (strict : Bool) (k : StateKey) : StateKey :=
  if strict then k else { k with line? := none }

/-- A strict key determines the other one. -/
theorem DfaState.key_eq_relax {strict strict' : Bool} (h : strict' = true → strict = true)
    (s : DfaState) : s.key strict' = (s.key strict).relax strict' := by
  unfold StateKey.relax
  cases strict' with
  | true =>
    rw [h rfl]
    rfl
  | false => rfl

/-- The state with its targets renumbered. -/
def DfaState.renumber (f : Nat → Nat) (s : DfaState) : DfaState :=
  { s with targets := s.targets.map (·.map f) }

theorem DfaState.renumber_renumber (f g : Nat → Nat) (s : DfaState) :
    (s.renumber f).renumber g = s.renumber (g ∘ f) := by
  simp [renumber]

/-- The numbers of states that are no targets do not matter. -/
theorem DfaState.renumber_congr {f g : Nat → Nat} {s : DfaState}
    (h : ∀ target ∈ s.targets, ∀ j ∈ target, f j = g j) : s.renumber f = s.renumber g := by
  have htargets : s.targets.map (·.map f) = s.targets.map (·.map g) := by
    refine Array.map_congr_left fun target ht => ?_
    exact Option.map_congr fun j hj => h target ht j hj
  unfold renumber
  rw [htargets]

namespace Dfa

variable {d m m' : Dfa} {strict strict' : Bool} {f g : Nat → Nat} {t : Blocks} {i j b : Nat}

theorem InRange.renumber_congr (hd : d.InRange) (h : ∀ j < d.size, f j = g j) {s : DfaState}
    (hs : d.states[i]? = some s) : s.renumber f = s.renumber g :=
  DfaState.renumber_congr fun target ht j hj =>
    h j (hd.1 s (Array.mem_of_getElem? hs) target ht j hj)

/-! ## Quotients of quotients -/

theorem Commutes.relax (hf : Commutes strict d m f) (h : strict' = true → strict = true) :
    Commutes strict' d m f where
  numClasses := hf.numClasses
  lt_size := hf.lt_size
  key {i} hi := by
    have hkey := congrArg (Option.map (StateKey.relax strict')) (hf.key hi)
    simpa only [Option.map_map, Function.comp_def, ← DfaState.key_eq_relax h] using hkey
  target := hf.target

theorem Commutes.trans (hf : Commutes strict d m f) (hg : Commutes strict m m' g) :
    Commutes strict d m' (g ∘ f) where
  numClasses := hg.numClasses.trans hf.numClasses
  lt_size hi := hg.lt_size (hf.lt_size hi)
  key hi := (hg.key (hf.lt_size hi)).trans (hf.key hi)
  target k hi := by
    rw [Function.comp_apply, hg.target k (hf.lt_size hi), hf.target k hi, Option.map_map]

/-- States are equivalent exactly if those that stand for them are. -/
theorem Commutes.equivalent_iff (hf : Commutes strict d m f) (hd : d.WellFormed)
    (hm : m.WellFormed) (hi : i < d.size) (hj : j < d.size) :
    m.Equivalent strict (f i) (f j) ↔ d.Equivalent strict i j := by
  refine forall_congr' fun w => ?_
  rw [hf.isWord]
  refine forall_congr' fun hw => ?_
  rw [hf.outcome hd hm hi hw, hf.outcome hd hm hj hw]

theorem IsQuotient.trans (hf : IsQuotient strict d m f) (hg : IsQuotient strict' m m' g)
    (hd : d.WellFormed) (h : strict' = true → strict = true) :
    IsQuotient strict' d m' (g ∘ f) where
  toCommutes := (hf.relax h).trans hg.toCommutes
  wellFormed := hg.wellFormed
  starts_eq := by rw [hg.starts_eq, hf.starts_eq, Array.map_map]
  surjective hb := by
    obtain ⟨c, hc, rfl⟩ := hg.surjective hb
    obtain ⟨i, hi, rfl⟩ := hf.surjective hc
    exact ⟨i, hi, rfl⟩
  eq_iff hi hj := (hg.eq_iff (hf.lt_size hi) (hf.lt_size hj)).trans
    ((hf.relax h).equivalent_iff hd hf.wellFormed hi hj)

/-! ## Canonical quotients -/

/-- The classes are numbered by their lowest members, and each state is a copy of this member. -/
structure IsCanonical (strict : Bool) (d m : Dfa) (f : Nat → Nat) : Prop extends
    IsQuotient strict d m f where
  ordered : ∀ {i b}, i < d.size → b < f i → ∃ j < i, f j = b
  state : ∀ {i}, i < d.size → (∀ j < i, f j ≠ f i) →
    m.states[f i]? = d.states[i]?.map (·.renumber f)

theorem IsCanonical.trans (hf : IsCanonical strict d m f) (hg : IsCanonical strict' m m' g)
    (hd : d.WellFormed) (h : strict' = true → strict = true) :
    IsCanonical strict' d m' (g ∘ f) where
  toIsQuotient := hf.toIsQuotient.trans hg.toIsQuotient hd h
  ordered hi hb := by
    obtain ⟨c, hc, rfl⟩ := hg.ordered (hf.lt_size hi) hb
    obtain ⟨j, hj, rfl⟩ := hf.ordered hi hc
    exact ⟨j, hj, rfl⟩
  state {i} hi hfirst := by
    -- the lowest member of the class of classes is the lowest in its own class, which is the first
    have hf_first : ∀ j < i, f j ≠ f i := fun j hj e => hfirst j hj (congrArg g e)
    have hg_first : ∀ c < f i, g c ≠ g (f i) := by
      intro c hc e
      obtain ⟨j, hj, rfl⟩ := hf.ordered hi hc
      exact hfirst j hj e
    rw [Function.comp_apply, hg.state (hf.lt_size hi) hg_first, hf.state hi hf_first,
      Option.map_map]
    exact Option.map_congr fun s _ => s.renumber_renumber f g

/-- A class that is met first at `i` gets no higher number than another numbering gives it. -/
theorem IsCanonical.number_le (hf : IsCanonical strict d m f) (hi : i < d.size)
    (hbelow : ∀ j < i, f j = g j) (hfirst : ∀ j < i, g j ≠ g i) : f i ≤ g i := by
  by_contra hlt
  obtain ⟨j, hj, e⟩ := hf.ordered hi (Nat.lt_of_not_le hlt)
  exact hfirst j hj ((hbelow j hj).symm.trans e)

/-- There is only one numbering. -/
theorem IsCanonical.number_eq (hf : IsCanonical strict d m f) (hg : IsCanonical strict d m' g)
    (hi : i < d.size) : f i = g i := by
  induction i using Nat.strong_induction_on with
  | _ i ih =>
    have hbelow : ∀ j < i, f j = g j := fun j hj => ih j hj (Nat.lt_trans hj hi)
    have same : ∀ j < i, f j = f i ↔ g j = g i := fun j hj => by
      rw [hf.eq_iff (Nat.lt_trans hj hi) hi, hg.eq_iff (Nat.lt_trans hj hi) hi]
    by_cases hmet : ∃ j < i, f j = f i
    · obtain ⟨j, hj, e⟩ := hmet
      calc f i = f j := e.symm
        _ = g j := hbelow j hj
        _ = g i := (same j hj).1 e
    · push Not at hmet
      have hmet' : ∀ j < i, g j ≠ g i := fun j hj e => hmet j hj ((same j hj).2 e)
      exact Nat.le_antisymm (hf.number_le hi hbelow hmet')
        (hg.number_le hi (fun j hj => (hbelow j hj).symm) hmet)

theorem IsCanonical.exists_first (hf : IsCanonical strict d m f) (hb : b < m.size) :
    ∃ i < d.size, f i = b ∧ ∀ j < i, f j ≠ f i := by
  classical
  have hex : ∃ i, i < d.size ∧ f i = b := hf.surjective hb
  obtain ⟨hlt, hfind⟩ := Nat.find_spec hex
  refine ⟨Nat.find hex, hlt, hfind, fun j hj e => ?_⟩
  exact Nat.find_min hex hj ⟨Nat.lt_trans hj hlt, e.trans hfind⟩

theorem IsCanonical.unique (hf : IsCanonical strict d m f) (hg : IsCanonical strict d m' g)
    (hd : d.WellFormed) : m = m' := by
  have hnumber : ∀ i < d.size, f i = g i := fun i hi => hf.number_eq hg hi
  have hclasses : m.numClasses = m'.numClasses := hf.numClasses.trans hg.numClasses.symm
  have hstarts : m.starts = m'.starts := by
    rw [hf.starts_eq, hg.starts_eq]
    exact Array.map_congr_left fun i hi => hnumber i (hd.inRange.2 i hi)
  have hsize : m.size = m'.size := hf.size_eq_card.trans hg.size_eq_card.symm
  have hstates : m.states = m'.states := by
    refine Array.ext_getElem? fun b => ?_
    by_cases hb : b < m.size
    · obtain ⟨i, hi, rfl, hfirst⟩ := hf.exists_first hb
      have hfirst' : ∀ j < i, g j ≠ g i := fun j hj e =>
        hfirst j hj (by rw [hnumber j (Nat.lt_trans hj hi), hnumber i hi, e])
      rw [hf.state hi hfirst, hnumber i hi, hg.state hi hfirst']
      exact Option.map_congr fun s hs => hd.inRange.renumber_congr hnumber hs
    · have hb' : ¬b < m'.size := hsize ▸ hb
      rw [Array.getElem?_eq_none (Nat.le_of_not_lt hb),
        Array.getElem?_eq_none (Nat.le_of_not_lt hb')]
  cases m
  cases m'
  simp_all

/-! ## Minimizing -/

theorem isCanonical_self (hd : d.WellFormed) (h : d.size ≤ 1) : IsCanonical strict d d id where
  toIsQuotient := isQuotient_self hd h
  ordered {i b} hi hb := by
    rw [id] at hb
    omega
  state {i} _ _ := by
    have hid : (·.renumber id) = (id : DfaState → DfaState) := by
      funext s
      simp [DfaState.renumber]
    rw [hid, Option.map_id, id, id]

/-- The leader of a group is its lowest member. -/
theorem leader_le {l : Nat} (h : (d.groupsBy t).leaders[d.groupOf t i]? = some l)
    (hi : i < d.size) : l ≤ i := by
  obtain ⟨l', hl', -, hfirst⟩ := (ofKeys_groupsBy d t).leader h
  obtain ⟨hlt, hl'⟩ := List.getElem?_eq_some_iff.1 hl'
  rw [List.getElem_range] at hl'
  subst hl'
  exact hfirst i (getElem?_groups hi)

theorem isCanonical_byBlocks (ht : t.Final d strict) (hd : d.WellFormed) :
    IsCanonical strict d (d.byBlocks t) (d.groupOf t) where
  toIsQuotient := isQuotient_byBlocks ht hd
  ordered hi hb := by
    obtain ⟨j, hj, hgroup⟩ := Grouping.exists_earlier (getElem?_groups hi) hb
    have hgj : (d.groupsBy t).groups[j]? = some (d.groupOf t j) :=
      getElem?_groups (Nat.lt_trans hj hi)
    exact ⟨j, hj, Option.some.inj (hgj.symm.trans hgroup)⟩
  state {i} hi hfirst := by
    obtain ⟨l, hl, hlt, -⟩ := exists_leader t hi
    have hle := leader_le hl hi
    have hli : l = i := by
      refine Nat.le_antisymm hle (Nat.le_of_not_lt fun hlt => ?_)
      exact hfirst l hlt (leader_group hl).2
    subst hli
    obtain ⟨s, hs, hstate⟩ := states_byBlocks hl
    rw [hstate, hs, Option.map_some, Option.some.injEq]
    unfold DfaState.renumber
    congr 1
    refine Array.map_congr_left fun target ht => ?_
    cases target with
    | none => rfl
    | some j => exact getElem?_groups (hd.inRange.1 s (Array.mem_of_getElem? hs) _ ht j rfl)

theorem exists_isCanonical (hd : d.WellFormed) (strict : Bool) :
    ∃ f, IsCanonical strict d (d.minimize strict) f := by
  by_cases h : d.size ≤ 1
  · exact ⟨id, by rw [minimize, if_pos h]; exact isCanonical_self hd h⟩
  · refine ⟨d.groupOf (d.finalBlocks strict), ?_⟩
    rw [minimize_eq h]
    exact isCanonical_byBlocks (Blocks.final_finalBlocks hd strict) hd

/-- The order in which a refinement takes its pairs and splits blocks, and how it numbers the first
blocks, makes no difference to the automaton that it ends with. -/
theorem byBlocks_eq_minimize {t₀ : Blocks} {n : Nat} (hd : d.WellFormed) (hsize : 1 < d.size)
    (h₀ : Blocks.IsStart d t₀) (hkey : ∀ i < d.size, ∀ j < d.size,
      (t₀.blockOf[i]? = t₀.blockOf[j]? ↔
        d.states[i]?.map (·.key strict) = d.states[j]?.map (·.key strict)))
    (hrun : InSteps (Blocks.Iteration d) t₀ n t) (hend : t.pending = []) :
    d.byBlocks t = d.minimize strict := by
  have hsound : Blocks.Sound d strict t₀ := h₀.progress.toStored.sound hkey
  have ht : t.Final d strict := Blocks.final_of_inSteps hd h₀ hsound hrun hend
  rw [minimize_eq (Nat.not_le.2 hsize)]
  exact (isCanonical_byBlocks ht hd).unique
    (isCanonical_byBlocks (Blocks.final_finalBlocks hd strict) hd) hd

/-- A first minimization that merges no more does not change what comes of a second one. -/
theorem minimize_minimize (hd : d.WellFormed) (h : strict' = true → strict = true) :
    (d.minimize strict).minimize strict' = d.minimize strict' := by
  obtain ⟨f, hf⟩ := exists_isCanonical hd strict
  obtain ⟨g, hg⟩ := exists_isCanonical hf.wellFormed strict'
  obtain ⟨f', hf'⟩ := exists_isCanonical hd strict'
  exact (hf.trans hg hd h).unique hf' hd

/-- What has been minimized stays as it is, and so does what results without regard to rules if
states are first merged with regard to them. -/
theorem minimize_is_canonical (d : Dfa) (hd : d.WellFormed) :
    (∀ strict, ∃ m, d.minimize? strict = .ok m ∧ m.minimize? strict = .ok m) ∧
      ∃ m m', d.minimize? true = .ok m ∧ d.minimize? false = .ok m' ∧
        m.minimize? false = .ok m' := by
  have hrange : ∀ strict, (d.minimize strict).InRange := fun strict => by
    obtain ⟨f, hf⟩ := exists_isCanonical hd strict
    exact hf.wellFormed.inRange
  constructor
  · intro strict
    refine ⟨_, minimize?_eq_ok hd.inRange strict, ?_⟩
    rw [minimize?_eq_ok (hrange strict), minimize_minimize hd id]
  · have hrelaxed : (d.minimize true).minimize false = d.minimize false :=
      minimize_minimize hd fun _ => rfl
    refine ⟨_, _, minimize?_eq_ok hd.inRange true, minimize?_eq_ok hd.inRange false, ?_⟩
    rw [minimize?_eq_ok (hrange true), hrelaxed]

/-- The second and the third state have actions of one rule, and the fourth state has the same code
from another rule. The last state is like the first. -/
def variants : Dfa where
  states := #[
    ⟨#[some 3, some 1], false, false, false, none⟩,
    ⟨#[none, some 2], true, false, false, some ⟨"b", 2, false⟩⟩,
    ⟨#[none, some 1], true, false, false, some ⟨" b", 2, false⟩⟩,
    ⟨#[none, some 3], true, false, false, some ⟨"b ", 3, false⟩⟩,
    ⟨#[some 3, some 2], false, false, false, none⟩]
  numClasses := 2
  starts := #[4, 0]

theorem minimize_is_canonical_variants : variants.WellFormed ∧
    (∃ m, variants.minimize? true = .ok m ∧ m.minimize? true = .ok m ∧ m.size = 3) ∧
      ∃ m m', variants.minimize? true = .ok m ∧ variants.minimize? false = .ok m' ∧
        m.minimize? false = .ok m' ∧ m'.size = 2 := by
  have hd : variants.WellFormed := by decide
  have hstrict : variants.minimize? true = .ok (variants.minimize true) := rfl
  have hlax : variants.minimize? false = .ok (variants.minimize false) := rfl
  obtain ⟨hagain, m, m', hm, hm', hrelaxed⟩ := minimize_is_canonical variants hd
  obtain ⟨m₁, hm₁, hagain⟩ := hagain true
  refine ⟨hd, ⟨m₁, hm₁, hagain, ?_⟩, m, m', hm, hm', hrelaxed, ?_⟩
  · rw [hstrict, Except.ok.injEq] at hm₁
    subst hm₁
    decide +kernel
  · rw [hlax, Except.ok.injEq] at hm'
    subst hm'
    decide +kernel

end Dfa

end ScannerGen
