import Mathlib.Data.Fintype.Quotient
import Mathlib.SetTheory.Cardinal.Finite
import ScannerGen.Proofs.Dfa.RefinementRun

/-
  The minimal automaton. Final blocks, in whatever order a refinement has come to them, are the
  classes of equivalent states (`isQuotient_byBlocks`). So the map from states to blocks commutes
  with the transitions, every word leads to states of the same behaviour, and any two states of the
  minimal automaton are told apart by some word.
-/

namespace ScannerGen

/-- The same attributes and interchangeable actions. -/
structure DfaState.Alike (strict : Bool) (s s' : DfaState) : Prop where
  isFinal : s'.isFinal = s.isFinal
  isPushback : s'.isPushback = s.isPushback
  isLookEnd : s'.isLookEnd = s.isLookEnd
  hasAction : s'.action?.isSome = s.action?.isSome
  code : s'.action?.map (·.code) = s.action?.map (·.code)
  priority : strict = true → s'.action?.map (·.priority) = s.action?.map (·.priority)

theorem DfaState.alike_of_key_eq {strict : Bool} {s s' : DfaState}
    (h : s'.key strict = s.key strict) : s.Alike strict s' := by
  simp only [DfaState.key, StateKey.mk.injEq] at h
  obtain ⟨hf, hp, hl, hc, hline⟩ := h
  refine ⟨hf, hp, hl, ?_, hc, fun hs => ?_⟩
  · have := congrArg Option.isSome hc
    rwa [Option.isSome_map, Option.isSome_map] at this
  · rwa [if_pos hs, if_pos hs] at hline

theorem DfaState.Alike.refl (strict : Bool) (s : DfaState) : s.Alike strict s :=
  ⟨rfl, rfl, rfl, rfl, rfl, fun _ => rfl⟩

theorem DfaState.Alike.trans {strict : Bool} {s s' s'' : DfaState} (h : s.Alike strict s')
    (h' : s'.Alike strict s'') : s.Alike strict s'' where
  isFinal := h'.isFinal.trans h.isFinal
  isPushback := h'.isPushback.trans h.isPushback
  isLookEnd := h'.isLookEnd.trans h.isLookEnd
  hasAction := h'.hasAction.trans h.hasAction
  code := h'.code.trans h.code
  priority hs := (h'.priority hs).trans (h.priority hs)

namespace Dfa

variable {d : Dfa} {strict : Bool} {t : Blocks} {i j k : Nat}

/-- `m` has a state for every class of equivalent states of `d`; `f` leads to it. -/
structure IsQuotient (strict : Bool) (d m : Dfa) (f : Nat → Nat) : Prop extends
    Commutes strict d m f where
  wellFormed : m.WellFormed
  starts_eq : m.starts = d.starts.map f
  surjective : ∀ {b}, b < m.size → ∃ i < d.size, f i = b
  eq_iff : ∀ {i j}, i < d.size → j < d.size → (f i = f j ↔ d.Equivalent strict i j)

/-! ## The quotient by blocks -/

/-- The states of `d`, grouped by their blocks. -/
def groupsBy (d : Dfa) (t : Blocks) : Grouping Nat (Option Nat) :=
  .ofList (t.blockOf[·]?) (List.range d.size)

theorem ofKeys_groupsBy (d : Dfa) (t : Blocks) :
    (d.groupsBy t).OfKeys (t.blockOf[·]?) (List.range d.size) :=
  Grouping.ofKeys_ofList _ _

/-- The state that stands for state `i` if there is one for every block. -/
def groupOf (d : Dfa) (t : Blocks) (i : Nat) : Nat := (d.groupsBy t).groups.getD i 0

theorem getElem?_groups (hi : i < d.size) :
    (d.groupsBy t).groups[i]? = some (d.groupOf t i) := by
  have hlt : i < (d.groupsBy t).groups.size := by
    rw [(ofKeys_groupsBy d t).size_groups, List.length_range]
    exact hi
  unfold groupOf
  rw [Array.getD_eq_getD_getElem?, Array.getElem?_eq_getElem hlt, Option.getD_some]

theorem groupOf_eq_iff (hi : i < d.size) (hj : j < d.size) :
    d.groupOf t i = d.groupOf t j ↔
      t.blockOf[i]? = t.blockOf[j]? := by
  rw [← (ofKeys_groupsBy d t).group_eq_iff (List.getElem?_range hi)
    (List.getElem?_range hj), getElem?_groups hi, getElem?_groups hj, Option.some.injEq]

/-- Every group has a leader, which is one of its states. -/
theorem leader_group {b l : Nat} (h : (d.groupsBy t).leaders[b]? = some l) :
    l < d.size ∧ d.groupOf t l = b := by
  obtain ⟨i, hi, hg, -⟩ := (ofKeys_groupsBy d t).leader h
  obtain ⟨hlt, rfl⟩ := List.getElem?_eq_some_iff.1 hi
  rw [List.length_range] at hlt
  rw [List.getElem_range] at h hi ⊢
  rw [getElem?_groups hlt, Option.some.injEq] at hg
  exact ⟨hlt, hg⟩

theorem exists_leader (t : Blocks) (hi : i < d.size) :
    ∃ l, (d.groupsBy t).leaders[d.groupOf t i]? = some l ∧ l < d.size ∧
      t.blockOf[l]? = t.blockOf[i]? := by
  obtain ⟨l, hl, -⟩ := (ofKeys_groupsBy d t).leader_key (List.getElem?_range hi)
    (getElem?_groups hi)
  have h := leader_group hl
  exact ⟨l, hl, h.1, (groupOf_eq_iff h.1 hi).1 h.2⟩

/-- The automaton that has a state for every block. -/
def byBlocks (d : Dfa) (t : Blocks) : Dfa :=
  d.quotient (d.groupsBy t).leaders (d.groupsBy t).groups

theorem minimize_eq (h : ¬d.size ≤ 1) : d.minimize strict = d.byBlocks (d.finalBlocks strict) := by
  unfold minimize
  rw [if_neg h]
  rfl

theorem states_byBlocks {b l : Nat} (h : (d.groupsBy t).leaders[b]? = some l) :
    ∃ s, d.states[l]? = some s ∧ (d.byBlocks t).states[b]? = some
      { s with targets := s.targets.map (·.bind ((d.groupsBy t).groups[·]?)) } := by
  have hl : l < d.states.size := (leader_group h).1
  refine ⟨d.states[l], Array.getElem?_eq_getElem hl, ?_⟩
  simp only [byBlocks, quotient, Array.getElem?_map, h, Option.map_some,
    Array.getD_eq_getD_getElem?, Array.getElem?_eq_getElem hl, Option.getD_some]

theorem target_byBlocks (hd : d.InRange) {b l : Nat}
    (h : (d.groupsBy t).leaders[b]? = some l) (k : Nat) :
    (d.byBlocks t).target? b k = (d.target? l k).map (d.groupOf t) := by
  obtain ⟨s, hs, hb⟩ := states_byBlocks h
  have hg : ∀ j, d.target? l k = some j →
      (d.groupsBy t).groups[j]? = some (d.groupOf t j) := fun j hj =>
    getElem?_groups (hd.target_lt hj)
  rw [target?_eq hb, DfaState.target?, Array.getElem?_map]
  rw [target?_eq hs, DfaState.target?] at hg ⊢
  cases hk : s.targets[k]? with
  | none => rfl
  | some target =>
    cases target with
    | none => rfl
    | some j => exact hg j (by rw [hk]; rfl)

/-- States of one block move into one block, so the target may be read off any of them. -/
theorem target_groupOf (ht : t.Final d strict) (hd : d.WellFormed) (hi : i < d.size) (k : Nat) :
    (d.byBlocks t).target? (d.groupOf t i) k = (d.target? i k).map (d.groupOf t) := by
  obtain ⟨l, hl, -, hblock⟩ := exists_leader t hi
  rw [target_byBlocks hd.inRange hl k]
  have hdest := ht.stable hblock k
  unfold Blocks.dest at hdest
  cases ha : d.target? l k with
  | none =>
    cases hb : d.target? i k with
    | none => rfl
    | some b =>
      obtain ⟨c, hc⟩ := ht.consistent.exists_block (hd.inRange.target_lt hb)
      rw [ha, hb, Option.bind_none, Option.bind_some, hc] at hdest
      cases hdest
  | some a =>
    obtain ⟨c, hc⟩ := ht.consistent.exists_block (hd.inRange.target_lt ha)
    cases hb : d.target? i k with
    | none =>
      rw [ha, hb, Option.bind_none, Option.bind_some, hc] at hdest
      cases hdest
    | some b =>
      rw [ha, hb] at hdest
      rw [Option.map_some, Option.map_some, Option.some.injEq]
      exact (groupOf_eq_iff (hd.inRange.target_lt ha) (hd.inRange.target_lt hb)).2 hdest

theorem size_byBlocks : (d.byBlocks t).size = (d.groupsBy t).leaders.size :=
  Array.size_map ..

theorem groupOf_lt (hi : i < d.size) : d.groupOf t i < (d.byBlocks t).size := by
  rw [size_byBlocks]
  exact (ofKeys_groupsBy d t).group_lt (getElem?_groups hi)

theorem commutes_byBlocks (ht : t.Final d strict) (hd : d.WellFormed) :
    Commutes strict d (d.byBlocks t) (d.groupOf t) where
  numClasses := rfl
  lt_size := groupOf_lt
  key {i} hi := by
    obtain ⟨l, hl, -, hblock⟩ := exists_leader t hi
    obtain ⟨s, hs, hb⟩ := states_byBlocks hl
    rw [hb, Option.map_some, ← ht.key hblock, hs]
    rfl
  target k hi := target_groupOf ht hd hi k

theorem wellFormed_byBlocks (hd : d.WellFormed) (t : Blocks) :
    (d.byBlocks t).WellFormed where
  row_size s hs := by
    simp only [byBlocks, quotient, Array.mem_map] at hs
    obtain ⟨l, hl, rfl⟩ := hs
    obtain ⟨b, hb⟩ := Array.mem_iff_getElem?.1 hl
    have hlt : l < d.states.size := (leader_group hb).1
    rw [Array.getD_eq_getD_getElem?, Array.getElem?_eq_getElem hlt, Option.getD_some,
      Array.size_map]
    exact hd.row_size _ (Array.getElem_mem hlt)
  inRange := by
    constructor
    · intro s hs target ht j hj
      simp only [byBlocks, quotient, Array.mem_map] at hs
      obtain ⟨l, -, rfl⟩ := hs
      obtain ⟨target', -, rfl⟩ := Array.mem_map.1 ht
      obtain ⟨a, -, ha⟩ := Option.bind_eq_some_iff.1 hj
      rw [size_byBlocks]
      exact (ofKeys_groupsBy d t).group_lt ha
    · intro b hb
      simp only [byBlocks, quotient, Array.mem_map] at hb
      obtain ⟨i, hi, rfl⟩ := hb
      exact groupOf_lt (hd.inRange.2 i hi)

theorem isQuotient_byBlocks (ht : t.Final d strict) (hd : d.WellFormed) :
    IsQuotient strict d (d.byBlocks t) (d.groupOf t) where
  toCommutes := commutes_byBlocks ht hd
  wellFormed := wellFormed_byBlocks hd t
  starts_eq := rfl
  surjective {b} hb := by
    rw [size_byBlocks] at hb
    exact ⟨_, leader_group (Array.getElem?_eq_getElem hb)⟩
  eq_iff {i j} hi hj := by
    have hcomm := commutes_byBlocks ht hd
    have hwf := wellFormed_byBlocks hd t
    constructor
    · intro h w hw
      rw [← hcomm.outcome hd hwf hi hw, h, hcomm.outcome hd hwf hj hw]
    · exact fun h => (groupOf_eq_iff hi hj).2 (ht.joins hi hj h)

/-! ## Minimizing -/

theorem isQuotient_self (hd : d.WellFormed) (h : d.size ≤ 1) : IsQuotient strict d d id where
  toCommutes := .refl strict d
  wellFormed := hd
  starts_eq := (Array.map_id _).symm
  surjective hb := ⟨_, hb, rfl⟩
  eq_iff {i j} hi hj := by
    have : i = j := by omega
    subst this
    exact iff_of_true rfl fun w _ => rfl

theorem exists_isQuotient (hd : d.WellFormed) (strict : Bool) :
    ∃ f, IsQuotient strict d (d.minimize strict) f := by
  by_cases h : d.size ≤ 1
  · exact ⟨id, by rw [minimize, if_pos h]; exact isQuotient_self hd h⟩
  · refine ⟨d.groupOf (d.finalBlocks strict), ?_⟩
    rw [minimize_eq h]
    exact isQuotient_byBlocks (Blocks.final_finalBlocks hd strict) hd

theorem minimize?_eq_ok (hd : d.InRange) (strict : Bool) :
    d.minimize? strict = .ok (d.minimize strict) := by
  unfold minimize?
  rw [decide_eq_true hd, Bool.or_true, if_pos rfl]

/-- `m` behaves like `d`, whose states `block` maps to those of `m`: the map commutes with every
transition, and runs from corresponding starts get stuck in both automata or lead to states with
the same attributes and interchangeable actions. -/
structure Preserves (strict : Bool) (d m : Dfa) (block : Nat → Nat) : Prop where
  numClasses : m.numClasses = d.numClasses
  starts : m.starts = d.starts.map block
  block_lt : ∀ i < d.size, block i < m.size
  step : ∀ i < d.size, ∀ k < d.numClasses,
    ∃ target, d.step i k = .ok target ∧ m.step (block i) k = .ok (target.map block)
  run : ∀ (e i : Nat) (w : List Nat), d.starts[e]? = some i → d.IsWord w →
    (d.run i w = .ok none ∧ m.run (block i) w = .ok none) ∨
      ∃ a s b s', d.run i w = .ok (some a) ∧ d.states[a]? = some s ∧
        m.run (block i) w = .ok (some b) ∧ m.states[b]? = some s' ∧ s.Alike strict s'

theorem IsQuotient.preserves {m : Dfa} {f : Nat → Nat} (hf : IsQuotient strict d m f)
    (hd : d.WellFormed) : Preserves strict d m f where
  numClasses := hf.numClasses
  starts := hf.starts_eq
  block_lt i hi := hf.lt_size hi
  step i hi k hk := by
    refine ⟨_, hd.step_eq_ok hi hk, ?_⟩
    rw [hf.wellFormed.step_eq_ok (hf.lt_size hi) (hf.numClasses ▸ hk), hf.target k hi]
  run e i w he hw := by
    have hi : i < d.size := hd.inRange.2 i (Array.mem_of_getElem? he)
    rw [hd.run_eq_ok hi hw, hf.wellFormed.run_eq_ok (hf.lt_size hi) (hf.isWord.2 hw),
      hf.walk hd.inRange hi w]
    cases ha : d.walk i w with
    | none => exact .inl ⟨rfl, rfl⟩
    | some a =>
      have hlt : a < d.states.size := hd.inRange.walk_lt hi ha
      have hkey := hf.key hlt
      rw [Array.getElem?_eq_getElem hlt, Option.map_some] at hkey
      obtain ⟨s', hs', hkey⟩ := Option.map_eq_some_iff.1 hkey
      exact .inr ⟨a, _, f a, s', rfl, Array.getElem?_eq_getElem hlt, rfl, hs',
        DfaState.alike_of_key_eq hkey⟩

/-- Minimizing keeps what can be observed. -/
theorem minimize_keeps_behaviour (d : Dfa) (strict : Bool) (hd : d.WellFormed) :
    ∃ (m : Dfa) (block : Nat → Nat), d.minimize? strict = .ok m ∧ Preserves strict d m block := by
  obtain ⟨f, hf⟩ := exists_isQuotient hd strict
  exact ⟨_, f, minimize?_eq_ok hd.inRange strict, hf.preserves hd⟩

/-- Two starts that lead to final states with the same code, one of them written with blanks. -/
def twins : Dfa where
  states := #[
    ⟨#[some 1, some 2], false, false, false, none⟩,
    ⟨#[some 1, none], true, false, false, some ⟨"a", 1, false⟩⟩,
    ⟨#[some 2, none], true, false, false, some ⟨" a ", 2, false⟩⟩,
    ⟨#[some 2, some 1], false, false, false, none⟩]
  numClasses := 2
  starts := #[0, 3]

theorem minimize_keeps_behaviour_twins : twins.WellFormed ∧
    ∃ (m : Dfa) (block : Nat → Nat), twins.minimize? false = .ok m ∧
      Preserves false twins m block :=
  ⟨by decide, minimize_keeps_behaviour twins false (by decide)⟩

/-! ## The minimal automaton has no equivalent states -/

/-- `w` leads from `i` and `j` to states with different keys, or from only one of them to a
state. -/
def TellsApart (d : Dfa) (strict : Bool) (w : List Nat) (i j : Nat) : Prop :=
  match d.run i w, d.run j w with
  | .ok (some a), .ok (some b) =>
    d.states[a]?.map (·.key strict) ≠ d.states[b]?.map (·.key strict)
  | .ok (some _), .ok none => True
  | .ok none, .ok (some _) => True
  | _, _ => False

theorem WellFormed.tellsApart_iff (hd : d.WellFormed) {w : List Nat} (hi : i < d.size)
    (hj : j < d.size) (hw : d.IsWord w) :
    d.TellsApart strict w i j ↔ d.outcome strict i w ≠ d.outcome strict j w := by
  have some_state {i a : Nat} (hi : i < d.size) (ha : d.walk i w = some a) :
      ∃ s, d.states[a]? = some s :=
    ⟨_, Array.getElem?_eq_getElem (hd.inRange.walk_lt hi ha)⟩
  unfold TellsApart
  rw [outcome, outcome, hd.run_eq_ok hi hw, hd.run_eq_ok hj hw]
  cases ha : d.walk i w with
  | none =>
    cases hb : d.walk j w with
    | none => simp
    | some b =>
      obtain ⟨s, hs⟩ := some_state hj hb
      simp [hs]
  | some a =>
    obtain ⟨s, hs⟩ := some_state hi ha
    cases hb : d.walk j w with
    | none => simp [hs]
    | some b => rfl

/-- Equivalence of states, as a setoid on the states of `d`. -/
def behaviour (d : Dfa) (strict : Bool) : Setoid (Fin d.size) where
  r i j := d.Equivalent strict i j
  iseqv := ⟨fun _ _ _ => rfl, fun h => h.symm, fun h h' w hw => (h w hw).trans (h' w hw)⟩

theorem IsQuotient.exists_tellsApart {m : Dfa} {f : Nat → Nat} (hf : IsQuotient strict d m f)
    (hd : d.WellFormed) (hi : i < m.size) (hj : j < m.size) (hij : i ≠ j) :
    ∃ w, m.IsWord w ∧ m.TellsApart strict w i j := by
  obtain ⟨a, ha, rfl⟩ := hf.surjective hi
  obtain ⟨b, hb, rfl⟩ := hf.surjective hj
  rw [Ne, hf.eq_iff ha hb, Equivalent] at hij
  push Not at hij
  obtain ⟨w, hw, hne⟩ := hij
  refine ⟨w, hf.isWord.2 hw, ?_⟩
  rwa [hf.wellFormed.tellsApart_iff hi hj (hf.isWord.2 hw), hf.outcome hd hf.wellFormed ha hw,
    hf.outcome hd hf.wellFormed hb hw]

/-- The states of a quotient correspond to the classes of equivalent states. -/
theorem IsQuotient.size_eq_card {m : Dfa} {f : Nat → Nat} (hf : IsQuotient strict d m f) :
    m.size = Nat.card (Quotient (d.behaviour strict)) := by
  let g : Quotient (d.behaviour strict) → Fin m.size :=
    Quotient.lift (fun i => ⟨f i, hf.lt_size i.2⟩) fun i j h =>
      Fin.ext ((hf.eq_iff i.2 j.2).2 h)
  have hg : Function.Bijective g := by
    constructor
    · intro x y
      refine Quotient.inductionOn₂ x y fun i j h => Quotient.sound ?_
      exact (hf.eq_iff i.2 j.2).1 (congrArg Fin.val h)
    · intro b
      obtain ⟨i, hi, hb⟩ := hf.surjective b.2
      exact ⟨Quotient.mk _ ⟨i, hi⟩, Fin.ext hb⟩
  rw [Nat.card_eq_of_bijective g hg, Nat.card_eq_fintype_card, Fintype.card_fin]

theorem IsQuotient.size_le {m : Dfa} {f : Nat → Nat} (hf : IsQuotient strict d m f) :
    m.size ≤ d.size := by
  let g : Fin d.size → Fin m.size := fun i => ⟨f i, hf.lt_size i.2⟩
  have hg : Function.Surjective g := fun b =>
    let ⟨i, hi, hb⟩ := hf.surjective b.2
    ⟨⟨i, hi⟩, Fin.ext hb⟩
  simpa using Fintype.card_le_of_surjective g hg

/-- `m` is as small as an automaton for `d` can be: a word tells apart any two of its states, so it
has as many of them as `d` has classes of equivalent ones. -/
structure IsSmallest (strict : Bool) (d m : Dfa) : Prop where
  tellsApart : ∀ i j, i < m.size → j < m.size → i ≠ j →
    ∃ w, m.IsWord w ∧ m.TellsApart strict w i j
  size_eq : m.size = Nat.card (Quotient (d.behaviour strict))
  size_le : m.size ≤ d.size

/-- Minimizing leaves no two states that behave alike. -/
theorem minimize_is_smallest (d : Dfa) (strict : Bool) (hd : d.WellFormed) :
    ∃ m, d.minimize? strict = .ok m ∧ IsSmallest strict d m := by
  obtain ⟨f, hf⟩ := exists_isQuotient hd strict
  exact ⟨_, minimize?_eq_ok hd.inRange strict, fun i j => hf.exists_tellsApart hd,
    hf.size_eq_card, hf.size_le⟩

theorem minimize_is_smallest_twins : twins.WellFormed ∧
    ∃ m, twins.minimize? true = .ok m ∧ IsSmallest true twins m :=
  ⟨by decide, minimize_is_smallest twins true (by decide)⟩

end Dfa

end ScannerGen
