import ScannerGen.Proofs.Dfa.Behaviour
import ScannerGen.Proofs.Grouping
import ScannerGen.Proofs.Table.Packing

/-
  Folded tables. They have the transitions of the automaton in every encoding (`lookup_tables`) and
  the attributes of its states. All that they refer to is there (`wellFormed_tables`).
-/

namespace ScannerGen

variable {d : Dfa} {eof : EofActions} {numLex i k : Nat} {encoding : Encoding} {strict : Bool}
  {s : DfaState}

/-! ## Transitions -/

theorem Tables.lookup_eq {t : Tables} {r c : Nat} (hr : t.rowMap[i]? = some r)
    (hc : t.colMap[k]? = some c) : t.lookup i k = t.table.target t.numCols r c := by
  unfold lookup
  rw [hr, hc]

namespace Dfa

instance : Std.TransOrd (List (Option Nat)) := inferInstance

instance : Std.LawfulEqOrd (List (Option Nat)) := inferInstance

/-- The classes, grouped by their columns. -/
def foldedColumns (d : Dfa) : Grouping Nat (List (Option Nat)) :=
  .ofList d.column (List.range d.numClasses)

/-- The targets of a state on one class of every column. -/
def foldedRow (d : Dfa) (s : DfaState) : List (Option Nat) :=
  d.foldedColumns.leaders.toList.map s.target?

/-- The rows, grouped where they are equal. -/
def foldedRows (d : Dfa) : Grouping (List (Option Nat)) (List (Option Nat)) :=
  .ofList id (d.states.toList.map d.foldedRow)

theorem ofKeys_foldedColumns (d : Dfa) :
    d.foldedColumns.OfKeys d.column (List.range d.numClasses) :=
  Grouping.ofKeys_ofList _ _

theorem ofKeys_foldedRows (d : Dfa) :
    d.foldedRows.OfKeys id (d.states.toList.map d.foldedRow) :=
  Grouping.ofKeys_ofList _ _

theorem size_groups_foldedColumns (d : Dfa) : d.foldedColumns.groups.size = d.numClasses := by
  rw [(ofKeys_foldedColumns d).size_groups, List.length_range]

theorem size_groups_foldedRows (d : Dfa) : d.foldedRows.groups.size = d.size := by
  rw [(ofKeys_foldedRows d).size_groups, List.length_map, Array.length_toList, size]

theorem target?_of_column_eq {k' : Nat} (h : d.column k' = d.column k)
    (hs : d.states[i]? = some s) : s.target? k' = s.target? k := by
  have hget := congrArg (·[i]?) h
  simpa only [column, List.getElem?_map, Array.getElem?_toList, hs, Option.map_some,
    Option.some.injEq] using hget

/-- A class has the targets of the class that leads its column. -/
theorem exists_column (hk : k < d.numClasses) :
    ∃ c k', d.foldedColumns.groups[k]? = some c ∧ d.foldedColumns.leaders[c]? = some k' ∧
      d.column k' = d.column k := by
  have hlt : k < d.foldedColumns.groups.size := by rwa [size_groups_foldedColumns]
  have hc := Array.getElem?_eq_getElem hlt
  obtain ⟨k', hk', heq⟩ := (ofKeys_foldedColumns d).leader_key (List.getElem?_range hk) hc
  exact ⟨_, k', hc, hk', heq⟩

theorem getElem?_foldedRow (hs : d.states[i]? = some s) :
    (d.states.toList.map d.foldedRow)[i]? = some (d.foldedRow s) := by
  rw [List.getElem?_map, Array.getElem?_toList, hs, Option.map_some]

theorem exists_row (hs : d.states[i]? = some s) :
    ∃ r : Nat, d.foldedRows.groups[i]? = some r ∧
      d.foldedRows.leaders[r]? = some (d.foldedRow s) := by
  have hrow := getElem?_foldedRow hs
  have hlt : i < d.foldedRows.groups.size := by
    rw [(ofKeys_foldedRows d).size_groups]
    exact (List.getElem?_eq_some_iff.1 hrow).1
  have hr := Array.getElem?_eq_getElem hlt
  obtain ⟨row, hrow', heq⟩ := (ofKeys_foldedRows d).leader_key hrow hr
  rw [id, id] at heq
  exact ⟨_, hr, heq ▸ hrow'⟩

theorem length_foldedRows : ∀ row ∈ d.foldedRows.leaders.toList,
    row.length = d.foldedColumns.leaders.size := by
  intro row hrow
  obtain ⟨r, hr⟩ := Array.mem_iff_getElem?.1 (Array.mem_toList_iff.1 hrow)
  obtain ⟨i, hi, -⟩ := (ofKeys_foldedRows d).leader hr
  obtain ⟨s, -, rfl⟩ := List.mem_map.1 (List.mem_of_getElem? hi)
  unfold foldedRow
  rw [List.length_map, Array.length_toList]

theorem InRange.lt_of_mem_foldedRows (hd : d.InRange) {row : List (Option Nat)}
    (hrow : row ∈ d.foldedRows.leaders.toList) {j : Nat} (hj : some j ∈ row) : j < d.size := by
  obtain ⟨r, hr⟩ := Array.mem_iff_getElem?.1 (Array.mem_toList_iff.1 hrow)
  obtain ⟨i, hi, -⟩ := (ofKeys_foldedRows d).leader hr
  obtain ⟨s, hs, rfl⟩ := List.mem_map.1 (List.mem_of_getElem? hi)
  obtain ⟨k, -, htarget⟩ := List.mem_map.1 hj
  obtain ⟨i', hs⟩ := Array.mem_iff_getElem?.1 (Array.mem_toList_iff.1 hs)
  exact hd.target_lt ((target?_eq hs k).trans htarget)

/-- The tables have the transitions of the automaton. -/
theorem lookup_tables (hi : i < d.size) (hk : k < d.numClasses) :
    (d.tables eof numLex encoding strict).lookup i k = .ok (d.target? i k) := by
  have hs : d.states[i]? = some d.states[i] := Array.getElem?_eq_getElem hi
  obtain ⟨r, hr, hrow⟩ := exists_row hs
  obtain ⟨c, k', hc, hk', hcolumn⟩ := exists_column hk
  have hcell : (d.foldedRow d.states[i])[c]? = some (d.target? i k) := by
    rw [foldedRow, List.getElem?_map, Array.getElem?_toList, hk', Option.map_some,
      target?_of_column_eq hcolumn hs, target?_eq hs]
  have hleader : d.foldedRows.leaders.toList[r]? = some (d.foldedRow d.states[i]) := by
    rw [Array.getElem?_toList, hrow]
  apply (Tables.lookup_eq (t := d.tables eof numLex encoding strict) hr hc).trans
  exact target_ofRows encoding length_foldedRows hleader hcell

end Dfa

/-- The tables are of the size of `d`, have its starts, and on every class lead from every state to
where `d` itself leads, or nowhere if it does not lead on. -/
structure Tables.Transparent (t : Tables) (d : Dfa) : Prop where
  numStates_eq : t.numStates = d.size
  numClasses_eq : t.numClasses = d.numClasses
  starts_eq : t.starts = d.starts
  lookup_eq : ∀ i < d.size, ∀ k < d.numClasses,
    ∃ target?, d.step i k = .ok target? ∧ t.lookup i k = .ok target?

theorem Dfa.transparent_tables (h : ∀ s ∈ d.states, s.targets.size = d.numClasses) :
    (d.tables eof numLex encoding strict).Transparent d where
  numStates_eq := rfl
  numClasses_eq := rfl
  starts_eq := rfl
  lookup_eq _ hi _ hk := ⟨_, step_eq_ok h hi hk, lookup_tables hi hk⟩

theorem Dfa.encoding_tables : (d.tables eof numLex encoding strict).table.encoding = encoding := by
  cases encoding <;> rfl

/-- Whatever the encoding, nothing of the transitions is lost in the tables, if the ids suffice for
the classes. -/
theorem Dfa.tables_are_transparent (d : Dfa) (eof : EofActions) (numLex : Nat)
    (encoding : Encoding) (strict : Bool) (h : ∀ s ∈ d.states, s.targets.size = d.numClasses)
    (hclasses : d.numClasses ≤ lastWord) (hlex : fitsMemory cellBytes numLex = true) :
    ∃ t, d.tables? eof numLex encoding strict = .ok t ∧ t.table.encoding = encoding ∧
      t.Transparent d :=
  ⟨_, tables?_eq_ok hclasses hlex eof encoding strict, encoding_tables, transparent_tables h⟩

/-- Two pairs of equal columns, two equal rows, a row without targets and one with targets that are
no states. -/
def repeats : Dfa where
  states :=
    #[⟨#[some 1, none, some 1, none], false, false, false, none⟩,
      ⟨#[none, none, none, none], true, false, false, some ⟨"a", 3, false⟩⟩,
      ⟨#[some 1, none, some 1, none], true, true, false, some ⟨" a ", 5, false⟩⟩,
      ⟨#[some 9, some 2, some 9, some 2], false, false, true, none⟩]
  numClasses := 4
  starts := #[0, 3]

theorem Dfa.tables_are_transparent_repeats :
    (∀ s ∈ repeats.states, s.targets.size = repeats.numClasses) ∧ repeats.numClasses ≤ lastWord ∧
      fitsMemory cellBytes 1 = true ∧
      ∃ t, repeats.tables? .empty 1 .branches false = .ok t ∧ t.table.encoding = .branches ∧
        t.Transparent repeats :=
  ⟨by decide, by decide, by decide,
    repeats.tables_are_transparent .empty 1 .branches false (by decide) (by decide) (by decide)⟩

/-- One state, without targets. -/
def oneBlank (numClasses : Nat) : Dfa := ⟨#[.blank numClasses], numClasses, #[]⟩

theorem step_oneBlank {n : Nat} (hn : 0 < n) :
    (∀ s ∈ (oneBlank n).states, s.targets.size = (oneBlank n).numClasses) ∧
      (oneBlank n).step 0 0 = .ok none := by
  have hsized : ∀ s ∈ (oneBlank n).states, s.targets.size = (oneBlank n).numClasses := by
    intro s hs
    rw [Array.mem_singleton.1 hs]
    exact Array.size_replicate
  have htarget : (oneBlank n).target? 0 0 = none := by
    simp [oneBlank, Dfa.target?, DfaState.target?, DfaState.blank, hn]
  exact ⟨hsized, by rw [Dfa.step_eq_ok hsized Nat.zero_lt_one hn, htarget]⟩

/-- No states. -/
def stateless (numClasses : Nat) : Dfa := ⟨#[], numClasses, #[]⟩

/-- With one class more than there are ids the number of classes is taken for zero, and nothing can
be looked up. If the map of the classes or that of the lexical states cannot be stored, there are no
tables at all. -/
theorem Dfa.wide_tables_lose_transitions :
    ((∀ s ∈ (oneBlank (lastWord + 1)).states,
        s.targets.size = (oneBlank (lastWord + 1)).numClasses) ∧
      (oneBlank (lastWord + 1)).step 0 0 = .ok none ∧
      ∃ t, (oneBlank (lastWord + 1)).tables? .empty 0 .dense false = .ok t ∧
        t.lookup 0 0 = .error .noSuchClass) ∧
    (∀ s ∈ (stateless 0x4000000000000000).states,
        s.targets.size = (stateless 0x4000000000000000).numClasses) ∧
      (stateless 0x4000000000000000).tables? .empty 0 .dense false = .error .beyondCapacity ∧
      (stateless 0).tables? .empty 0x2000000000000000 .dense false = .error .beyondCapacity := by
  obtain ⟨hsized, hstep⟩ := step_oneBlank (n := lastWord + 1) (by decide)
  exact ⟨⟨hsized, hstep, _, rfl, rfl⟩, by decide, rfl, rfl⟩

/-- All rows, columns and states that the tables refer to are there. -/
structure Tables.WellFormed (t : Tables) : Prop where
  size_rowMap : t.rowMap.size = t.numStates
  size_colMap : t.colMap.size = t.numClasses
  row_lt : ∀ r ∈ t.rowMap, r < t.numRows
  col_lt : ∀ c ∈ t.colMap, c < t.numCols
  start_lt : ∀ i ∈ t.starts, i < t.numStates
  lookup : ∀ i < t.numStates, ∀ k < t.numClasses,
    ∃ target?, t.lookup i k = .ok target? ∧ ∀ j ∈ target?, j < t.numStates

theorem Dfa.InRange.wellFormed_tables (hd : d.InRange) (eof : EofActions) (numLex : Nat)
    (encoding : Encoding) (strict : Bool) :
    (d.tables eof numLex encoding strict).WellFormed where
  size_rowMap := size_groups_foldedRows d
  size_colMap := size_groups_foldedColumns d
  row_lt r hr := by
    obtain ⟨i, hi⟩ := Array.mem_iff_getElem?.1 hr
    exact (ofKeys_foldedRows d).group_lt hi
  col_lt c hc := by
    obtain ⟨k, hk⟩ := Array.mem_iff_getElem?.1 hc
    exact (ofKeys_foldedColumns d).group_lt hk
  start_lt := hd.2
  lookup i hi k hk := ⟨_, lookup_tables hi hk, fun _ hj => hd.target_lt hj⟩

/-! ## Attributes -/

/-- State `i` has the attribute. -/
def Tables.HasBit (t : Tables) (bit i : Nat) : Prop :=
  ∃ a, t.attributes[i]? = some a ∧ a &&& bit ≠ 0

namespace Dfa

theorem hasBit_tables (hs : d.states[i]? = some s) (bit : Nat) :
    (d.tables eof numLex encoding strict).HasBit bit i ↔ s.attributes &&& bit ≠ 0 := by
  have hget : (d.tables eof numLex encoding strict).attributes[i]? = some s.attributes := by
    show (d.states.map (·.attributes))[i]? = _
    rw [Array.getElem?_map, hs, Option.map_some]
  simp only [Tables.HasBit, hget, Option.some.injEq, exists_eq_left']

theorem finalBit_iff (hs : d.states[i]? = some s) :
    (d.tables eof numLex encoding strict).HasBit finalBit i ↔ s.isFinal = true := by
  rw [hasBit_tables hs, DfaState.attributes]
  cases s.isFinal <;> cases s.isPushback <;> cases s.isLookEnd <;> cases s.hasTransitions <;> decide

/-- Only states have attributes. -/
theorem exists_final (h : (d.tables eof numLex encoding strict).HasBit finalBit i) :
    ∃ s, d.states[i]? = some s ∧ s.isFinal = true := by
  have hlt : i < d.states.size := by
    obtain ⟨_, hattributes, -⟩ := h
    simpa [tables, foldTables] using (Array.getElem?_eq_some_iff.1 hattributes).1
  have hs := Array.getElem?_eq_getElem hlt
  exact ⟨d.states[i], hs, (finalBit_iff hs).1 h⟩

theorem lookEndBit_iff (hs : d.states[i]? = some s) :
    (d.tables eof numLex encoding strict).HasBit lookEndBit i ↔ s.isLookEnd = true := by
  rw [hasBit_tables hs, DfaState.attributes]
  cases s.isFinal <;> cases s.isPushback <;> cases s.isLookEnd <;> cases s.hasTransitions <;> decide

end Dfa

end ScannerGen
