import ScannerGen.Proofs.Table.Folding

/-
  The folded matrix keeps nothing twice and loses nothing. Rows are compared on one class of every
  column only. States that agree on these classes agree on all (`foldedRow_eq_iff`), so rows are
  shared exactly by states that no class tells apart. Two columns that are kept differ in some
  state, hence also in its row, and no row or column is kept that nothing refers to
  (`irredundant_tables`).
-/

namespace ScannerGen

variable {d : Dfa} {eof : EofActions} {numLex i j k l : Nat} {encoding : Encoding} {strict : Bool}
  {s s' : DfaState}

namespace Dfa

/-! ## What folding compares -/

/-- Classes have one column exactly if no state tells them apart. -/
theorem column_eq_iff : d.column k = d.column l ↔ ∀ i < d.size, d.target? i k = d.target? i l := by
  unfold column
  rw [List.map_inj_left]
  constructor
  · intro h i hi
    have hs : d.states[i]? = some d.states[i] := Array.getElem?_eq_getElem hi
    rw [target?_eq hs, target?_eq hs]
    exact h _ (Array.mem_toList_iff.2 (Array.getElem_mem hi))
  · intro h s hs
    obtain ⟨i, hi⟩ := Array.mem_iff_getElem?.1 (Array.mem_toList_iff.1 hs)
    have hlt : i < d.size := (Array.getElem?_eq_some_iff.1 hi).1
    rw [← target?_eq hi, ← target?_eq hi]
    exact h i hlt

theorem leader_lt {k' c : Nat} (h : d.foldedColumns.leaders[c]? = some k') : k' < d.numClasses := by
  obtain ⟨i, hi, -⟩ := (ofKeys_foldedColumns d).leader h
  exact List.mem_range.1 (List.mem_of_getElem? hi)

/-- To agree on one class of every column is to agree on all classes. -/
theorem foldedRow_eq_iff (hs : d.states[i]? = some s) (hs' : d.states[j]? = some s') :
    d.foldedRow s = d.foldedRow s' ↔ ∀ k < d.numClasses, d.target? i k = d.target? j k := by
  unfold foldedRow
  rw [List.map_inj_left]
  constructor
  · intro h k hk
    obtain ⟨c, k', -, hk', hcolumn⟩ := exists_column hk
    have hlead := h k' (Array.mem_toList_iff.2 (Array.mem_of_getElem? hk'))
    rw [target?_eq hs, target?_eq hs', ← target?_of_column_eq hcolumn hs,
      ← target?_of_column_eq hcolumn hs', hlead]
  · intro h k hk
    obtain ⟨c, hc⟩ := Array.mem_iff_getElem?.1 (Array.mem_toList_iff.1 hk)
    rw [← target?_eq hs, ← target?_eq hs']
    exact h k (leader_lt hc)

theorem group_column_eq_iff (hk : k < d.numClasses) (hl : l < d.numClasses) :
    d.foldedColumns.groups[k]? = d.foldedColumns.groups[l]? ↔
      ∀ i < d.size, d.target? i k = d.target? i l := by
  rw [(ofKeys_foldedColumns d).group_eq_iff (List.getElem?_range hk) (List.getElem?_range hl),
    column_eq_iff]

theorem group_row_eq_iff (hi : i < d.size) (hj : j < d.size) :
    d.foldedRows.groups[i]? = d.foldedRows.groups[j]? ↔
      ∀ k < d.numClasses, d.target? i k = d.target? j k := by
  have hs : d.states[i]? = some d.states[i] := Array.getElem?_eq_getElem hi
  have hs' : d.states[j]? = some d.states[j] := Array.getElem?_eq_getElem hj
  rw [(ofKeys_foldedRows d).group_eq_iff (getElem?_foldedRow hs) (getElem?_foldedRow hs'), id, id,
    foldedRow_eq_iff hs hs']

/-! ## The stored matrix -/

/-- The cell of a row and a column has the target of every state and class that refer to them. -/
theorem cell_tables {r c : Nat} (hi : i < d.size) (hk : k < d.numClasses)
    (hr : d.foldedRows.groups[i]? = some r) (hc : d.foldedColumns.groups[k]? = some c) :
    (d.tables eof numLex encoding strict).table.target
      (d.tables eof numLex encoding strict).numCols r c = .ok (d.target? i k) := by
  rw [← Tables.lookup_eq (t := d.tables eof numLex encoding strict) hr hc]
  exact lookup_tables hi hk

theorem exists_state_of_row {r : Nat} (hr : r < d.foldedRows.leaders.size) :
    ∃ i < d.size, d.foldedRows.groups[i]? = some r := by
  obtain ⟨i, hi, hgroup⟩ := (ofKeys_foldedRows d).exists_entry hr
  rw [List.length_map, Array.length_toList] at hi
  exact ⟨i, hi, hgroup⟩

theorem exists_class_of_column {c : Nat} (hc : c < d.foldedColumns.leaders.size) :
    ∃ k < d.numClasses, d.foldedColumns.groups[k]? = some c := by
  obtain ⟨k, hk, hgroup⟩ := (ofKeys_foldedColumns d).exists_entry hc
  rw [List.length_range] at hk
  exact ⟨k, hk, hgroup⟩

/-- A class tells the states of two rows apart, and its column the rows. -/
theorem exists_cell_of_rows_ne {r r' : Nat} (hr : r < d.foldedRows.leaders.size)
    (hr' : r' < d.foldedRows.leaders.size) (hne : r ≠ r') :
    ∃ c < d.foldedColumns.leaders.size,
      (d.tables eof numLex encoding strict).table.target
          (d.tables eof numLex encoding strict).numCols r c ≠
        (d.tables eof numLex encoding strict).table.target
          (d.tables eof numLex encoding strict).numCols r' c := by
  obtain ⟨i, hi, hgi⟩ := exists_state_of_row hr
  obtain ⟨j, hj, hgj⟩ := exists_state_of_row hr'
  have hsplit : ¬∀ k < d.numClasses, d.target? i k = d.target? j k := by
    rw [← group_row_eq_iff hi hj, hgi, hgj, Option.some.injEq]
    exact hne
  push Not at hsplit
  obtain ⟨k, hk, hsplit⟩ := hsplit
  obtain ⟨c, -, hc, -⟩ := exists_column hk
  refine ⟨c, (ofKeys_foldedColumns d).group_lt hc, ?_⟩
  rw [cell_tables hi hk hgi hc, cell_tables hj hk hgj hc, ne_eq, Except.ok.injEq]
  exact hsplit

/-- A state tells the classes of two columns apart, and its row the columns. -/
theorem exists_cell_of_columns_ne {c c' : Nat} (hc : c < d.foldedColumns.leaders.size)
    (hc' : c' < d.foldedColumns.leaders.size) (hne : c ≠ c') :
    ∃ r < d.foldedRows.leaders.size,
      (d.tables eof numLex encoding strict).table.target
          (d.tables eof numLex encoding strict).numCols r c ≠
        (d.tables eof numLex encoding strict).table.target
          (d.tables eof numLex encoding strict).numCols r c' := by
  obtain ⟨k, hk, hgk⟩ := exists_class_of_column hc
  obtain ⟨l, hl, hgl⟩ := exists_class_of_column hc'
  have hsplit : ¬∀ i < d.size, d.target? i k = d.target? i l := by
    rw [← group_column_eq_iff hk hl, hgk, hgl, Option.some.injEq]
    exact hne
  push Not at hsplit
  obtain ⟨i, hi, hsplit⟩ := hsplit
  obtain ⟨r, hr, -⟩ := exists_row (Array.getElem?_eq_getElem hi)
  refine ⟨r, (ofKeys_foldedRows d).group_lt hr, ?_⟩
  rw [cell_tables hi hk hr hgk, cell_tables hi hl hr hgl, ne_eq, Except.ok.injEq]
  exact hsplit

end Dfa

/-- The tables share all rows and columns that can be shared, and no others: two states or classes
refer to one row or column exactly if `d` does not tell them apart, the matrix has no two equal rows
and no two equal columns, and something refers to each of them. -/
structure Tables.Irredundant (t : Tables) (d : Dfa) : Prop where
  size_rowMap : t.rowMap.size = d.size
  size_colMap : t.colMap.size = d.numClasses
  colMap_eq_iff : ∀ k < d.numClasses, ∀ l < d.numClasses,
    (t.colMap[k]? = t.colMap[l]? ↔ ∀ i < d.size, d.step i k = d.step i l)
  rowMap_eq_iff : ∀ i < d.size, ∀ j < d.size,
    (t.rowMap[i]? = t.rowMap[j]? ↔ ∀ k < d.numClasses, d.step i k = d.step j k)
  cell : ∀ i < d.size, ∀ k < d.numClasses, ∃ r < t.numRows, ∃ c < t.numCols, ∃ target?,
    t.rowMap[i]? = some r ∧ t.colMap[k]? = some c ∧ d.step i k = .ok target? ∧
      t.table.target t.numCols r c = .ok target?
  rows_differ : ∀ r < t.numRows, ∀ r' < t.numRows, r ≠ r' →
    ∃ c < t.numCols, t.table.target t.numCols r c ≠ t.table.target t.numCols r' c
  cols_differ : ∀ c < t.numCols, ∀ c' < t.numCols, c ≠ c' →
    ∃ r < t.numRows, t.table.target t.numCols r c ≠ t.table.target t.numCols r c'
  row_used : ∀ r < t.numRows, ∃ i < d.size, t.rowMap[i]? = some r
  col_used : ∀ c < t.numCols, ∃ k < d.numClasses, t.colMap[k]? = some c

namespace Dfa

theorem irredundant_tables (h : ∀ s ∈ d.states, s.targets.size = d.numClasses) :
    (d.tables eof numLex encoding strict).Irredundant d where
  size_rowMap := size_groups_foldedRows d
  size_colMap := size_groups_foldedColumns d
  colMap_eq_iff k hk l hl := by
    refine (group_column_eq_iff hk hl).trans (forall₂_congr fun i hi => ?_)
    rw [step_eq_ok h hi hk, step_eq_ok h hi hl, Except.ok.injEq]
  rowMap_eq_iff i hi j hj := by
    refine (group_row_eq_iff hi hj).trans (forall₂_congr fun k hk => ?_)
    rw [step_eq_ok h hi hk, step_eq_ok h hj hk, Except.ok.injEq]
  cell i hi k hk := by
    obtain ⟨r, hr, -⟩ := exists_row (d := d) (Array.getElem?_eq_getElem hi)
    obtain ⟨c, -, hc, -⟩ := exists_column hk
    exact ⟨r, (ofKeys_foldedRows d).group_lt hr, c, (ofKeys_foldedColumns d).group_lt hc, _, hr, hc,
      step_eq_ok h hi hk, cell_tables hi hk hr hc⟩
  rows_differ _ hr _ hr' hne := exists_cell_of_rows_ne hr hr' hne
  cols_differ _ hc _ hc' hne := exists_cell_of_columns_ne hc hc' hne
  row_used _ hr := exists_state_of_row hr
  col_used _ hc := exists_class_of_column hc

/-- Folding is exact and cannot be carried further, whatever the encoding, if the ids suffice for
the classes. -/
theorem tables_are_irredundant (d : Dfa) (eof : EofActions) (numLex : Nat) (encoding : Encoding)
    (strict : Bool) (h : ∀ s ∈ d.states, s.targets.size = d.numClasses)
    (hclasses : d.numClasses ≤ lastWord) (hlex : fitsMemory cellBytes numLex = true) :
    ∃ t, d.tables? eof numLex encoding strict = .ok t ∧ t.Irredundant d :=
  ⟨_, tables?_eq_ok hclasses hlex eof encoding strict, irredundant_tables h⟩

/-- Of the four classes of `repeats` two columns are left, and of its four states three rows. -/
theorem tables_are_irredundant_repeats :
    ((∀ s ∈ repeats.states, s.targets.size = repeats.numClasses) ∧ repeats.numClasses ≤ lastWord ∧
      fitsMemory cellBytes 1 = true ∧
      ∃ t, repeats.tables? .empty 1 .packed true = .ok t ∧ t.Irredundant repeats) ∧
    (repeats.tables .empty 1 .packed true).rowMap = #[0, 1, 0, 2] ∧
      (repeats.tables .empty 1 .packed true).colMap = #[0, 1, 0, 1] :=
  ⟨⟨by decide, by decide, by decide,
      repeats.tables_are_irredundant .empty 1 .packed true (by decide) (by decide) (by decide)⟩,
    by decide, by decide⟩

/-- Without states all columns are equal, and one of them is kept, unless the number of the classes
is taken for zero. If a map cannot be stored, there are no tables. -/
theorem wide_tables_lose_columns :
    ((∀ s ∈ (stateless (lastWord + 1)).states,
        s.targets.size = (stateless (lastWord + 1)).numClasses) ∧
      ∃ t, (stateless (lastWord + 1)).tables? .empty 0 .dense false = .ok t ∧
        t.colMap = #[] ∧ t.numCols = 0 ∧ ¬t.Irredundant (stateless (lastWord + 1))) ∧
    (∀ s ∈ (stateless 0x4000000000000000).states,
        s.targets.size = (stateless 0x4000000000000000).numClasses) ∧
      (stateless 0x4000000000000000).tables? .empty 0 .dense false = .error .beyondCapacity ∧
      (stateless 0).tables? .empty 0x2000000000000000 .dense false = .error .beyondCapacity := by
  refine ⟨⟨by decide, _, rfl, rfl, rfl, fun h => ?_⟩, by decide, rfl, rfl⟩
  have hsize : 0 = lastWord + 1 := h.size_colMap
  cases hsize

end Dfa

end ScannerGen
