import ScannerGen.Proofs.Sorted
import ScannerGen.Table.OfDfa

/-
  The forms of a matrix. Runs give back the list that was packed (`unpack_pack`), and a row as
  branches has the targets of the row (`target_branchRow`). So every form of a matrix has its cells
  (`target_ofRows`).
-/

namespace ScannerGen

variable {x : Option Nat} {i col : Nat} {row : List (Option Nat)} {cols : IdSet}

/-! ## Runs -/

theorem unpack_cons (n : Nat) (x : Option Nat) (runs : List (Nat × Option Nat)) :
    unpack ((n, x) :: runs) = List.replicate n x ++ unpack runs := rfl

theorem unpack_packFrom (n : Nat) (x : Option Nat) (l : List (Option Nat)) :
    unpack (packFrom n x l) = List.replicate n x ++ l := by
  induction l generalizing n x with
  | nil => exact unpack_cons n x []
  | cons y l ih =>
    unfold packFrom
    split
    · next h =>
      rw [Bool.and_eq_true, decide_eq_true_eq] at h
      rw [ih, h.1, List.replicate_succ', List.append_assoc, List.singleton_append]
    · rw [unpack_cons, ih]
      rfl

theorem unpack_pack (l : List (Option Nat)) : unpack (pack l) = l := by
  cases l with
  | nil => rfl
  | cons x l => exact unpack_packFrom 1 x l

theorem mem_packFrom {run : Nat × Option Nat} {count : Nat} {x : Option Nat}
    {l : List (Option Nat)} (h : run ∈ packFrom count x l) : run.2 = x ∨ run.2 ∈ l := by
  induction l generalizing count x with
  | nil => exact .inl (congrArg Prod.snd (List.mem_singleton.1 h))
  | cons y l ih =>
    unfold packFrom at h
    split at h
    · exact (ih h).imp_right (List.mem_cons_of_mem y)
    · rcases List.mem_cons.1 h with rfl | h
      · exact .inl rfl
      · exact .inr (List.mem_cons.2 (ih h))

/-- The targets of the runs are those that were packed. -/
theorem mem_of_mem_pack {run : Nat × Option Nat} {l : List (Option Nat)} (h : run ∈ pack l) :
    run.2 ∈ l := by
  cases l with
  | nil => cases h
  | cons x l => exact List.mem_cons.2 (mem_packFrom h)

/-- The walk over the runs gives what the unpacked list has. -/
theorem runTarget_eq (runs : List (Nat × Option Nat)) (i : Nat) :
    runTarget runs i = (unpack runs)[i]?.join := by
  induction runs generalizing i with
  | nil => rfl
  | cons run runs ih =>
    obtain ⟨n, x⟩ := run
    unfold runTarget
    rw [unpack_cons, List.getElem?_append, List.length_replicate]
    split
    · next h => rw [List.getElem?_replicate, if_pos h, Option.join_some]
    · exact ih (i - n)

theorem sum_counts (runs : List (Nat × Option Nat)) :
    runs.foldr (·.1 + ·) 0 = (unpack runs).length := by
  induction runs with
  | nil => rfl
  | cons run runs ih =>
    rw [List.foldr_cons, ih, unpack_cons, List.length_append, List.length_replicate]

/-! ## Branches -/

/-- The columns without a target. -/
def missingColumns (row : List (Option Nat)) : IdSet :=
  .ofList (row.zipIdx.filterMap fun (target?, col) => if target?.isNone then some col else none)

theorem mem_missingColumns : col ∈ missingColumns row ↔ row[col]? = some none := by
  unfold missingColumns
  rw [IdSet.mem_ofList, List.mem_filterMap]
  constructor
  · intro ⟨⟨x, c⟩, hx, h⟩
    rw [Option.ite_none_right_eq_some, Option.some.injEq, Option.isNone_iff_eq_none] at h
    obtain ⟨rfl, rfl⟩ := h
    exact List.mem_zipIdx_iff_getElem?.1 hx
  · exact fun h => ⟨(none, col), List.mem_zipIdx_iff_getElem?.2 h, rfl⟩

theorem mem_present {j : Nat} : (j, col) ∈ row.zipIdx.filterMap (fun (target?, col) =>
    target?.map (·, col)) ↔ row[col]? = some (some j) := by
  rw [List.mem_filterMap]
  constructor
  · intro ⟨⟨x, c⟩, hx, h⟩
    obtain ⟨j', rfl, heq⟩ := Option.map_eq_some_iff.1 h
    obtain ⟨rfl, rfl⟩ := Prod.mk.inj heq
    exact List.mem_zipIdx_iff_getElem?.1 hx
  · exact fun h => ⟨(some j, col), List.mem_zipIdx_iff_getElem?.2 h, rfl⟩

theorem mem_targetColumns (h : (x, cols) ∈ targetColumns row) (col : Nat) :
    col ∈ cols ↔ row[col]? = some x := by
  rcases List.mem_append.1 h with h | h
  · obtain ⟨⟨j, s⟩, hs, heq⟩ := List.mem_map.1 h
    obtain ⟨rfl, rfl⟩ := Prod.mk.inj heq
    rw [(mem_gather_iff.1 hs).2, mem_present]
  · split at h
    · cases h
    · obtain ⟨rfl, rfl⟩ := Prod.mk.inj (List.mem_singleton.1 h)
      exact mem_missingColumns

theorem exists_mem_targetColumns (h : row[col]? = some x) :
    ∃ cols, (x, cols) ∈ targetColumns row := by
  cases x with
  | some j =>
    obtain ⟨s, hs⟩ := exists_mem_gather (mem_present.2 h)
    exact ⟨s, List.mem_append_left _ (List.mem_map.2 ⟨_, hs, rfl⟩)⟩
  | none =>
    have hmem : col ∈ (missingColumns row).toList := mem_missingColumns.2 h
    have hne : ¬(missingColumns row).isEmpty = true := fun hempty =>
      List.ne_nil_of_mem hmem (List.isEmpty_iff.1 hempty)
    refine ⟨missingColumns row, List.mem_append_right _ ?_⟩
    exact (if_neg hne).symm ▸ List.mem_singleton_self _

/-- A column that is in no case has the default. -/
theorem target_branchRow (h : row[col]? = some x) : (branchRow row).target col = x := by
  unfold BranchRow.target
  split
  · next y cols hfind =>
    have hmem : (y, cols) ∈ targetColumns row :=
      (List.mem_filter.1 (List.mem_of_find?_eq_some hfind)).1
    have hcol : col ∈ cols := by simpa using List.find?_some hfind
    have hy := (mem_targetColumns hmem col).1 hcol
    rw [h, Option.some.injEq] at hy
    exact hy.symm
  · next hfind =>
    obtain ⟨cols, hcols⟩ := exists_mem_targetColumns h
    apply Decidable.byContradiction
    intro hne
    have hcase : (x, cols) ∈ (branchRow row).cases :=
      List.mem_filter.2 ⟨hcols, decide_eq_true (Ne.symm hne)⟩
    have := List.find?_eq_none.1 hfind _ hcase
    exact this (decide_eq_true ((mem_targetColumns hcols col).2 h))

/-! ## Matrices -/

theorem getElem?_flatten {α : Type} {n r c : Nat} {rows : List (List α)} {row : List α} {x : α}
    (hlen : ∀ row ∈ rows, row.length = n) (hr : rows[r]? = some row) (hc : row[c]? = some x) :
    rows.flatten[r * n + c]? = some x := by
  induction rows generalizing r with
  | nil => cases hr
  | cons first rows ih =>
    obtain ⟨hfirst, hlen⟩ := List.forall_mem_cons.1 hlen
    rw [List.flatten_cons]
    cases r with
    | zero =>
      rw [List.getElem?_cons_zero, Option.some.injEq] at hr
      subst hr
      rw [Nat.zero_mul, Nat.zero_add, List.getElem?_append_left, hc]
      exact (List.getElem?_eq_some_iff.1 hc).1
    | succ r =>
      rw [List.getElem?_cons_succ] at hr
      have hindex : (r + 1) * n + c = first.length + (r * n + c) := by
        rw [hfirst, Nat.succ_mul]
        omega
      rw [hindex, List.getElem?_append_right (Nat.le_add_right ..), Nat.add_sub_cancel_left]
      exact ih hlen hr

/-- Every form of a matrix has its cells. -/
theorem target_ofRows {n r c : Nat} {rows : List (List (Option Nat))} (encoding : Encoding)
    (hlen : ∀ row ∈ rows, row.length = n) (hr : rows[r]? = some row) (hc : row[c]? = some x) :
    (EncodedTable.ofRows encoding rows).target n r c = .ok x := by
  have hcell := getElem?_flatten hlen hr hc
  cases encoding with
  | dense =>
    have : rows.flatten.toArray[r * n + c]? = some x := by rw [List.getElem?_toArray, hcell]
    simp only [EncodedTable.ofRows, EncodedTable.target, this]
  | packed =>
    have hlt : r * n + c < (pack rows.flatten).foldr (·.1 + ·) 0 := by
      rw [sum_counts, unpack_pack]
      exact (List.getElem?_eq_some_iff.1 hcell).1
    simp only [EncodedTable.ofRows, EncodedTable.target, hlt, decide_true, Bool.or_true, if_true,
      runTarget_eq, unpack_pack, hcell, Option.join_some]
  | branches =>
    have : (rows.map branchRow).toArray[r]? = some (branchRow row) := by
      rw [List.getElem?_toArray, List.getElem?_map, hr, Option.map_some]
    simp only [EncodedTable.ofRows, EncodedTable.target, this, target_branchRow hc]

end ScannerGen
