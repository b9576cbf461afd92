import Mathlib.Data.List.Nodup
import Mathlib.Data.List.Perm.Subperm
import ScannerGen.Proofs.Table.Packing

/-
  The size of a row as branches. Branches for a row need, for every target but their default, cases
  with all columns of this target (`caseWords_le_of_covers`), and no case serves two targets
  (`caseWords_le_of_forall`). So they take at least the words of the targets other than their
  default, which are fewest if the default is the target with the most columns
  (`branchRow_is_smallest`).
-/

namespace ScannerGen

variable {x : Option Nat} {cols : IdSet} {row : List (Option Nat)} {b : BranchRow}
  {cs ds : List (Option Nat × IdSet)}

/-! ## Words of cases -/

/-- The words that cases take. -/
def caseWords (cs : List (Option Nat × IdSet)) : Nat := cs.foldr (fun c n => 1 + c.2.size + n) 0

/-- The cases with the target `x`. -/
def casesOf (x : Option Nat) (cs : List (Option Nat × IdSet)) : List (Option Nat × IdSet) :=
  cs.filter (·.1 = x)

@[simp] theorem caseWords_nil : caseWords [] = 0 := rfl

@[simp] theorem caseWords_cons (c : Option Nat × IdSet) :
    caseWords (c :: cs) = 1 + c.2.size + caseWords cs := rfl

theorem BranchRow.size_eq (b : BranchRow) : b.size = 1 + caseWords b.cases := by
  obtain ⟨x, cs⟩ := b
  show cs.foldr _ 1 = _
  induction cs with
  | nil => rfl
  | cons c cs ih => rw [List.foldr_cons, ih, caseWords_cons, Nat.add_left_comm]

theorem mem_casesOf {c : Option Nat × IdSet} : c ∈ casesOf x cs ↔ c ∈ cs ∧ c.1 = x := by
  rw [casesOf, List.mem_filter, decide_eq_true_eq]

/-- Cases with one target and the others. -/
theorem caseWords_eq_add (x : Option Nat) (cs : List (Option Nat × IdSet)) :
    caseWords cs = caseWords (casesOf x cs) + caseWords (cs.filter (·.1 ≠ x)) := by
  induction cs with
  | nil => rfl
  | cons c cs ih =>
    unfold casesOf at ih ⊢
    by_cases h : c.1 = x
    · rw [List.filter_cons_of_pos (by simpa using h), List.filter_cons_of_neg (by simpa using h),
        caseWords_cons, caseWords_cons, ih]
      omega
    · rw [List.filter_cons_of_neg (by simpa using h), List.filter_cons_of_pos (by simpa using h),
        caseWords_cons, caseWords_cons, ih]
      omega

/-- Columns that all stand in some case take no more words than the cases. -/
theorem caseWords_le_of_covers (hne : cols.toList ≠ [])
    (h : ∀ col ∈ cols, ∃ c ∈ cs, col ∈ c.2) : 1 + cols.size ≤ caseWords cs := by
  have hwords : caseWords cs = cs.length + (cs.flatMap (·.2.toList)).length := by
    clear h
    induction cs with
    | nil => rfl
    | cons c cs ih =>
      rw [caseWords_cons, ih, List.flatMap_cons, List.length_append, List.length_cons, IdSet.size]
      omega
  have hpos : 0 < cs.length := by
    obtain ⟨col, hcol⟩ := List.exists_mem_of_ne_nil _ hne
    obtain ⟨c, hc, -⟩ := h col hcol
    exact List.length_pos_of_mem hc
  have hsub : cols.toList ⊆ cs.flatMap (·.2.toList) := fun col hcol =>
    List.mem_flatMap.2 (h col hcol)
  have hlen : cols.size ≤ (cs.flatMap (·.2.toList)).length :=
    (show cols.toList.Nodup from cols.ascending.imp Nat.ne_of_lt).subperm hsub |>.length_le
  omega

/-- If `cs` have, for each of some cases with different targets, no fewer words in cases of the same
target, they have no fewer words than these together. -/
theorem caseWords_le_of_forall (hnodup : (ds.map (·.1)).Nodup)
    (h : ∀ d ∈ ds, 1 + d.2.size ≤ caseWords (casesOf d.1 cs)) : caseWords ds ≤ caseWords cs := by
  induction ds generalizing cs with
  | nil => exact Nat.zero_le _
  | cons d ds ih =>
    obtain ⟨hd, hds⟩ := List.forall_mem_cons.1 h
    rw [List.map_cons, List.nodup_cons] at hnodup
    have hrest : caseWords ds ≤ caseWords (cs.filter (·.1 ≠ d.1)) := by
      refine ih hnodup.2 fun e he => ?_
      have hne : e.1 ≠ d.1 := fun heq => hnodup.1 (heq ▸ List.mem_map.2 ⟨e, he, rfl⟩)
      have hsame : casesOf e.1 (cs.filter (·.1 ≠ d.1)) = casesOf e.1 cs := by
        unfold casesOf
        rw [List.filter_filter]
        refine List.filter_congr fun c _ => ?_
        by_cases hc : c.1 = e.1 <;> simp [hc, hne]
      rw [hsame]
      exact hds e he
    rw [caseWords_cons, caseWords_eq_add d.1 cs]
    omega

/-! ## The columns of the targets -/

theorem nonempty_of_mem_targetColumns (h : (x, cols) ∈ targetColumns row) : cols.toList ≠ [] := by
  rcases List.mem_append.1 h with h | h
  · obtain ⟨⟨j, s⟩, hs, heq⟩ := List.mem_map.1 h
    obtain ⟨rfl, rfl⟩ := Prod.mk.inj heq
    obtain ⟨⟨col, hcol⟩, hmem⟩ := mem_gather_iff.1 hs
    exact List.ne_nil_of_mem ((hmem col).2 hcol)
  · split at h
    · cases h
    · next hne =>
      obtain ⟨rfl, rfl⟩ := Prod.mk.inj (List.mem_singleton.1 h)
      exact fun hnil => hne (List.isEmpty_iff.2 hnil)

/-- Every target is listed once. -/
theorem nodup_targetColumns (row : List (Option Nat)) : ((targetColumns row).map (·.1)).Nodup := by
  have hstates : ∀ cells : List (Nat × Nat), ((gather cells).map fun y => some y.1).Nodup := by
    intro cells
    rw [List.nodup_iff_pairwise_ne, List.pairwise_map]
    exact (List.pairwise_map.1 (gather_ascending _)).imp fun h heq =>
      Nat.ne_of_lt h (Option.some.inj heq)
  unfold targetColumns
  rw [List.map_append, List.map_map]
  refine List.nodup_append.2 ⟨hstates _, by split <;> simp, fun y hy z hz => ?_⟩
  obtain ⟨_, _, rfl⟩ := List.mem_map.1 hy
  split at hz
  · cases hz
  · obtain rfl := List.mem_singleton.1 hz
    exact Option.some_ne_none _

/-- A target of the row has one case. -/
theorem caseWords_casesOf_targetColumns (h : (x, cols) ∈ targetColumns row) :
    caseWords (casesOf x (targetColumns row)) = 1 + cols.size := by
  have hlist : casesOf x (targetColumns row) = [(x, cols)] := by
    refine List.perm_singleton.1 ((List.perm_ext_iff_of_nodup ?_ (List.nodup_singleton _)).2 ?_)
    · exact (List.Nodup.of_map _ (nodup_targetColumns row)).filter _
    · intro c
      rw [mem_casesOf, List.mem_singleton]
      constructor
      · rintro ⟨hc, hx⟩
        exact List.inj_on_of_nodup_map (nodup_targetColumns row) hc h hx
      · rintro rfl
        exact ⟨h, rfl⟩
  rw [hlist, caseWords_cons, caseWords_nil, Nat.add_zero]

/-! ## The default -/

theorem mostFrequent_spec (counts : List (Option Nat × Nat)) :
    ∃ n, (mostFrequent counts = none ∧ n = 0 ∨ (mostFrequent counts, n) ∈ counts) ∧
      ∀ c ∈ counts, c.2 ≤ n := by
  -- With any start instead of `(none, 0)`, since the fold changes it.
  have hfold : ∀ (counts : List (Option Nat × Nat)) (best best' : Option Nat × Nat),
      best' = counts.foldl (fun best c => if best.2 < c.2 then c else best) best →
      (best' = best ∨ best' ∈ counts) ∧ best.2 ≤ best'.2 ∧ ∀ c ∈ counts, c.2 ≤ best'.2 := by
    intro counts
    induction counts with
    | nil =>
      rintro best _ rfl
      exact ⟨.inl rfl, Nat.le_refl _, by simp⟩
    | cons c counts ih =>
      intro best best' hbest
      rw [List.foldl_cons] at hbest
      obtain ⟨hmem, hle, hall⟩ := ih _ _ hbest
      have hnext : best.2 ≤ (if best.2 < c.2 then c else best).2 ∧
          c.2 ≤ (if best.2 < c.2 then c else best).2 := by
        split <;> omega
      refine ⟨?_, Nat.le_trans hnext.1 hle, List.forall_mem_cons.2 ⟨Nat.le_trans hnext.2 hle, hall⟩⟩
      rcases hmem with hmem | hmem
      · split at hmem
        · exact .inr (hmem ▸ List.mem_cons_self)
        · exact .inl hmem
      · exact .inr (List.mem_cons_of_mem _ hmem)
  obtain ⟨hmem, -, hall⟩ := hfold counts (none, 0) _ rfl
  refine ⟨_, ?_, hall⟩
  rcases hmem with hmem | hmem
  · exact .inl ⟨congrArg Prod.fst hmem, congrArg Prod.snd hmem⟩
  · exact .inr hmem

/-- No target takes more words than the default. -/
theorem caseWords_casesOf_le_default (row : List (Option Nat)) (x : Option Nat) :
    caseWords (casesOf x (targetColumns row)) ≤
      caseWords (casesOf (branchRow row).default (targetColumns row)) := by
  by_cases hx : ∃ cols, (x, cols) ∈ targetColumns row
  · obtain ⟨cols, hcols⟩ := hx
    obtain ⟨n, hdefault, hmost⟩ :=
      mostFrequent_spec ((targetColumns row).map fun c => (c.1, c.2.size))
    have hle : cols.size ≤ n := hmost _ (List.mem_map.2 ⟨_, hcols, rfl⟩)
    have hpos : 0 < cols.size := List.length_pos_of_ne_nil (nonempty_of_mem_targetColumns hcols)
    rcases hdefault with ⟨-, hzero⟩ | hmem
    · omega
    · obtain ⟨d, hd, heq⟩ := List.mem_map.1 hmem
      obtain ⟨hx, rfl⟩ := Prod.mk.inj heq
      have hdef : ((branchRow row).default, d.2) ∈ targetColumns row := by
        show (mostFrequent _, d.2) ∈ _
        rwa [← hx]
      rw [caseWords_casesOf_targetColumns hcols, caseWords_casesOf_targetColumns hdef]
      omega
  · have hnil : casesOf x (targetColumns row) = [] := by
      refine List.eq_nil_iff_forall_not_mem.2 fun c hc => hx ⟨c.2, ?_⟩
      obtain ⟨hmem, rfl⟩ := mem_casesOf.1 hc
      exact hmem
    rw [hnil]
    exact Nat.zero_le _

/-! ## Rows -/

namespace BranchRow

/-- `b` has the targets of the row; what it has for other columns does not matter. -/
def Encodes (b : BranchRow) (row : List (Option Nat)) : Prop :=
  ∀ col, ∀ h : col < row.length, b.target col = row[col]

instance (b : BranchRow) (row : List (Option Nat)) : Decidable (b.Encodes row) :=
  inferInstanceAs (Decidable (∀ col, ∀ h : col < row.length, b.target col = row[col]))

/-- A column that does not have the default is in a case with its target. -/
theorem exists_case {col : Nat} (h : b.target col = x) (hx : x ≠ b.default) :
    ∃ c ∈ casesOf x b.cases, col ∈ c.2 := by
  unfold target at h
  split at h
  · next y cols hfind =>
    have hcol : col ∈ cols := by simpa using List.find?_some hfind
    exact ⟨(y, cols), mem_casesOf.2 ⟨List.mem_of_find?_eq_some hfind, h⟩, hcol⟩
  · exact absurd h.symm hx

/-- The cases have the words of all targets but the default. -/
theorem Encodes.caseWords_le (h : b.Encodes row) :
    caseWords ((targetColumns row).filter (·.1 ≠ b.default)) ≤ caseWords b.cases := by
  refine caseWords_le_of_forall ?_ fun d hd => ?_
  · exact (nodup_targetColumns row).sublist (List.filter_sublist.map _)
  · obtain ⟨hmem, hne⟩ := List.mem_filter.1 hd
    refine caseWords_le_of_covers (nonempty_of_mem_targetColumns hmem) fun col hcol => ?_
    obtain ⟨hlt, hget⟩ := List.getElem?_eq_some_iff.1 ((mem_targetColumns hmem col).1 hcol)
    exact exists_case ((h col hlt).trans hget) (of_decide_eq_true hne)

end BranchRow

/-- Among all rows as branches that have the targets of the list, whatever their default, with cases
that overlap or have columns past the end, `branchRow` makes one of the smallest. -/
theorem branchRow_is_smallest (row : List (Option Nat)) :
    (branchRow row).Encodes row ∧
      ∀ b : BranchRow, b.Encodes row → (branchRow row).size ≤ b.size := by
  refine ⟨fun col h => target_branchRow (List.getElem?_eq_getElem h), fun b hb => ?_⟩
  have hcases : caseWords (branchRow row).cases =
      caseWords ((targetColumns row).filter (·.1 ≠ (branchRow row).default)) := rfl
  have hb := hb.caseWords_le
  have hdefault := caseWords_casesOf_le_default row b.default
  have htotal := caseWords_eq_add b.default (targetColumns row)
  have htotal' := caseWords_eq_add (branchRow row).default (targetColumns row)
  rw [BranchRow.size_eq, BranchRow.size_eq]
  omega

/-- Branches with a default that occurs nowhere, a case behind another one for the same column, and
columns past the end. -/
def detours : BranchRow :=
  ⟨some 9, [(none, .ofList [1, 3]), (some 5, .ofList [0, 1, 2]), (some 7, .ofList [4, 6])]⟩

theorem branchRow_is_smallest_detours :
    detours.Encodes [some 5, none, some 5, none, some 7] ∧
      (branchRow [some 5, none, some 5, none, some 7]).size ≤ detours.size := by
  have h : detours.Encodes [some 5, none, some 5, none, some 7] := by decide +kernel
  exact ⟨h, (branchRow_is_smallest _).2 detours h⟩

/-- On a tie a state is preferred to no target, and of two states the lower one. -/
example : branchRow [none, some 5, none, some 3, some 5, some 3] =
    ⟨some 3, [(some 5, .ofList [1, 4]), (none, .ofList [0, 2])]⟩ := by decide +kernel

end ScannerGen
