import Mathlib.Data.List.Chain
import ScannerGen.Proofs.Table.Packing

/-
  Runs and the list that they stand for. `pack` makes the only runs of its list that are compact:
  none is empty or too long, and neighbours have one target only if the first of them is full
  (`compact_pack`, `Compact.pack_unpack`). A table of any runs, empty ones included, answers at
  every index what the unpacked list has there, and has no target past its end.
-/

namespace ScannerGen

variable {x y : Option Nat} {n k : Nat} {v l : List (Option Nat)} {runs : List (Nat × Option Nat)}

/-! ## Compact runs -/

/-- No run is empty or too long, and of neighbours with one target the first is full. -/
structure Compact (runs : List (Nat × Option Nat)) : Prop where
  count : ∀ run ∈ runs, 0 < run.1 ∧ run.1 ≤ maxRun
  neighbours : runs.IsChain fun a b => a.2 = b.2 → a.1 = maxRun

theorem Compact.tail (h : Compact ((n, x) :: runs)) : Compact runs where
  count run hrun := h.count run (List.mem_cons_of_mem _ hrun)
  neighbours := h.neighbours.tail

/-- The run in progress is where the packed list begins. -/
theorem exists_head?_packFrom (n : Nat) (x : Option Nat) (l : List (Option Nat)) :
    ∃ m, (packFrom n x l).head? = some (m, x) := by
  induction l generalizing n with
  | nil => exact ⟨n, rfl⟩
  | cons y l ih =>
    unfold packFrom
    split
    · exact ih (n + 1)
    · exact ⟨n, rfl⟩

/-- A run in progress that can still be stored stays one while it grows. -/
theorem compact_packFrom (hpos : 0 < n) (hle : n ≤ maxRun) : Compact (packFrom n x l) := by
  induction l generalizing n x with
  | nil =>
    refine ⟨fun run hrun => ?_, .singleton _⟩
    obtain rfl := List.mem_singleton.1 hrun
    exact ⟨hpos, hle⟩
  | cons y l ih =>
    unfold packFrom
    split
    · next h =>
      rw [Bool.and_eq_true, decide_eq_true_eq, decide_eq_true_eq] at h
      exact ih (Nat.succ_pos n) h.2
    · next h =>
      rw [Bool.and_eq_true, decide_eq_true_eq, decide_eq_true_eq, not_and] at h
      have hrest : Compact (packFrom 1 y l) := ih Nat.one_pos (by decide)
      refine ⟨List.forall_mem_cons.2 ⟨⟨hpos, hle⟩, hrest.count⟩, ?_⟩
      refine List.isChain_cons.2 ⟨fun run hrun => ?_, hrest.neighbours⟩
      obtain ⟨m, hm⟩ := exists_head?_packFrom 1 y l
      rw [hm, Option.mem_some] at hrun
      subst hrun
      -- the run that was closed could not be extended
      intro heq
      exact Nat.le_antisymm hle (Nat.le_of_not_lt (h heq.symm))

theorem compact_pack (v : List (Option Nat)) : Compact (pack v) := by
  cases v with
  | nil => exact ⟨fun _ h => absurd h List.not_mem_nil, .nil⟩
  | cons x l => exact compact_packFrom Nat.one_pos (by decide)

/-- Equal cells join the run in progress as long as it can be stored. -/
theorem packFrom_replicate_append (h : n + k ≤ maxRun) :
    packFrom n x (List.replicate k x ++ l) = packFrom (n + k) x l := by
  induction k generalizing n with
  | zero => rfl
  | succ k ih =>
    have hlt : n < maxRun := by omega
    rw [List.replicate_succ, List.cons_append, packFrom, if_pos (by simp [hlt]),
      ih (by omega), Nat.add_right_comm, Nat.add_assoc]

/-- A run in progress ends where a compact run of its target would have been joined to it. -/
theorem Compact.packFrom_unpack (h : Compact ((n, x) :: runs)) :
    packFrom n x (unpack runs) = (n, x) :: pack (unpack runs) := by
  cases runs with
  | nil => rfl
  | cons run runs =>
    obtain ⟨m, y⟩ := run
    obtain ⟨m, rfl⟩ := Nat.exists_eq_succ_of_ne_zero (h.tail.count _ (List.mem_cons_self ..)).1.ne'
    have hfull : x = y → n = maxRun := (List.isChain_cons_cons.1 h.neighbours).1
    rw [unpack_cons, List.replicate_succ, List.cons_append, packFrom, if_neg]
    · rfl
    · rw [Bool.and_eq_true, decide_eq_true_eq, decide_eq_true_eq]
      intro hext
      exact absurd (hfull hext.1.symm) hext.2.ne

/-- Compact runs are what packing makes of the list that they stand for. -/
theorem Compact.pack_unpack (h : Compact runs) : pack (unpack runs) = runs := by
  induction runs with
  | nil => rfl
  | cons run runs ih =>
    obtain ⟨n, x⟩ := run
    obtain ⟨hpos, hle⟩ := h.count _ (List.mem_cons_self ..)
    obtain ⟨n, rfl⟩ := Nat.exists_eq_succ_of_ne_zero hpos.ne'
    calc pack (unpack ((n + 1, x) :: runs))
        = packFrom 1 x (List.replicate n x ++ unpack runs) := rfl
      _ = packFrom (n + 1) x (unpack runs) := by
          rw [packFrom_replicate_append (by omega), Nat.add_comm]
      _ = (n + 1, x) :: runs := by rw [h.packFrom_unpack, ih h.tail]

/-! ## Reading a table of runs -/

theorem runTarget_of_lt (h : k < (unpack runs).length) : runTarget runs k = (unpack runs)[k] := by
  rw [runTarget_eq, List.getElem?_eq_getElem h, Option.join_some]

theorem runTarget_of_le (h : (unpack runs).length ≤ k) : runTarget runs k = none := by
  rw [runTarget_eq, List.getElem?_eq_none h, Option.join_none]

/-- A look-up finds the cell at its index. Past the end there is no target, as long as the index is
a word. -/
structure Tables.Reads (t : Tables) (cells : List (Option Nat)) : Prop where
  inside : ∀ {i k row col : Nat}, t.rowMap[i]? = some row → t.colMap[k]? = some col →
    ∀ h : row * t.numCols + col < cells.length,
      t.lookup i k = .ok cells[row * t.numCols + col]
  beyond : ∀ {i k row col : Nat}, t.rowMap[i]? = some row → t.colMap[k]? = some col →
    cells.length ≤ row * t.numCols + col → row * t.numCols + col ≤ maxWord →
      t.lookup i k = .ok none

theorem Tables.lookup_eq_target {t : Tables} {i row col : Nat} (hrow : t.rowMap[i]? = some row)
    (hcol : t.colMap[k]? = some col) : t.lookup i k = t.table.target t.numCols row col := by
  simp only [Tables.lookup, hrow, hcol]

/-- The index of a cell need not be a word as long as it lies inside. -/
theorem target_packed {numCols row col : Nat}
    (h : row * numCols + col ≤ maxWord ∨ row * numCols + col < (unpack runs).length) :
    (EncodedTable.packed runs).target numCols row col =
      .ok (runTarget runs (row * numCols + col)) := by
  rw [← sum_counts] at h
  simp only [EncodedTable.target]
  rw [if_pos (by simpa using h)]

theorem Tables.reads_unpack {t : Tables} (ht : t.table = .packed runs) :
    t.Reads (unpack runs) where
  inside hrow hcol h := by
    rw [lookup_eq_target hrow hcol, ht, target_packed (.inr h), runTarget_of_lt h]
  beyond hrow hcol hend hword := by
    rw [lookup_eq_target hrow hcol, ht, target_packed (.inl hword), runTarget_of_le hend]

/-- Unpacking undoes packing, which makes the only compact runs of a list. The walk over any runs
finds at every index what unpacking puts there and nothing past the end, and so does every look-up
in a table that holds them. -/
theorem packed_decoders_agree (v : List (Option Nat)) (runs : List (Nat × Option Nat)) :
    (unpack (pack v) = v ∧ Compact (pack v) ∧
        ∀ others, Compact others → unpack others = v → others = pack v) ∧
      (∀ i, (∀ h : i < (unpack runs).length, runTarget runs i = (unpack runs)[i]) ∧
        ((unpack runs).length ≤ i → runTarget runs i = none)) ∧
      ∀ t : Tables, t.table = .packed runs → t.Reads (unpack runs) := by
  refine ⟨⟨unpack_pack v, compact_pack v, fun others hcompact hothers => ?_⟩,
    fun i => ⟨runTarget_of_lt, runTarget_of_le⟩, fun t ht => Tables.reads_unpack ht⟩
  rw [← hothers, hcompact.pack_unpack]

/-- Two rows of three columns as runs, some of them empty, of which one crosses from row to row. The
third row is past the end. -/
def crossing : Tables where
  numStates := 3
  numClasses := 3
  numRows := 3
  numCols := 3
  rowMap := #[0, 1, 2]
  colMap := #[0, 1, 2]
  table := .packed [(0, some 9), (2, some 1), (0, none), (2, some 2), (2, none), (0, some 7)]
  attributes := #[]
  actionMap := #[]
  actions := #[]
  starts := #[]
  eofActionMap := #[]

theorem packed_decoders_agree_crossing :
    pack [some 1, some 1, some 2, some 2, none, none] =
        [(2, some 1), (2, some 2), (2, none)] ∧
      crossing.lookup 0 2 = .ok (some 2) ∧ crossing.lookup 1 0 = .ok (some 2) ∧
      crossing.lookup 1 1 = .ok none ∧ crossing.lookup 2 0 = .ok none := by
  obtain ⟨⟨-, -, hunique⟩, -, hreads⟩ :=
    packed_decoders_agree [some 1, some 1, some 2, some 2, none, none]
      [(0, some 9), (2, some 1), (0, none), (2, some 2), (2, none), (0, some 7)]
  have hcrossing := hreads crossing rfl
  refine ⟨(hunique _ ⟨by decide, by decide⟩ rfl).symm, ?_, ?_, ?_, ?_⟩
  · exact @hcrossing.inside 0 2 0 2 rfl rfl (by decide)
  · exact @hcrossing.inside 1 0 1 0 rfl rfl (by decide)
  · exact @hcrossing.inside 1 1 1 1 rfl rfl (by decide)
  · exact @hcrossing.beyond 2 0 2 0 rfl rfl (by decide) (by decide)

end ScannerGen
