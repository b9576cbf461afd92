import ScannerGen.Proofs.Generate
import ScannerGen.Proofs.Table.Folding

/-
  The source of a scanner loses nothing that the scanner reads. Every part of the source shows what
  it was made from and where it ends (`Delimits`): a number by its token, an array by its length,
  and the arms of a match because none of them begins like the last one. So equal sources come from
  tables in the same words (`agrees_of_source_eq`), and from equal tables where no state has the
  number that stands for a missing target (`source_determines_scanner`).
-/

namespace ScannerGen

open Token

/-! ## Words of a table -/

namespace Source

/-- The number that stands for a target. -/
def numberOf (target : Option Nat) : Nat := target.getD noTarget

/-- The target that a number stands for. -/
def targetOf (n : Nat) : Option Nat := if n = noTarget then none else some n

theorem targetOf_numberOf {target : Option Nat} (h : target ≠ some noTarget) :
    targetOf (numberOf target) = target := by
  cases target with
  | none => exact if_pos rfl
  | some j => exact if_neg fun hj => h (congrArg some hj)

end Source

/-- Lists whose entries can be read back are equal if they are printed alike. -/
theorem eq_of_map_eq {α β : Type} {f : α → β} {g : β → α} {l l' : List α}
    (hl : ∀ x ∈ l, g (f x) = x) (hl' : ∀ x ∈ l', g (f x) = x) (h : l.map f = l'.map f) :
    l = l' := by
  have hread : ∀ l : List α, (∀ x ∈ l, g (f x) = x) → (l.map f).map g = l := by
    intro l hl
    rw [List.map_map]
    exact (List.map_congr_left hl).trans (List.map_id l)
  rw [← hread l hl, h, hread l' hl']

namespace EncodedTable

variable {t t' : EncodedTable} {n n' : Nat}

/-- The tables take the same words, with a number for a missing target. Branches have a name for
it. -/
inductive SameWords : EncodedTable → EncodedTable → Prop
  | dense {cells cells' : Array (Option Nat)}
      (h : cells.toList.map Source.numberOf = cells'.toList.map Source.numberOf) :
      SameWords (dense cells) (dense cells')
  | packed {runs runs' : List (Nat × Option Nat)}
      (h : runs.map (Prod.map id Source.numberOf) = runs'.map (Prod.map id Source.numberOf)) :
      SameWords (packed runs) (packed runs')
  | branches (rows : Array BranchRow) : SameWords (branches rows) (branches rows)

/-- No target has the number of a missing one. -/
def Printable : EncodedTable → Prop
  | dense cells => ∀ x ∈ cells.toList, x ≠ some Source.noTarget
  | packed runs => ∀ run ∈ runs, run.2 ≠ some Source.noTarget
  | branches _ => True

theorem SameWords.eq (h : SameWords t t') (ht : t.Printable) (ht' : t'.Printable) : t = t' := by
  cases h with
  | @dense cells cells' h =>
    have hcells := eq_of_map_eq (fun x hx => Source.targetOf_numberOf (ht x hx))
      (fun x hx => Source.targetOf_numberOf (ht' x hx)) h
    exact congrArg EncodedTable.dense (Array.toList_inj.1 hcells)
  | @packed runs runs' h =>
    have hread : ∀ run : Nat × Option Nat, run.2 ≠ some Source.noTarget →
        Prod.map id Source.targetOf (Prod.map id Source.numberOf run) = run :=
      fun run hrun => Prod.ext rfl (Source.targetOf_numberOf hrun)
    have hruns := eq_of_map_eq (fun run hrun => hread run (ht run hrun))
      (fun run hrun => hread run (ht' run hrun)) h
    exact congrArg EncodedTable.packed hruns
  | branches => rfl

/-- Branches do not depend on the number of columns. -/
theorem target_congr (h : t.encoding = .branches ∨ n = n') (r c : Nat) :
    t.target n r c = t.target n' r c := by
  rcases h with h | rfl
  · cases t with
    | branches rows => rfl
    | dense cells => cases h
    | packed runs => cases h
  · rfl

theorem map_unpack (f : Option Nat → Nat) (runs : List (Nat × Option Nat)) :
    (unpack runs).map f =
      (runs.map (Prod.map id f)).flatMap fun run => List.replicate run.1 run.2 := by
  induction runs with
  | nil => rfl
  | cons run runs ih =>
    obtain ⟨count, x⟩ := run
    rw [unpack_cons, List.map_append, ih, List.map_replicate]
    rfl

/-- A lookup in the same words finds the same number. -/
theorem SameWords.target_eq (h : SameWords t t') (n r c : Nat) :
    (t.target n r c).map Source.numberOf = (t'.target n r c).map Source.numberOf := by
  cases h with
  | @dense cells cells' h =>
    have hcell := congrArg (·[r * n + c]?) h
    simp only [List.getElem?_map, Array.getElem?_toList] at hcell
    unfold target
    cases hx : cells[r * n + c]? <;> cases hy : cells'[r * n + c]? <;>
      simp_all [Except.map]
  | @packed runs runs' h =>
    have hcells : (unpack runs).map Source.numberOf = (unpack runs').map Source.numberOf := by
      rw [map_unpack, map_unpack, h]
    have hlength : (unpack runs).length = (unpack runs').length := by
      simpa using congrArg List.length hcells
    have hnumber : ∀ i,
        Source.numberOf (runTarget runs i) = Source.numberOf (runTarget runs' i) := by
      intro i
      have hcell := congrArg (·[i]?) hcells
      simp only [List.getElem?_map] at hcell
      rw [runTarget_eq, runTarget_eq]
      cases hx : (unpack runs)[i]? <;> cases hy : (unpack runs')[i]? <;> simp_all
    simp only [target, sum_counts, hlength]
    split
    · exact congrArg Except.ok (hnumber _)
    · rfl
  | branches rows => rfl

end EncodedTable

namespace Source

variable {α : Type} {f : α → List Token} {u v : List Token}

/-- The text of a value tells which one it is and where it ends, whatever follows. -/
def Delimits (f : α → List Token) : Prop := ∀ ⦃a b u v⦄, f a ++ u = f b ++ v → a = b ∧ u = v

/-! ## Numbers -/

theorem delimits_number (type : String) : Delimits fun n => [number n type] := by
  intro a b u v h
  obtain ⟨hab, huv⟩ := List.cons.inj h
  exact ⟨(Token.number.inj hab).1, huv⟩

theorem delimits_text : Delimits fun s => [text s] := by
  intro a b u v h
  obtain ⟨hab, huv⟩ := List.cons.inj h
  exact ⟨Token.text.inj hab, huv⟩

theorem targetExpr_inj {x y : Option Nat} (h : targetExpr x = targetExpr y) : x = y := by
  cases x <;> cases y <;> simp_all [targetExpr, word32]

theorem delimits_interval : Delimits fun x : Interval × Nat =>
    parens (commaSeparated [[word32 x.1.lo], [word32 x.1.hi], [word32 x.2]]) := by
  rintro ⟨⟨lo, hi⟩, k⟩ ⟨⟨lo', hi'⟩, k'⟩ u v h
  simpa [parens, commaSeparated, word32, and_assoc] using h

theorem delimits_run : Delimits fun x : Nat × Nat =>
    parens (commaSeparated [[word32 x.1], [word32 x.2]]) := by
  rintro ⟨count, n⟩ ⟨count', n'⟩ u v h
  simpa [parens, commaSeparated, word32, and_assoc] using h

theorem delimits_constant (name : String) :
    Delimits fun n => constant name "usize" [length n] := by
  intro a b u v h
  simpa [constant, length] using h

/-! ## Arrays -/

theorem Delimits.commaSeparated (hf : Delimits f) {l l' : List α} (hlen : l.length = l'.length)
    (h : Token.commaSeparated (l.map f) ++ u = Token.commaSeparated (l'.map f) ++ v) :
    l = l' ∧ u = v := by
  unfold Token.commaSeparated at h
  induction l generalizing l' with
  | nil =>
    obtain rfl := List.length_eq_zero_iff.1 hlen.symm
    exact ⟨rfl, h⟩
  | cons x l ih =>
    obtain ⟨y, m, rfl⟩ := List.exists_cons_of_length_eq_add_one hlen.symm
    rw [List.length_cons, List.length_cons, Nat.add_right_cancel_iff] at hlen
    cases l with
    | nil =>
      obtain rfl := List.length_eq_zero_iff.1 hlen.symm
      rw [List.map_singleton, List.map_singleton, List.intercalate_singleton,
        List.intercalate_singleton] at h
      obtain ⟨rfl, huv⟩ := hf h
      exact ⟨rfl, huv⟩
    | cons x' l =>
      obtain ⟨y', m, rfl⟩ := List.exists_cons_of_length_eq_add_one hlen.symm
      rw [List.map_cons, List.map_cons, List.map_cons, List.map_cons, List.intercalate_cons_cons,
        List.intercalate_cons_cons, List.append_assoc, List.append_assoc, List.append_assoc,
        List.append_assoc, ← List.map_cons, ← List.map_cons] at h
      obtain ⟨rfl, hrest⟩ := hf h
      obtain ⟨htail, huv⟩ := ih hlen (List.append_cancel_left hrest)
      exact ⟨congrArg (x :: ·) htail, huv⟩

/-- The type of an array has its length, so the entries need no mark of their end. -/
theorem Delimits.array (hf : Delimits f) (name : String) (type : List Token) :
    Delimits fun l : List α => Source.array name type (l.map f) := by
  intro l l' u v h
  simp only [Source.array, brackets, length, List.cons_append, List.append_assoc, List.nil_append,
    List.append_cancel_left_eq, List.cons.injEq, true_and, List.length_map, Token.number.injEq,
    and_true] at h
  obtain ⟨hlen, h⟩ := h
  obtain ⟨rfl, hrest⟩ := hf.commaSeparated hlen h
  simp only [List.cons.injEq, true_and, List.append_cancel_left_eq] at hrest
  exact ⟨rfl, hrest⟩

theorem delimits_words (name : String) : Delimits (words name) := by
  intro a b u v h
  obtain ⟨hab, huv⟩ := (delimits_number "u32").array name (signs ["u32"]) h
  exact ⟨Array.toList_inj.1 hab, huv⟩

theorem delimits_charClasses : Delimits charClasses := by
  intro map map' u v h
  simp only [charClasses, List.append_assoc] at h
  obtain ⟨rfl, hrest⟩ := delimits_interval.array "CHAR_CLASS"
    (parens (signs ["u32", ",", "u32", ",", "u32"])) h
  exact ⟨rfl, List.append_cancel_left hrest⟩

/-! ## Matches -/

/-- The columns of an arm. -/
def patterns (cols : List Nat) : List Token :=
  List.intercalate (signs ["|"]) (cols.map fun col => [word32 col])

theorem patterns_cons_cons (c d : Nat) (cols : List Nat) :
    patterns (c :: d :: cols) = word32 c :: word "|" :: patterns (d :: cols) := by
  simp [patterns, signs]

/-- The columns of an arm end where its value begins. -/
theorem patterns_inj {cols cols' : List Nat}
    (h : patterns cols ++ word "=>" :: u = patterns cols' ++ word "=>" :: v) :
    cols = cols' ∧ u = v := by
  induction cols generalizing cols' with
  | nil =>
    rcases cols' with _ | ⟨d, _ | ⟨d', cols'⟩⟩
    · exact ⟨rfl, (List.cons.inj h).2⟩
    · cases h
    · cases h
  | cons c cols ih =>
    rcases cols' with _ | ⟨d, _ | ⟨d', cols'⟩⟩ <;> rcases cols with _ | ⟨c', cols⟩
    · cases h
    · cases h
    · simpa [patterns, word32] using h
    · simp [patterns, word32, signs] at h
    · simp [patterns, word32, signs] at h
    · rw [patterns_cons_cons, patterns_cons_cons] at h
      simp only [List.cons_append, List.cons.injEq, true_and, word32, Token.number.injEq,
        and_true] at h
      obtain ⟨rfl, hrest⟩ := h
      obtain ⟨htail, huv⟩ := ih hrest
      exact ⟨congrArg (c :: ·) htail, huv⟩

/-- The arms of a match end where one begins with `_`. -/
theorem Delimits.arms (hf : Delimits f) (hne : ∀ x u v, f x ++ u ≠ word "_" :: v) {l l' : List α}
    (h : (l.map f).flatMap (· ++ signs [","]) ++ word "_" :: u =
      (l'.map f).flatMap (· ++ signs [","]) ++ word "_" :: v) : l = l' ∧ u = v := by
  induction l generalizing l' with
  | nil =>
    cases l' with
    | nil => exact ⟨rfl, (List.cons.inj h).2⟩
    | cons y l' =>
      simp only [List.map_cons, List.flatMap_cons, List.append_assoc] at h
      exact absurd h.symm (hne _ _ _)
  | cons x l ih =>
    cases l' with
    | nil =>
      simp only [List.map_cons, List.flatMap_cons, List.append_assoc] at h
      exact absurd h (hne _ _ _)
    | cons y l' =>
      simp only [List.map_cons, List.flatMap_cons, List.append_assoc] at h
      obtain ⟨rfl, hrest⟩ := hf h
      obtain ⟨htail, huv⟩ := ih (List.append_cancel_left hrest)
      exact ⟨congrArg (x :: ·) htail, huv⟩

theorem Delimits.matchOn (hf : Delimits f) (hne : ∀ x u v, f x ++ u ≠ word "_" :: v)
    (subject : String) :
    Delimits fun x : List α × Option Nat =>
      Source.matchOn subject (x.1.map f) (targetExpr x.2) := by
  rintro ⟨l, x⟩ ⟨l', x'⟩ u v h
  simp only [Source.matchOn, braces, signs, List.map_cons, List.map_nil, List.cons_append,
    List.nil_append, List.append_assoc, List.cons.injEq, true_and] at h
  obtain ⟨rfl, hrest⟩ := hf.arms hne h
  simp only [List.cons.injEq, true_and] at hrest
  obtain ⟨hx, huv⟩ := hrest
  obtain rfl := targetExpr_inj hx
  exact ⟨rfl, huv⟩

theorem delimits_case : Delimits fun c : Option Nat × IdSet =>
    patterns c.2.toList ++ signs ["=>"] ++ [targetExpr c.1] := by
  rintro ⟨x, cols⟩ ⟨x', cols'⟩ u v h
  simp only [signs, List.map_cons, List.map_nil, List.append_assoc, List.cons_append,
    List.nil_append] at h
  obtain ⟨hcols, hrest⟩ := patterns_inj h
  obtain ⟨hx, rfl⟩ := List.cons.inj hrest
  obtain rfl := targetExpr_inj hx
  obtain rfl : cols = cols' := IdSet.mk.injEq .. ▸ hcols
  exact ⟨rfl, rfl⟩

theorem case_ne (c : Option Nat × IdSet) (u v : List Token) :
    patterns c.2.toList ++ signs ["=>"] ++ [targetExpr c.1] ++ u ≠ word "_" :: v := by
  rcases hcols : c.2.toList with _ | ⟨col, _ | ⟨col', cols⟩⟩ <;>
    simp [patterns, signs, word32]

theorem targetExpr_ne (x : Option Nat) (u v : List Token) :
    targetExpr x :: u ≠ word "match" :: v := by
  cases x <;> simp [targetExpr, word32]

/-- A row without cases is a bare target, which does not begin like a match. -/
theorem delimits_branchExpr : Delimits branchExpr := by
  rintro ⟨x, cs⟩ ⟨x', cs'⟩ u v h
  unfold branchExpr at h
  rcases cs with _ | ⟨c, cs⟩ <;> rcases cs' with _ | ⟨c', cs'⟩
  · obtain ⟨hx, huv⟩ := List.cons.inj h
    obtain rfl := targetExpr_inj hx
    exact ⟨rfl, huv⟩
  · exact absurd h (targetExpr_ne _ _ _)
  · exact absurd h.symm (targetExpr_ne _ _ _)
  · obtain ⟨hrow, huv⟩ := delimits_case.matchOn case_ne "col" (a := (c :: cs, x))
      (b := (c' :: cs', x')) h
    obtain ⟨hcases, rfl⟩ := Prod.mk.inj hrow
    exact ⟨congrArg (BranchRow.mk x) hcases, huv⟩

theorem delimits_row : Delimits fun x : BranchRow × Nat =>
    [word32 x.2] ++ signs ["=>"] ++ branchExpr x.1 := by
  rintro ⟨row, i⟩ ⟨row', i'⟩ u v h
  simp only [signs, List.map_cons, List.map_nil, List.cons_append, List.nil_append,
    List.cons.injEq, true_and, word32, Token.number.injEq, and_true] at h
  obtain ⟨rfl, hrest⟩ := h
  obtain ⟨rfl, huv⟩ := delimits_branchExpr hrest
  exact ⟨rfl, huv⟩

/-! ## Transitions -/

theorem cellAt_inj {cells : String} {n n' : Nat} (h : cellAt cells n = cellAt cells n') :
    n = n' := by
  simpa [cellAt, brackets, length] using h

theorem function_inj {name : String} {params : List (List Token)} {type body body' : List Token}
    (h : function name params type body = function name params type body') : body = body' := by
  simpa [function, braces] using h

theorem denseTransitions_inj {cells cells' : List (Option Nat)} {n n' : Nat}
    (h : denseTransitions cells n = denseTransitions cells' n') :
    cells.map numberOf = cells'.map numberOf ∧ n = n' := by
  have hwords : ∀ l : List (Option Nat),
      l.map (fun target => [targetWord target]) = (l.map numberOf).map fun n => [word32 n] := by
    intro l
    rw [List.map_map]
    rfl
  unfold denseTransitions at h
  rw [hwords, hwords] at h
  obtain ⟨hcells, hrest⟩ := (delimits_number "u32").array "TRANSITIONS" (signs ["u32"]) h
  exact ⟨hcells, cellAt_inj (function_inj hrest)⟩

theorem packedTransitions_inj {runs runs' : List (Nat × Option Nat)} {n n' : Nat}
    (h : packedTransitions runs n = packedTransitions runs' n') :
    runs.map (Prod.map id numberOf) = runs'.map (Prod.map id numberOf) ∧ n = n' := by
  have hwords : ∀ l : List (Nat × Option Nat),
      l.map (fun run => parens (commaSeparated [[word32 run.1], [targetWord run.2]])) =
        (l.map (Prod.map id numberOf)).map fun run =>
          parens (commaSeparated [[word32 run.1], [word32 run.2]]) := by
    intro l
    rw [List.map_map]
    rfl
  simp only [packedTransitions, hwords, List.append_assoc] at h
  obtain ⟨hruns, hrest⟩ := delimits_run.array "PACKED_TRANSITIONS"
    (parens (signs ["u32", ",", "u32"])) h
  exact ⟨hruns, cellAt_inj (function_inj (List.append_cancel_left hrest))⟩

theorem branchTransitions_inj {rows rows' : List BranchRow}
    (h : branchTransitions rows = branchTransitions rows') : rows = rows' := by
  have hne : ∀ (x : BranchRow × Nat) (u v : List Token),
      [word32 x.2] ++ signs ["=>"] ++ branchExpr x.1 ++ u ≠ word "_" :: v := by
    simp [word32]
  simp only [branchTransitions, function, braces, List.append_assoc, List.cons_append,
    List.append_cancel_left_eq, List.cons.injEq, true_and] at h
  obtain ⟨hrows, -⟩ := delimits_row.matchOn hne "row" (a := (rows.zipIdx, none))
    (b := (rows'.zipIdx, none)) h
  rw [← List.zipIdx_map_fst 0 rows, ← List.zipIdx_map_fst 0 rows', (Prod.mk.inj hrows).1]

/-- The encodings differ in their first names. Branches do not need the number of columns. -/
theorem transitions_inj {table table' : EncodedTable} {n n' : Nat}
    (h : transitions table n = transitions table' n') :
    table.SameWords table' ∧ (table.encoding = .branches ∨ n = n') := by
  cases table with
  | dense cells =>
    cases table' with
    | dense cells' =>
      obtain ⟨hcells, rfl⟩ := denseTransitions_inj h
      exact ⟨.dense hcells, .inr rfl⟩
    | packed runs' => simp [transitions, denseTransitions, packedTransitions, array, signs] at h
    | branches rows' =>
      simp [transitions, denseTransitions, branchTransitions, array, function, signs] at h
  | packed runs =>
    cases table' with
    | dense cells' => simp [transitions, denseTransitions, packedTransitions, array, signs] at h
    | packed runs' =>
      obtain ⟨hruns, rfl⟩ := packedTransitions_inj h
      exact ⟨.packed hruns, .inr rfl⟩
    | branches rows' =>
      simp [transitions, packedTransitions, branchTransitions, array, function, signs] at h
  | branches rows =>
    cases table' with
    | dense cells' =>
      simp [transitions, denseTransitions, branchTransitions, array, function, signs] at h
    | packed runs' =>
      simp [transitions, packedTransitions, branchTransitions, array, function, signs] at h
    | branches rows' =>
      obtain rfl := Array.toList_inj.1 (branchTransitions_inj h)
      exact ⟨.branches rows, .inl rfl⟩

end Source

/-! ## Tables -/

namespace Tables

variable {t t' : Tables}

/-- Scanners with these tables do the same, up to the lines of their actions and the white space
around them. -/
structure Agrees (t t' : Tables) : Prop where
  numStates : t.numStates = t'.numStates
  numClasses : t.numClasses = t'.numClasses
  rowMap : t.rowMap = t'.rowMap
  colMap : t.colMap = t'.colMap
  starts : t.starts = t'.starts
  attributes : t.attributes = t'.attributes
  actionMap : t.actionMap = t'.actionMap
  eofActionMap : t.eofActionMap = t'.eofActionMap
  codes : t.actions.map (·.code) = t'.actions.map (·.code)
  table : t.table.SameWords t'.table
  lookup : ∀ i k,
    (t.lookup i k).map Source.numberOf = (t'.lookup i k).map Source.numberOf

theorem lookup_congr {α : Type} (f : Option Nat → α) (hrow : t.rowMap = t'.rowMap)
    (hcol : t.colMap = t'.colMap)
    (htarget : ∀ r c,
      (t.table.target t.numCols r c).map f = (t'.table.target t'.numCols r c).map f) (i k : Nat) :
    (t.lookup i k).map f = (t'.lookup i k).map f := by
  unfold lookup
  rw [hrow, hcol]
  split
  · rfl
  · rfl
  · exact htarget _ _

theorem codeTexts_eq (actions : Array Action) : actions.toList.map (fun a => [text a.code]) =
    (actions.map (·.code)).toList.map fun s => [text s] := by
  rw [Array.toList_map, List.map_map]
  rfl

/-- Equal sources come from tables that agree, and from equal maps of the characters. -/
theorem agrees_of_source_eq {map map' : List (Interval × Nat)}
    (h : Source.tables t map = Source.tables t' map') :
    t.Agrees t' ∧ (t.table.encoding = .branches ∨ t.numCols = t'.numCols) ∧ map = map' := by
  simp only [Source.tables, List.append_assoc, codeTexts_eq] at h
  obtain ⟨hstates, h₁⟩ := Source.delimits_constant "NUM_STATES" h
  obtain ⟨hclasses, h₂⟩ := Source.delimits_constant "NUM_CLASSES" h₁
  obtain ⟨hmap, h₃⟩ := Source.delimits_charClasses (List.append_cancel_left h₂)
  obtain ⟨hrow, h₄⟩ := Source.delimits_words "ROW_MAP" h₃
  obtain ⟨hcol, h₅⟩ := Source.delimits_words "COL_MAP" h₄
  obtain ⟨hstarts, h₆⟩ := Source.delimits_words "LEX_STATE" h₅
  obtain ⟨hattributes, h₇⟩ :=
    (Source.delimits_number "u8").array "ATTRIBUTES" (signs ["u8"]) h₆
  obtain ⟨hactions, h₈⟩ := Source.delimits_words "ACTION" h₇
  obtain ⟨heof, h₉⟩ := Source.delimits_words "EOF_ACTION" h₈
  obtain ⟨hcode, h₁₀⟩ := Source.delimits_text.array "ACTION_CODE" (signs ["&", "str"]) h₉
  obtain ⟨htable, hcols⟩ := Source.transitions_inj h₁₀
  have hlookup := lookup_congr Source.numberOf hrow hcol fun r c =>
    (congrArg (·.map Source.numberOf) (EncodedTable.target_congr hcols r c)).trans
      (htable.target_eq _ r c)
  exact ⟨⟨hstates, hclasses, hrow, hcol, hstarts, Array.toList_inj.1 hattributes, hactions, heof,
    Array.toList_inj.1 hcode, htable, hlookup⟩, hcols, hmap⟩

end Tables

/-! ## Scanners -/

namespace Dfa

variable {d : Dfa} {eof : EofActions} {numLex : Nat} {encoding : Encoding} {strict : Bool}

/-- Where there are no more states than numbers for them, each has a number of its own. -/
theorem InRange.printable_tables (hd : d.InRange) (hsize : d.size ≤ Source.noTarget) :
    (d.tables eof numLex encoding strict).table.Printable := by
  have hcell : ∀ x ∈ d.foldedRows.leaders.toList.flatten, x ≠ some Source.noTarget := by
    rintro _ hx rfl
    obtain ⟨row, hrow, hx⟩ := List.mem_flatten.1 hx
    exact absurd (hd.lt_of_mem_foldedRows hrow hx) (Nat.not_lt.2 hsize)
  cases encoding with
  | dense => exact hcell
  | packed => exact fun run hrun => hcell _ (mem_of_mem_pack hrun)
  | branches => trivial

end Dfa

/-- The map of the characters is that of the partition that the prepared rules call for. -/
theorem exists_partition_of_generate {spec : Spec} {config : Config} {scanner : Scanner}
    (hok : (generate spec config).2.result = .ok scanner) :
    ∃ p, Partition.ofRules? (spec.prepare config.maxCode).spec.rules
      (spec.prepare config.maxCode).spec.macros config.maxCode = .ok p ∧
      scanner.charMap = p.intervals := by
  unfold generate at hok
  cases hprepare : (spec.prepare config.maxCode).result with
  | error e => simp [hprepare] at hok
  | ok =>
    cases hp : Partition.ofRules? (spec.prepare config.maxCode).spec.rules
        (spec.prepare config.maxCode).spec.macros config.maxCode with
    | error b => simp [hprepare, hp] at hok
    | ok p =>
      simp only [hprepare, hp] at hok
      unfold generateWith at hok
      cases ha : Automata.ofSpec (spec.prepare config.maxCode).spec p config with
      | error e => simp [ha] at hok
      | ok a =>
        simp only [ha, Except.ok.injEq] at hok
        exact ⟨p, rfl, hok ▸ rfl⟩

theorem Spec.printable_of_generate {spec : Spec} (h : spec.macros.WellFormed) {config : Config}
    {scanner : Scanner} (hok : (generate spec config).2.result = .ok scanner)
    (hsize : scanner.tables.numStates ≤ Source.noTarget) : scanner.tables.table.Printable := by
  obtain ⟨t, p, nfa, full, g⟩ := (generate_spec h config).of_ok hok
  rw [g.tables_eq] at hsize ⊢
  exact g.stages.wellFormed.inRange.printable_tables hsize

/-- Scanners with the same source agree in all that the source shows. Unless there are more than
`2 ^ 32 - 1` states, none of them has the number for a missing target, so the tables are equal. -/
theorem source_determines_scanner {spec spec' : Spec} {config config' : Config}
    {scanner scanner' : Scanner} (hspec : spec.macros.WellFormed) (hspec' : spec'.macros.WellFormed)
    (hok : (generate spec config).2.result = .ok scanner)
    (hok' : (generate spec' config').2.result = .ok scanner')
    (h : Source.tables scanner.tables scanner.charMap.toList =
      Source.tables scanner'.tables scanner'.charMap.toList) :
    scanner.tables.Agrees scanner'.tables ∧ scanner.charMap = scanner'.charMap ∧
      (scanner.tables.numStates ≤ Source.noTarget →
        scanner.tables.table = scanner'.tables.table ∧
          ∀ i k, scanner.tables.lookup i k = scanner'.tables.lookup i k) := by
  obtain ⟨hagrees, hcols, hmap⟩ := Tables.agrees_of_source_eq h
  refine ⟨hagrees, Array.toList_inj.1 hmap, fun hsize => ?_⟩
  have htable := hagrees.table.eq (Spec.printable_of_generate hspec hok hsize)
    (Spec.printable_of_generate hspec' hok' (hagrees.numStates ▸ hsize))
  refine ⟨htable, fun i k => ?_⟩
  have hlookup := Tables.lookup_congr id hagrees.rowMap hagrees.colMap (fun r c => by
    rw [← htable, EncodedTable.target_congr hcols]) i k
  rwa [Except.map_id] at hlookup

/-- Words and digits once more, on other lines and without a macro. -/
def inlined : Spec where
  macros := .empty
  rules := [.new 7 (.plus (.leaf (.one (.oneOf .smallLetters)))) " word ",
    (Rule.new 9 (.leaf (.one (.oneOf .digits))) "digit ").withLookahead
      (.leaf (.one (.oneOf .smallLetters)))]
  states := .initial
  eof := .empty
  standalone := true

/-- The tables of words and digits with their actions. -/
def wordTables (actions : Array Action) : Tables where
  numStates := 5
  numClasses := 3
  numRows := 4
  numCols := 3
  rowMap := #[0, 1, 2, 3, 1]
  colMap := #[0, 1, 2]
  table := .packed [(1, some 1), (1, some 2), (1, some 3), (4, none), (1, some 2), (2, none),
    (1, some 4), (1, none)]
  attributes := #[0, 9, 1, 3, 13]
  actionMap := #[0, 1, 2, 1, 3]
  actions := actions
  starts := #[0, 0]
  eofActionMap := #[0]

/-- Of the actions the source shows the code only. -/
theorem source_wordTables {actions actions' : Array Action} (map : List (Interval × Nat))
    (h : actions.map (·.code) = actions'.map (·.code)) :
    Source.tables (wordTables actions) map = Source.tables (wordTables actions') map := by
  simp only [Source.tables, wordTables, Tables.codeTexts_eq, h]

theorem partition_inlined : Partition.ofRules? (inlined.prepare 0x10FFFF).spec.rules
    (inlined.prepare 0x10FFFF).spec.macros 0x10FFFF =
      Partition.ofRules? (wordsAndDigits.prepare 0x10FFFF).spec.rules
        (wordsAndDigits.prepare 0x10FFFF).spec.macros 0x10FFFF := by
  decide +kernel

/-- The source does not show the lines, so the two have one source, with different actions. -/
theorem source_determines_scanner_inlined :
    wordsAndDigits.macros.WellFormed ∧ inlined.macros.WellFormed ∧
    ∃ scanner scanner', (generate wordsAndDigits .default).2.result = .ok scanner ∧
      (generate inlined .default).2.result = .ok scanner' ∧
      Source.tables scanner.tables scanner.charMap.toList =
        Source.tables scanner'.tables scanner'.charMap.toList ∧
      scanner.tables.actions ≠ scanner'.tables.actions ∧
      scanner.tables.Agrees scanner'.tables ∧ scanner.charMap = scanner'.charMap ∧
      ∀ i k, scanner.tables.lookup i k = scanner'.tables.lookup i k := by
  have hspec : wordsAndDigits.macros.WellFormed := by decide
  have hspec' : inlined.macros.WellFormed := by decide
  have hrun : (generate wordsAndDigits .default).2.result.toOption.any (fun scanner =>
      scanner.tables = wordTables
        #[Build.echo, ⟨"word", 1, false⟩, ⟨"digit", 2, true⟩]) = true := by
    decide +kernel
  have hrun' : (generate inlined .default).2.result.toOption.any (fun scanner =>
      scanner.tables = wordTables
        #[Build.echo, ⟨" word ", 7, false⟩, ⟨"digit ", 9, true⟩]) = true := by
    decide +kernel
  obtain ⟨scanner, hok, htables⟩ := exists_ok_of_any hrun
  obtain ⟨scanner', hok', htables'⟩ := exists_ok_of_any hrun'
  rw [decide_eq_true_eq] at htables htables'
  obtain ⟨p, hp, hmap⟩ := exists_partition_of_generate hok
  obtain ⟨p', hp', hmap'⟩ := exists_partition_of_generate hok'
  obtain rfl : p = p' := Except.ok.inj (hp.symm.trans (partition_inlined.symm.trans hp'))
  have hsource : Source.tables scanner.tables scanner.charMap.toList =
      Source.tables scanner'.tables scanner'.charMap.toList := by
    rw [hmap, hmap', htables, htables']
    exact source_wordTables _ (by decide +kernel)
  obtain ⟨hagrees, hcharMap, htable⟩ := source_determines_scanner hspec hspec' hok hok' hsource
  have hsize : scanner.tables.numStates ≤ Source.noTarget := by
    rw [htables]
    decide
  have hactions : scanner.tables.actions ≠ scanner'.tables.actions := by
    rw [htables, htables']
    decide
  exact ⟨hspec, hspec', scanner, scanner', hok, hok', hsource, hactions, hagrees, hcharMap,
    (htable hsize).2⟩

end ScannerGen
