import Mathlib.Data.List.Forall2
import ScannerGen.Nfa.Subsets
import ScannerGen.Proofs.Ensures
import ScannerGen.Proofs.Grouping
import ScannerGen.Proofs.Nfa.Closure

/-
  Tables of sets. What one more row keeps is kept by all of them (`explore_keeps`). A table that is
  complete has for every set a row with the numbers of the sets that follow it (`ofStart_spec`). It
  fails only if more sets can be found than the limit allows. Whatever the successors are, its rows
  lead to sets of the table only (`ofStart_numbers`).
-/

namespace ScannerGen.Subsets

variable {limit n : Nat} {P : IdSet → Prop} {sets sets' sets'' : Numbering IdSet} {s : IdSet}
  {row : Array (Option Nat)} {moves : IdSet → List (Nat × IdSet)}

/-- There are more than `limit` sets of the kind `P`. -/
def Exceeds (limit : Nat) (P : IdSet → Prop) : Prop :=
  ∃ l : List IdSet, l.Nodup ∧ limit < l.length ∧ ∀ s ∈ l, P s

/-- The failure to number more sets than the limit allows. -/
def Stopped (limit : Nat) (P : IdSet → Prop) (e : Failure) : Prop :=
  e = .error (.stateLimit limit) ∧ Exceeds limit P

/-- `sets'` numbers more sets, all of the kind `P`, at most up to `limit`. -/
structure Numbers (limit : Nat) (P : IdSet → Prop) (sets sets' : Numbering IdSet) : Prop where
  keeps : ∀ {i : Nat} {s : IdSet}, sets.values[i]? = some s → sets'.values[i]? = some s
  all : ∀ s ∈ sets'.values, P s
  size_le : sets.size ≤ sets'.size
  bounded : sets'.size = sets.size ∨ sets'.size ≤ limit

theorem Numbers.refl (h : ∀ s ∈ sets.values, P s) : Numbers limit P sets sets :=
  ⟨id, h, Nat.le_refl _, .inl rfl⟩

theorem Numbers.trans (h : Numbers limit P sets sets') (h' : Numbers limit P sets' sets'') :
    Numbers limit P sets sets'' where
  keeps hi := h'.keeps (h.keeps hi)
  all := h'.all
  size_le := Nat.le_trans h.size_le h'.size_le
  bounded := by
    have := h.bounded
    have := h'.bounded
    omega

theorem nodup_values (sets : Numbering IdSet) : sets.values.toList.Nodup := by
  apply List.pairwise_iff_getElem.2
  intro i j hi hj hij heq
  have hget : ∀ {k : Nat} (hk : k < sets.values.toList.length),
      sets.values[k]? = some sets.values.toList[k] := fun hk => by
    rw [← Array.getElem?_toList, List.getElem?_eq_getElem hk]
  exact Nat.ne_of_lt hij (Numbering.eq_of_getElem? (hget hi) (heq ▸ hget hj))

theorem number_spec (hall : ∀ s ∈ sets.values, P s) (hs : P s) :
    Yields (number limit sets s)
      (fun x => Numbers limit P sets x.1 ∧ x.1.values[x.2]? = some s) (Stopped limit P) := by
  unfold number
  split
  · next i hi => exact ⟨.refl hall, Numbering.number?_eq_some_iff.1 hi⟩
  · next hnone =>
    have hnew : s ∉ sets.values := Numbering.number?_eq_none_iff.1 hnone
    split
    · next hle =>
      refine ⟨rfl, s :: sets.values.toList, ?_, Nat.lt_succ_of_le ?_, ?_⟩
      · exact List.nodup_cons.2 ⟨fun h => hnew (Array.mem_toList_iff.1 h), nodup_values sets⟩
      · rwa [Array.length_toList]
      · exact List.forall_mem_cons.2 ⟨hs, fun c hc => hall c (Array.mem_toList_iff.1 hc)⟩
    · next hlt =>
      refine ⟨⟨Numbering.getElem?_values_push hnone, ?_, ?_, ?_⟩, ?_⟩
      · intro c hc
        rw [Numbering.values_push, Array.mem_push] at hc
        rcases hc with hc | rfl
        · exact hall c hc
        · exact hs
      · rw [Numbering.size_push]
        exact Nat.le_succ _
      · rw [Numbering.size_push]
        exact .inr (Nat.lt_of_not_le hlt)
      · rw [Numbering.values_push]
        exact getElem?_push_eq_some_iff.2 (.inr ⟨rfl, rfl⟩)

theorem numberAll_spec {l : List IdSet} (hall : ∀ s ∈ sets.values, P s) (hl : ∀ s ∈ l, P s) :
    Yields (numberAll limit l sets)
      (fun x => Numbers limit P sets x.1 ∧
        List.Forall₂ (fun s i => x.1.values[i]? = some s) l x.2) (Stopped limit P) := by
  induction l generalizing sets with
  | nil => exact ⟨.refl hall, .nil⟩
  | cons s l ih =>
    obtain ⟨hs, hl⟩ := List.forall_mem_cons.1 hl
    refine yields_bind ((number_spec hall hs).mono ?_ fun _ h => h)
    intro ⟨sets', i⟩ ⟨hnum, hi⟩
    refine yields_bind ((ih hnum.all hl).mono ?_ fun _ h => h)
    intro ⟨sets'', is⟩ ⟨hnum', his⟩
    exact ⟨hnum.trans hnum', .cons (hnum'.keeps hi) his⟩

/-! ## Rows -/

/-- The row has the numbers of what follows a set, by class. -/
structure IsRow (n : Nat) (next : List (Nat × IdSet)) (sets : Numbering IdSet)
    (row : Array (Option Nat)) : Prop where
  size : row.size = n
  found : ∀ {k c}, (k, c) ∈ next → ∃ j : Nat, row[k]? = some (some j) ∧ sets.values[j]? = some c
  missing : ∀ {k}, k < n → (∀ c, (k, c) ∉ next) → row[k]? = some none

theorem IsRow.mono {next : List (Nat × IdSet)} (h : IsRow n next sets row)
    (h' : Numbers limit P sets sets') : IsRow n next sets' row where
  size := h.size
  found hc := by
    obtain ⟨j, hj, hval⟩ := h.found hc
    exact ⟨j, hj, h'.keeps hval⟩
  missing := h.missing

/-- A target is that of a set which follows. -/
theorem IsRow.exists_of_target {next : List (Nat × IdSet)} (h : IsRow n next sets row) {k j : Nat}
    (hj : row[k]? = some (some j)) :
    ∃ c, (k, c) ∈ next ∧ sets.values[j]? = some c := by
  by_cases hk : ∃ c, (k, c) ∈ next
  · obtain ⟨c, hc⟩ := hk
    obtain ⟨j', hj', hval⟩ := h.found hc
    rw [hj, Option.some.injEq, Option.some.injEq] at hj'
    subst hj'
    exact ⟨c, hc, hval⟩
  · have hlt : k < n := by
      rw [← h.size]
      exact (Array.getElem?_eq_some_iff.1 hj).1
    have := h.missing hlt fun c hc => hk ⟨c, hc⟩
    rw [hj] at this
    cases this

theorem numberRow_spec {next : List (Nat × IdSet)} (hall : ∀ s ∈ sets.values, P s)
    (hnext : ∀ x ∈ next, x.1 < row.size ∧ P x.2) (hnodup : (next.map (·.1)).Nodup) :
    Yields (numberRow limit next sets row)
      (fun x => Numbers limit P sets x.1 ∧ x.2.size = row.size ∧
        (∀ k c, (k, c) ∈ next → ∃ j : Nat, x.2[k]? = some (some j) ∧ x.1.values[j]? = some c) ∧
        ∀ k, (∀ c, (k, c) ∉ next) → x.2[k]? = row[k]?) (Stopped limit P) := by
  induction next generalizing sets row with
  | nil => exact ⟨.refl hall, rfl, by simp, fun _ _ => rfl⟩
  | cons x next ih =>
    obtain ⟨k, s⟩ := x
    obtain ⟨⟨hk, hs⟩, hnext⟩ := List.forall_mem_cons.1 hnext
    rw [List.map_cons, List.nodup_cons] at hnodup
    have hfresh : ∀ c, (k, c) ∉ next := fun c hc => hnodup.1 (List.mem_map.2 ⟨_, hc, rfl⟩)
    unfold numberRow
    refine yields_bind ((number_spec hall hs).mono ?_ fun _ h => h)
    intro ⟨sets', i⟩ ⟨hnum, hi⟩
    dsimp only
    rw [if_pos hk]
    have hnext' : ∀ x ∈ next, x.1 < (row.setIfInBounds k (some i)).size ∧ P x.2 := by
      rw [Array.size_setIfInBounds]
      exact hnext
    refine (ih hnum.all hnext' hnodup.2).mono ?_ fun _ h => h
    intro ⟨sets'', row'⟩ ⟨hnum', hsize, hsome, hnone⟩
    refine ⟨hnum.trans hnum', ?_, ?_, ?_⟩
    · rw [hsize, Array.size_setIfInBounds]
    · intro k' c hc
      rcases List.mem_cons.1 hc with heq | hc
      · obtain ⟨rfl, rfl⟩ := Prod.mk.inj heq
        refine ⟨i, ?_, hnum'.keeps hi⟩
        rw [hnone k' hfresh, Array.getElem?_setIfInBounds_self_of_lt hk]
      · exact hsome k' c hc
    · intro k' hk'
      have hne : k ≠ k' := by
        rintro rfl
        exact hk' s List.mem_cons_self
      rw [hnone k' fun c hc => hk' c (List.mem_cons_of_mem _ hc),
        Array.getElem?_setIfInBounds_ne hne]

/-- In a blank row the numbers make the row of what follows. -/
theorem numberRow_isRow {next : List (Nat × IdSet)} (hall : ∀ s ∈ sets.values, P s)
    (hnext : ∀ x ∈ next, x.1 < n ∧ P x.2) (hnodup : (next.map (·.1)).Nodup) :
    Yields (numberRow limit next sets (Array.replicate n none))
      (fun x => Numbers limit P sets x.1 ∧ IsRow n next x.1 x.2) (Stopped limit P) := by
  have hblank : ∀ x ∈ next, x.1 < (Array.replicate n (none : Option Nat)).size ∧ P x.2 := by
    rwa [Array.size_replicate]
  refine (numberRow_spec hall hblank hnodup).mono ?_ fun _ h => h
  intro ⟨sets', row⟩ ⟨hnum, hsize, hsome, hnone⟩
  refine ⟨hnum, ?_, hsome _ _, fun hk hnot => ?_⟩
  · rw [hsize, Array.size_replicate]
  · rw [hnone _ hnot, Array.getElem?_replicate, if_pos hk]

/-- A row leads to sets of the table, whatever its classes are. -/
theorem numberRow_numbers {next : List (Nat × IdSet)} (hall : ∀ s ∈ sets.values, P s)
    (hnext : ∀ x ∈ next, P x.2) (hrow : ∀ j, some j ∈ row → j < sets.size) :
    Yields (numberRow limit next sets row)
      (fun x => Numbers limit P sets x.1 ∧ ∀ j, some j ∈ x.2 → j < x.1.size) fun _ => True := by
  induction next generalizing sets row with
  | nil => exact ⟨.refl hall, hrow⟩
  | cons x next ih =>
    obtain ⟨k, s⟩ := x
    obtain ⟨hs, hnext⟩ := List.forall_mem_cons.1 hnext
    unfold numberRow
    refine yields_bind ((number_spec hall hs).mono ?_ fun _ _ => trivial)
    intro ⟨sets', i⟩ ⟨hnum, hi⟩
    dsimp only
    split
    · refine (ih hnum.all hnext fun j hj => ?_).mono (fun y hy => ⟨hnum.trans hy.1, hy.2⟩)
        fun _ h => h
      rcases Array.mem_or_eq_of_mem_setIfInBounds hj with hj | hj
      · exact Nat.lt_of_lt_of_le (hrow j hj) hnum.size_le
      · rw [Option.some.inj hj]
        exact (Array.getElem?_eq_some_iff.1 hi).1
    · exact trivial

/-! ## Tables -/

variable {successors : IdSet → Except Failure (List (Nat × IdSet))}

/-- There is no set left without a row, or there are `fuel` more rows than there were. -/
def Done (fuel : Nat) (t t' : Subsets) : Prop :=
  t'.sets.size ≤ t'.rows.size ∨ t'.rows.size = t.rows.size + fuel

/-- What is kept whenever one more set gets its row is kept by the exploration. -/
theorem explore_keeps {I : Subsets → Prop} {E : Failure → Prop} {fuel : Nat} {t : Subsets}
    (start : I t)
    (row : ∀ {t : Subsets} {s : IdSet}, I t → t.sets.values[t.rows.size]? = some s →
      Yields (successors s) (fun next =>
        Yields (numberRow limit next t.sets (Array.replicate n none))
          (fun x => I ⟨x.1, t.rows.push x.2⟩) E) E) :
    Yields (explore successors n limit fuel t) (fun t' => I t' ∧ Done fuel t t') E := by
  induction fuel generalizing t with
  | zero => exact ⟨start, .inr rfl⟩
  | succ fuel ih =>
    unfold explore
    split
    · next hnone => exact ⟨start, .inl (Array.getElem?_eq_none_iff.1 hnone)⟩
    · next s hs =>
      refine yields_bind ((row start hs).mono (fun next hnext => ?_) fun _ h => h)
      refine yields_bind (hnext.mono (fun x hx => ?_) fun _ h => h)
      refine (ih hx).mono (fun t' ⟨h, hdone⟩ => ⟨h, ?_⟩) fun _ h => h
      unfold Done at hdone ⊢
      rw [Array.size_push] at hdone
      omega

/-- The first sets have their rows. -/
structure Explored (n : Nat) (moves : IdSet → List (Nat × IdSet)) (t : Subsets) : Prop where
  rows_le : t.rows.size ≤ t.sets.size
  isRow : ∀ {i : Nat} {row : Array (Option Nat)} {s : IdSet}, t.rows[i]? = some row →
    t.sets.values[i]? = some s →
    IsRow n (moves s) t.sets row

theorem Explored.exists_row {t : Subsets} (ht : Explored n moves t)
    (hrows : t.rows.size = t.sets.size) {i : Nat} (hs : t.sets.values[i]? = some s) :
    ∃ row, t.rows[i]? = some row ∧ IsRow n (moves s) t.sets row := by
  have hi : i < t.rows.size := by
    rw [hrows]
    exact (Array.getElem?_eq_some_iff.1 hs).1
  have hrow := Array.getElem?_eq_getElem hi
  exact ⟨t.rows[i], hrow, ht.isRow hrow hs⟩

/-- The next set gets its row. -/
theorem Explored.push {t : Subsets} (ht : Explored n moves t)
    (hs : t.sets.values[t.rows.size]? = some s) (hnum : Numbers limit P t.sets sets)
    (hrow : IsRow n (moves s) sets row) : Explored n moves ⟨sets, t.rows.push row⟩ where
  rows_le := by
    have hlt : t.rows.size < t.sets.size := (Array.getElem?_eq_some_iff.1 hs).1
    rw [Array.size_push]
    exact Nat.le_trans hlt hnum.size_le
  isRow {i row' s'} hi hs' := by
    rcases getElem?_push_eq_some_iff.1 hi with hi | ⟨rfl, rfl⟩
    · have hlt : i < t.sets.values.size :=
        Nat.lt_of_lt_of_le (Array.getElem?_eq_some_iff.1 hi).1 ht.rows_le
      have hget := Array.getElem?_eq_getElem hlt
      rw [hnum.keeps hget, Option.some.injEq] at hs'
      subst hs'
      exact (ht.isRow hi hget).mono hnum
    · rw [hnum.keeps hs, Option.some.injEq] at hs'
      exact hs' ▸ hrow

/-- The moves are what the successors are, lead by the first `n` classes to sets of the kind `P`,
and have one target by class. -/
structure Steps (n : Nat) (P : IdSet → Prop)
    (successors : IdSet → Except Failure (List (Nat × IdSet)))
    (moves : IdSet → List (Nat × IdSet)) : Prop where
  eq_ok : ∀ {s}, P s → successors s = .ok (moves s)
  all : ∀ {s}, P s → ∀ x ∈ moves s, x.1 < n ∧ P x.2
  nodup : ∀ s, ((moves s).map (·.1)).Nodup

theorem explore_spec (hsteps : Steps n P successors moves) {fuel : Nat} {t : Subsets}
    (ht : Explored n moves t) (hall : ∀ s ∈ t.sets.values, P s)
    (hfuel : max limit t.sets.size ≤ fuel + t.rows.size) :
    Yields (explore successors n limit fuel t)
      (fun t' => Numbers limit P t.sets t'.sets ∧ Explored n moves t' ∧
        t'.rows.size = t'.sets.size) (Stopped limit P) := by
  refine (explore_keeps (I := fun t' => Numbers limit P t.sets t'.sets ∧ Explored n moves t')
    ⟨.refl hall, ht⟩ ?_).mono ?_ fun _ h => h
  · intro t' s ⟨hnum, hexp⟩ hs
    have hP : P s := hnum.all s (Array.mem_of_getElem? hs)
    rw [hsteps.eq_ok hP]
    refine (numberRow_isRow hnum.all (hsteps.all hP) (hsteps.nodup s)).mono ?_ fun _ h => h
    intro ⟨sets, row⟩ ⟨hnum', hrow⟩
    exact ⟨hnum.trans hnum', hexp.push hs hnum' hrow⟩
  · intro t' ⟨⟨hnum, hexp⟩, hdone⟩
    have hbounded := hnum.bounded
    have hle := hexp.rows_le
    unfold Done at hdone
    exact ⟨hnum, hexp, by omega⟩

/-- Every set has its row, or there are too many. -/
theorem ofStart_spec (hsteps : Steps n P successors moves) (hall : ∀ s ∈ sets.values, P s) :
    Yields (ofStart successors n limit sets)
      (fun t => Numbers limit P sets t.sets ∧ Explored n moves t ∧ t.rows.size = t.sets.size)
      (Stopped limit P) := by
  refine explore_spec hsteps ⟨Nat.zero_le _, fun h _ => ?_⟩ hall ?_
  · rw [Array.getElem?_empty] at h
    cases h
  · show max limit sets.size ≤ limit + sets.size + 0
    omega

/-- The rows are those of the first sets, and their targets are numbers of sets. -/
structure Bounded (t : Subsets) : Prop where
  rows_le : t.rows.size ≤ t.sets.size
  target_lt : ∀ row ∈ t.rows, ∀ j, some j ∈ row → j < t.sets.size

theorem Bounded.push {t : Subsets} (ht : t.Bounded) (hlt : t.rows.size < t.sets.size)
    (hle : t.sets.size ≤ sets.size) (hrow : ∀ j, some j ∈ row → j < sets.size) :
    Bounded ⟨sets, t.rows.push row⟩ where
  rows_le := by
    rw [Array.size_push]
    exact Nat.le_trans hlt hle
  target_lt row' hrow' j hj := by
    rcases Array.mem_push.1 hrow' with hrow' | rfl
    · exact Nat.lt_of_lt_of_le (ht.target_lt row' hrow' j hj) hle
    · exact hrow j hj

/-- All sets of a table are of a kind that is kept from one set to the next. -/
theorem ofStart_numbers
    (hnext : ∀ s, P s → Yields (successors s) (fun next => ∀ x ∈ next, P x.2) fun _ => True)
    (hall : ∀ s ∈ sets.values, P s) :
    Yields (ofStart successors n limit sets)
      (fun t => Numbers limit P sets t.sets ∧ t.Bounded) fun _ => True := by
  refine (explore_keeps (I := fun t => Numbers limit P sets t.sets ∧ t.Bounded)
    ⟨.refl hall, Nat.zero_le _, by simp⟩ ?_).mono (fun _ h => h.1) fun _ h => h
  intro t s ⟨hnum, ht⟩ hs
  have hlt : t.rows.size < t.sets.size := (Array.getElem?_eq_some_iff.1 hs).1
  refine (hnext s (hnum.all s (Array.mem_of_getElem? hs))).mono (fun next hnext => ?_) fun _ h => h
  refine (numberRow_numbers hnum.all hnext (by simp [Array.mem_replicate])).mono ?_ fun _ h => h
  intro ⟨sets', row⟩ ⟨hnum', hrow⟩
  exact ⟨hnum.trans hnum', ht.push hlt hnum'.size_le hrow⟩

/-- The closed moves of an automaton are steps between closed sets. -/
theorem steps_closedMoves {nfa : Nfa} (h : nfa.InRange) :
    Steps nfa.numClasses nfa.IsClosed nfa.closedMoves nfa.closedMovesOf where
  eq_ok _ := h.closedMoves_eq_ok _
  all _ x hx := by
    obtain ⟨hk, hc, -⟩ := h.mem_closedMovesOf (c := x.2) hx
    exact ⟨hk, hc⟩
  nodup := nfa.closedMovesOf_nodup

end ScannerGen.Subsets
