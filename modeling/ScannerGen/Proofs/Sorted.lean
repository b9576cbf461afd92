import Mathlib.Order.Basic
import ScannerGen.Sorted

/-
  What is kept in ascending order of a key. `upsert` keeps the order of an association list and
  changes only what is found under its own key. The identifiers that come with a key are found
  again in the list that `gather` makes (`mem_gather_iff`) and in an array of buckets
  (`mem_getD_buckets`). A search by halves finds an entry that is there (`bisectFrom_isSome`).
-/

namespace ScannerGen

/-! ## Association lists -/

section Upsert

variable {κ β : Type} [LT κ] [DecidableLT κ] [Std.Trichotomous (α := κ) (· < ·)] {k n : κ}
  {f : Option β → β} {l : List (κ × β)}

theorem mem_upsert {x : κ × β} (hx : x ∈ upsert k f l) : (∃ v?, x = (k, f v?)) ∨ x ∈ l := by
  induction l with
  | nil => exact .inl ⟨none, List.mem_singleton.1 hx⟩
  | cons y l ih =>
    obtain ⟨k', v⟩ := y
    unfold upsert at hx
    split at hx
    · exact (List.mem_cons.1 hx).imp_left fun h => ⟨none, h⟩
    · split at hx
      · rcases List.mem_cons.1 hx with rfl | hx
        · exact .inr (List.mem_cons_self ..)
        · exact (ih hx).imp_right (List.mem_cons_of_mem _)
      · next h h' =>
        obtain rfl : k' = k := Std.Trichotomous.trichotomous _ _ h' h
        exact (List.mem_cons.1 hx).imp (fun h => ⟨some v, h⟩) (List.mem_cons_of_mem _)

theorem ascending_upsert [Trans (α := κ) (· < ·) (· < ·) (· < ·)]
    (hl : l.Pairwise (·.1 < ·.1)) (k : κ) (f : Option β → β) :
    (upsert k f l).Pairwise (·.1 < ·.1) := by
  induction l with
  | nil => exact List.pairwise_singleton ..
  | cons y l ih =>
    obtain ⟨k', v⟩ := y
    obtain ⟨hy, hrest⟩ := List.pairwise_cons.1 hl
    unfold upsert
    split
    · next hlt =>
      refine List.pairwise_cons.2 ⟨fun x hx => ?_, hl⟩
      rcases List.mem_cons.1 hx with rfl | hx
      · exact hlt
      · exact Trans.trans hlt (hy x hx)
    · split
      · next hlt =>
        refine List.pairwise_cons.2 ⟨fun x hx => ?_, ih hrest⟩
        rcases mem_upsert hx with ⟨_, rfl⟩ | hx
        · exact hlt
        · exact hy x hx
      · next h h' =>
        obtain rfl : k' = k := Std.Trichotomous.trichotomous _ _ h' h
        exact List.pairwise_cons.2 ⟨hy, hrest⟩

variable [BEq κ] [LawfulBEq κ]

omit [LT κ] [DecidableLT κ] [Std.Trichotomous (α := κ) (· < ·)] in
theorem lookup_map {γ : Type} (f : κ → β → γ) (l : List (κ × β)) (k : κ) :
    (l.map fun (n, b) => (n, f n b)).lookup k = (l.lookup k).map (f k) := by
  induction l with
  | nil => rfl
  | cons x l ih =>
    rw [List.map_cons, List.lookup_cons, List.lookup_cons, ih]
    split
    · next h =>
      rw [beq_iff_eq] at h
      rw [h, Option.map_some]
    · rfl

theorem lookup_upsert_of_ne (h : n ≠ k) (f : Option β → β) (l : List (κ × β)) :
    (upsert k f l).lookup n = l.lookup n := by
  have hne : (n == k) = false := beq_eq_false_iff_ne.2 h
  induction l with
  | nil => rw [upsert, List.lookup_cons, hne]
  | cons y l ih =>
    obtain ⟨k', v⟩ := y
    unfold upsert
    split
    · rw [List.lookup_cons, hne]
    · split
      · rw [List.lookup_cons, List.lookup_cons, ih]
      · next h h' =>
        obtain rfl : k' = k := Std.Trichotomous.trichotomous _ _ h' h
        rw [List.lookup_cons, List.lookup_cons, hne]

omit [DecidableLT κ] [Std.Trichotomous (α := κ) (· < ·)] in
theorem lookup_eq_none_of_lt [Std.Irrefl (α := κ) (· < ·)] (h : ∀ x ∈ l, k < x.1) :
    l.lookup k = none := by
  refine List.lookup_eq_none_iff.2 fun x hx => bne_iff_ne.2 ?_
  rintro rfl
  exact Std.Irrefl.irrefl _ (h x hx)

omit [DecidableLT κ] [Std.Trichotomous (α := κ) (· < ·)] in
/-- In ascending order every entry is found under its key. -/
theorem lookup_eq_some_iff [Std.Irrefl (α := κ) (· < ·)] (hl : l.Pairwise (·.1 < ·.1)) {v : β} :
    l.lookup k = some v ↔ (k, v) ∈ l := by
  induction l with
  | nil => simp
  | cons x l ih =>
    obtain ⟨n, v'⟩ := x
    obtain ⟨hx, hrest⟩ := List.pairwise_cons.1 hl
    rw [List.lookup_cons, List.mem_cons]
    by_cases hn : k = n
    · subst hn
      simp only [beq_self_eq_true, Option.some.injEq, Prod.mk.injEq, true_and]
      constructor
      · exact fun h => .inl h.symm
      · rintro (h | h)
        · exact h.symm
        · exact absurd (hx _ h) (Std.Irrefl.irrefl _)
    · have hne : (k == n) = false := beq_eq_false_iff_ne.2 hn
      simp only [hne, ih hrest, Prod.mk.injEq, hn, false_and, false_or]

/-- What is put in is `f` of what has been there before, unless that has been missed because the
list is not ascending. -/
theorem lookup_upsert_self [Std.Irrefl (α := κ) (· < ·)]
    [Trans (α := κ) (· < ·) (· < ·) (· < ·)] (k : κ) (f : Option β → β) (l : List (κ × β)) :
    ∃ v?, (upsert k f l).lookup k = some (f v?) ∧
      (l.Pairwise (·.1 < ·.1) → v? = l.lookup k) := by
  induction l with
  | nil => exact ⟨none, List.lookup_cons_self, fun _ => rfl⟩
  | cons y l ih =>
    obtain ⟨k', v⟩ := y
    unfold upsert
    split
    · next hlt =>
      refine ⟨none, List.lookup_cons_self, fun hl => ?_⟩
      refine (lookup_eq_none_of_lt fun x hx => ?_).symm
      rcases List.mem_cons.1 hx with rfl | hx
      · exact hlt
      · exact Trans.trans hlt ((List.pairwise_cons.1 hl).1 x hx)
    · split
      · next hlt =>
        have hne : (k == k') = false := by
          refine beq_eq_false_iff_ne.2 ?_
          rintro rfl
          exact Std.Irrefl.irrefl _ hlt
        obtain ⟨v?, hv, hasc⟩ := ih
        refine ⟨v?, ?_, fun hl => ?_⟩
        · rw [List.lookup_cons, hne, hv]
        · rw [List.lookup_cons, hne, hasc hl.of_cons]
      · next h h' =>
        obtain rfl : k' = k := Std.Trichotomous.trichotomous _ _ h' h
        exact ⟨some v, List.lookup_cons_self, fun _ => List.lookup_cons_self.symm⟩

end Upsert

/-! ## Identifiers by key -/

/-- The identifiers that come with a key. -/
def idsOf (k : Nat) (pairs : List (Nat × Nat)) : List Nat :=
  pairs.filterMap fun x => if x.1 = k then some x.2 else none

theorem mem_idsOf {k j : Nat} {pairs : List (Nat × Nat)} :
    j ∈ idsOf k pairs ↔ (k, j) ∈ pairs := by
  unfold idsOf
  rw [List.mem_filterMap]
  constructor
  · intro ⟨⟨k', j'⟩, hx, h⟩
    rw [Option.ite_none_right_eq_some, Option.some.injEq] at h
    obtain ⟨rfl, rfl⟩ := h
    exact hx
  · exact fun h => ⟨(k, j), h, if_pos rfl⟩

/-- What the tree of `gather` has for a key. -/
theorem getElem?_gather (k : Nat) (pairs : List (Nat × Nat)) :
    (pairs.foldr (fun (k, j) ids => ids.alter k fun js? => some (j :: js?.getD []))
      (∅ : Std.TreeMap Nat (List Nat)))[k]? =
        if idsOf k pairs = [] then none else some (idsOf k pairs) := by
  induction pairs with
  | nil => simp [idsOf]
  | cons x pairs ih =>
    obtain ⟨k', j⟩ := x
    rw [List.foldr_cons, Std.TreeMap.getElem?_alter]
    by_cases hk : k' = k
    · subst hk
      rw [if_pos (Nat.compare_eq_eq.2 rfl), ih]
      have : idsOf k' ((k', j) :: pairs) = j :: idsOf k' pairs := by simp [idsOf]
      rw [this, if_neg (List.cons_ne_nil _ _)]
      split
      · next hnil => rw [hnil]; rfl
      · rfl
    · rw [if_neg fun h => hk (Nat.compare_eq_eq.1 h), ih]
      have : idsOf k ((k', j) :: pairs) = idsOf k pairs := by simp [idsOf, hk]
      rw [this]

theorem mem_gather_iff {k : Nat} {s : IdSet} {pairs : List (Nat × Nat)} :
    (k, s) ∈ gather pairs ↔ (∃ j, (k, j) ∈ pairs) ∧ ∀ j, j ∈ s ↔ (k, j) ∈ pairs := by
  have hne : (∃ j, (k, j) ∈ pairs) ↔ idsOf k pairs ≠ [] := by
    constructor
    · intro ⟨j, hj⟩
      exact List.ne_nil_of_mem (mem_idsOf.2 hj)
    · intro h
      obtain ⟨j, hj⟩ := List.exists_mem_of_ne_nil _ h
      exact ⟨j, mem_idsOf.1 hj⟩
  unfold gather
  rw [List.mem_map, hne]
  constructor
  · intro ⟨⟨k', js⟩, hx, heq⟩
    obtain ⟨rfl, rfl⟩ := Prod.mk.inj heq
    rw [Std.TreeMap.mem_toList_iff_getElem?_eq_some, getElem?_gather,
      Option.ite_none_left_eq_some, Option.some.injEq] at hx
    obtain ⟨hk, rfl⟩ := hx
    exact ⟨hk, fun j => by rw [IdSet.mem_ofList, mem_idsOf]⟩
  · intro ⟨hk, hs⟩
    refine ⟨(k, idsOf k pairs), ?_, ?_⟩
    · rw [Std.TreeMap.mem_toList_iff_getElem?_eq_some, getElem?_gather, if_neg hk]
    · rw [Prod.mk.injEq]
      refine ⟨rfl, IdSet.ext_mem fun j => ?_⟩
      rw [IdSet.mem_ofList, mem_idsOf, hs]

theorem exists_mem_gather {k j : Nat} {pairs : List (Nat × Nat)} (h : (k, j) ∈ pairs) :
    ∃ s, (k, s) ∈ gather pairs :=
  ⟨.ofList (idsOf k pairs), mem_gather_iff.2 ⟨⟨j, h⟩, fun j => by
    rw [IdSet.mem_ofList, mem_idsOf]⟩⟩

theorem gather_ascending (pairs : List (Nat × Nat)) :
    ((gather pairs).map (·.1)).Pairwise (· < ·) := by
  unfold gather
  rw [List.map_map, List.pairwise_map]
  exact Std.TreeMap.ordered_keys_toList.imp Nat.compare_eq_lt.1

/-! ## Buckets -/

theorem mem_getD_modify_cons {m : Array (List Nat)} {b c i x : Nat} :
    x ∈ (m.modify b (i :: ·)).getD c [] ↔ (c = b ∧ b < m.size ∧ x = i) ∨ x ∈ m.getD c [] := by
  simp only [Array.getD_eq_getD_getElem?, Array.getElem?_modify]
  by_cases e : b = c
  · subst e
    by_cases hb : b < m.size
    · simp [hb]
    · simp [hb]
  · simp [e, Ne.symm e]

theorem size_foldr_modify (pairs : List (Nat × Nat)) (m : Array (List Nat)) :
    (pairs.foldr (fun x m => m.modify x.1 (x.2 :: ·)) m).size = m.size := by
  induction pairs with
  | nil => rfl
  | cons x pairs ih => rw [List.foldr_cons, Array.size_modify, ih]

/-- Pairs sorted into the buckets of their keys, of which there are `n`. -/
theorem mem_getD_foldr_modify {n b i : Nat} {pairs : List (Nat × Nat)}
    (h : ∀ x ∈ pairs, x.1 < n) :
    i ∈ (pairs.foldr (fun x m => m.modify x.1 (x.2 :: ·)) (Array.replicate n [])).getD b [] ↔
      (b, i) ∈ pairs := by
  induction pairs with
  | nil => simp only [List.foldr_nil, Array.getD_eq_getD_getElem?]; grind
  | cons x pairs ih =>
    obtain ⟨c, j⟩ := x
    obtain ⟨hc, hpairs⟩ := List.forall_mem_cons.1 h
    rw [List.foldr_cons, mem_getD_modify_cons, ih hpairs, size_foldr_modify, Array.size_replicate,
      List.mem_cons, Prod.mk.injEq]
    exact or_congr_left ⟨fun h => ⟨h.1, h.2.2⟩, fun h => ⟨h.1, hc, h.2⟩⟩

theorem getD_modify_cons {m : Array (List Nat)} {b c i : Nat} :
    (m.modify b (i :: ·)).getD c [] = m.getD c [] ∨
      (m.modify b (i :: ·)).getD c [] = i :: m.getD c [] := by
  simp only [Array.getD_eq_getD_getElem?, Array.getElem?_modify]
  by_cases e : b = c
  · rw [if_pos e]
    cases m[c]? with
    | none => exact .inl rfl
    | some l => exact .inr rfl
  · rw [if_neg e]
    exact .inl rfl

/-- A bucket holds no entry twice if the entries differ. -/
theorem nodup_getD_foldr_modify {n b : Nat} {pairs : List (Nat × Nat)}
    (h : ∀ x ∈ pairs, x.1 < n) (hnodup : (pairs.map (·.2)).Nodup) :
    ((pairs.foldr (fun x m => m.modify x.1 (x.2 :: ·))
      (Array.replicate n [])).getD b []).Nodup := by
  induction pairs with
  | nil => simp only [List.foldr_nil, Array.getD_eq_getD_getElem?]; grind
  | cons x pairs ih =>
    obtain ⟨c, j⟩ := x
    obtain ⟨-, hpairs⟩ := List.forall_mem_cons.1 h
    obtain ⟨hj, hrest⟩ := List.nodup_cons.1 hnodup
    rw [List.foldr_cons]
    rcases getD_modify_cons with e | e
    · rw [e]
      exact ih hpairs hrest
    · rw [e, List.nodup_cons, mem_getD_foldr_modify hpairs]
      exact ⟨fun hmem => hj (List.mem_map.2 ⟨_, hmem, rfl⟩), ih hpairs hrest⟩

theorem size_buckets {f : Nat → Option Nat} {n : Nat} (l : List Nat) :
    (l.foldr (fun i m => match f i with
      | some j => m.modify j (i :: ·)
      | none => m) (Array.replicate n ([] : List Nat))).size = n := by
  induction l with
  | nil => simp
  | cons a l ih => rw [List.foldr_cons]; split <;> simp [ih]

/-- Entries sorted into buckets, of which there are `n`. -/
theorem mem_getD_buckets {f : Nat → Option Nat} {n i j : Nat}
    (hf : ∀ i j, f i = some j → j < n) (l : List Nat) :
    i ∈ (l.foldr (fun i m => match f i with
      | some j => m.modify j (i :: ·)
      | none => m) (Array.replicate n [])).getD j [] ↔ i ∈ l ∧ f i = some j := by
  induction l with
  | nil => simp only [List.foldr_nil, Array.getD_eq_getD_getElem?]; grind
  | cons a l ih =>
    have hsize := size_buckets (f := f) (n := n) l
    rw [List.foldr_cons, List.mem_cons]
    cases h : f a with
    | none =>
      simp only
      rw [ih]
      constructor
      · exact fun h => ⟨.inr h.1, h.2⟩
      · rintro ⟨rfl | h', h''⟩
        · rw [h] at h''
          cases h''
        · exact ⟨h', h''⟩
    | some m =>
      simp only
      rw [mem_getD_modify_cons, ih, hsize]
      constructor
      · rintro (⟨rfl, -, rfl⟩ | ⟨h', h''⟩)
        · exact ⟨.inl rfl, h⟩
        · exact ⟨.inr h', h''⟩
      · rintro ⟨rfl | h', h''⟩
        · rw [h, Option.some.injEq] at h''
          exact .inl ⟨h''.symm, hf _ _ h, rfl⟩
        · exact .inr ⟨h', h''⟩

/-! ## Binary search -/

/-- Of two entries the one that comes first stands in the relation to the other. -/
theorem rel_of_pairwise {α : Type} {R : α → α → Prop} {xs : Array α} {i j : Nat} {x y : α}
    (h : xs.toList.Pairwise R) (hij : i < j) (hi : xs[i]? = some x) (hj : xs[j]? = some y) :
    R x y := by
  rw [← Array.getElem?_toList] at hi hj
  obtain ⟨hi', rfl⟩ := List.getElem?_eq_some_iff.1 hi
  obtain ⟨hj', rfl⟩ := List.getElem?_eq_some_iff.1 hj
  exact List.pairwise_iff_getElem.1 h i j hi' hj' hij

theorem bisectFrom_eq_some {α : Type} {order : α → Ordering} {xs : Array α} {fuel lo hi i : Nat}
    (h : bisectFrom order xs fuel lo hi = some i) : ∃ x, xs[i]? = some x ∧ order x = .eq := by
  induction fuel generalizing lo hi with
  | zero => simp [bisectFrom] at h
  | succ fuel ih =>
    unfold bisectFrom at h
    split at h
    · dsimp only at h
      split at h
      · simp at h
      · next x hx =>
        split at h
        · exact ih h
        · exact ih h
        · next he =>
          rw [Option.some.injEq] at h
          subst h
          exact ⟨x, hx, he⟩
    · simp at h

/-- A search in order finds an entry that is there. -/
theorem bisectFrom_isSome {α : Type} {order : α → Ordering} {xs : Array α}
    (hlt : ∀ (i j : Nat) (x y : α), i < j → xs[i]? = some x → xs[j]? = some y →
      order y = .lt → order x = .lt)
    (hgt : ∀ (i j : Nat) (x y : α), i < j → xs[i]? = some x → xs[j]? = some y →
      order x = .gt → order y = .gt)
    {fuel lo hi i : Nat} {x : α} (hfuel : hi - lo ≤ fuel) (hhi : hi ≤ xs.size) (hlo : lo ≤ i)
    (hi' : i < hi) (hx : xs[i]? = some x) (he : order x = .eq) :
    (bisectFrom order xs fuel lo hi).isSome := by
  induction fuel generalizing lo hi with
  | zero => omega
  | succ fuel ih =>
    unfold bisectFrom
    rw [if_pos (by omega)]
    have hmid : (lo + hi) / 2 < xs.size := by omega
    have hm := Array.getElem?_eq_getElem hmid
    dsimp only
    rw [hm]
    dsimp only
    split
    · next hm' =>
      -- the entry is not to the left of the middle
      have hne : ¬i ≤ (lo + hi) / 2 := by
        intro hle
        rcases Nat.lt_or_eq_of_le hle with hle | rfl
        · rw [hlt _ _ _ _ hle hx hm hm'] at he
          exact absurd he (by decide)
        · rw [hm, Option.some.injEq] at hx
          rw [hx, he] at hm'
          exact absurd hm' (by decide)
      exact ih (by omega) hhi (by omega) hi'
    · next hm' =>
      have hne : ¬(lo + hi) / 2 ≤ i := by
        intro hle
        rcases Nat.lt_or_eq_of_le hle with hle | rfl
        · rw [hgt _ _ _ _ hle hm hx hm'] at he
          exact absurd he (by decide)
        · rw [hm, Option.some.injEq] at hx
          rw [hx, he] at hm'
          exact absurd hm' (by decide)
      exact ih (by omega) (by omega) hlo (by omega)
    · rfl

end ScannerGen
