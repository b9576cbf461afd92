import Mathlib.Data.List.Induction
import Mathlib.Data.List.Perm.Subperm
import ScannerGen.Grouping

/-
  Numberings and groupings. What is numbered keeps its number, and a grouping puts two entries into
  one group exactly when their keys agree; every group is led by the first entry with its key
  (`Grouping.OfKeys`, proved for `ofList` in `ofKeys_ofList`). Groups are numbered in the order of
  their leaders (`Grouping.exists_earlier`).
-/

namespace ScannerGen

theorem getElem?_snoc_eq_some_iff {α : Type} {xs : List α} {x y : α} {i : Nat} :
    (xs ++ [x])[i]? = some y ↔ xs[i]? = some y ∨ i = xs.length ∧ x = y := by
  rw [List.getElem?_append]
  split
  · next h => simp [Nat.ne_of_lt h]
  · next h =>
    have hnone : xs[i]? = none := List.getElem?_eq_none (by omega)
    by_cases e : i = xs.length
    · simp [e]
    · have : i - xs.length ≠ 0 := by omega
      simp [e, hnone, this]

theorem getElem?_push_eq_some_iff {α : Type} {a : Array α} {x y : α} {i : Nat} :
    (a.push x)[i]? = some y ↔ a[i]? = some y ∨ i = a.size ∧ x = y := by
  rw [← Array.getElem?_toList, Array.toList_push, getElem?_snoc_eq_some_iff, Array.getElem?_toList,
    Array.length_toList]

/-- The first place of a value stays the first one. -/
theorem le_of_getElem?_push {α : Type} {a : Array α} {x y : α} {i j : Nat} (hi : a[i]? = some y)
    (hfirst : ∀ j : Nat, a[j]? = some y → i ≤ j) (hj : (a.push x)[j]? = some y) : i ≤ j := by
  rcases getElem?_push_eq_some_iff.1 hj with hj | ⟨rfl, -⟩
  · exact hfirst j hj
  · exact Nat.le_of_lt (Array.getElem?_eq_some_iff.1 hi).1

theorem le_length_of_forall_mem {l : List Nat} {n : Nat} (h : ∀ i < n, i ∈ l) : n ≤ l.length := by
  have hsub : List.range n ⊆ l := fun i hi => h i (List.mem_range.1 hi)
  have hle := (List.Nodup.subperm List.nodup_range hsub).length_le
  rwa [List.length_range] at hle

namespace Numbering

variable {κ : Type} [Ord κ] [Std.TransOrd κ]

@[simp] theorem size_empty : (empty : Numbering κ).size = 0 := rfl

variable [Std.LawfulEqOrd κ]

@[simp] theorem values_push (n : Numbering κ) (k : κ) (h : n.number? k = none) :
    (n.push k h).values = n.values.push k := rfl

@[simp] theorem size_push (n : Numbering κ) (k : κ) (h : n.number? k = none) :
    (n.push k h).size = n.size + 1 := by
  simp [size]

@[simp] theorem values_single (k : κ) : (single k).values = #[k] := rfl

theorem getElem?_values_push {n : Numbering κ} {k : κ} (h : n.number? k = none) {i : Nat} {a : κ}
    (hi : n.values[i]? = some a) : (n.push k h).values[i]? = some a := by
  rw [values_push]
  exact getElem?_push_eq_some_iff.2 (.inl hi)

end Numbering

namespace Grouping

variable {α κ : Type} [Ord κ]

/-- The grouping `g` of the entries `xs` by `key`. -/
structure OfKeys (key : α → κ) (xs : List α) (g : Grouping α κ) : Prop where
  size_groups : g.groups.size = xs.length
  size_keys : g.keys.size = g.leaders.size
  key_leader : ∀ {b : Nat} {x : α}, g.leaders[b]? = some x → g.keys.values[b]? = some (key x)
  key_entry : ∀ {i : Nat} {x : α}, xs[i]? = some x →
    ∃ b : Nat, g.groups[i]? = some b ∧ g.keys.values[b]? = some (key x)
  /-- A leader is an entry, and all entries before it belong to other groups. -/
  leader : ∀ {b : Nat} {x : α}, g.leaders[b]? = some x →
    ∃ i : Nat, xs[i]? = some x ∧ g.groups[i]? = some b ∧
      ∀ j : Nat, g.groups[j]? = some b → i ≤ j

theorem OfKeys.group_lt {key : α → κ} {xs : List α} {g : Grouping α κ} (hg : OfKeys key xs g)
    {i b : Nat} (hi : g.groups[i]? = some b) : b < g.leaders.size := by
  have hlt : i < xs.length := by
    rw [← hg.size_groups]
    exact (Array.getElem?_eq_some_iff.1 hi).1
  obtain ⟨c, hc, hk⟩ := hg.key_entry (List.getElem?_eq_getElem hlt)
  rw [hi, Option.some.injEq] at hc
  rw [← hg.size_keys, hc]
  exact (Array.getElem?_eq_some_iff.1 hk).1

/-- Every group has an entry. -/
theorem OfKeys.exists_entry {key : α → κ} {xs : List α} {g : Grouping α κ} (hg : OfKeys key xs g)
    {b : Nat} (hb : b < g.leaders.size) : ∃ i < xs.length, g.groups[i]? = some b := by
  obtain ⟨i, hi, hgi, -⟩ := hg.leader (Array.getElem?_eq_getElem hb)
  exact ⟨i, (List.getElem?_eq_some_iff.1 hi).1, hgi⟩

/-- There are no more groups than entries. -/
theorem OfKeys.size_leaders_le {key : α → κ} {xs : List α} {g : Grouping α κ}
    (hg : OfKeys key xs g) : g.leaders.size ≤ xs.length := by
  rw [← hg.size_groups, ← Array.length_toList]
  refine le_length_of_forall_mem fun b hb => ?_
  obtain ⟨i, -, hi⟩ := hg.exists_entry hb
  exact Array.mem_toList_iff.2 (Array.mem_of_getElem? hi)

variable [Std.TransOrd κ]

theorem ofKeys_nil (key : α → κ) :
    OfKeys key [] (⟨Numbering.empty, #[], #[]⟩ : Grouping α κ) where
  size_groups := rfl
  size_keys := rfl
  key_leader h := by simp at h
  key_entry h := by simp at h
  leader h := by simp at h

variable [Std.LawfulEqOrd κ]

omit [Std.TransOrd κ] [Std.LawfulEqOrd κ] in
/-- An entry whose key has a group joins it. -/
theorem OfKeys.join {key : α → κ} {xs : List α} {g : Grouping α κ} (hg : OfKeys key xs g) {x : α}
    {b : Nat} (hb : g.keys.number? (key x) = some b) :
    OfKeys key (xs ++ [x]) { g with groups := g.groups.push b } where
  size_groups := by simp [hg.size_groups]
  size_keys := hg.size_keys
  key_leader := hg.key_leader
  key_entry {i y} hi := by
    rcases getElem?_snoc_eq_some_iff.1 hi with hi | ⟨rfl, rfl⟩
    · obtain ⟨c, hc, hk⟩ := hg.key_entry hi
      exact ⟨c, getElem?_push_eq_some_iff.2 (.inl hc), hk⟩
    · exact ⟨b, getElem?_push_eq_some_iff.2 (.inr ⟨hg.size_groups.symm, rfl⟩),
        Numbering.number?_eq_some_iff.1 hb⟩
  leader {c y} hc := by
    obtain ⟨i, hi, hgi, hfirst⟩ := hg.leader hc
    exact ⟨i, getElem?_snoc_eq_some_iff.2 (.inl hi), getElem?_push_eq_some_iff.2 (.inl hgi),
      fun _ => le_of_getElem?_push hgi hfirst⟩

/-- An entry with a new key leads a new group. -/
theorem OfKeys.found {key : α → κ} {xs : List α} {g : Grouping α κ} (hg : OfKeys key xs g) {x : α}
    (hx : g.keys.number? (key x) = none) :
    OfKeys key (xs ++ [x])
      ⟨g.keys.push (key x) hx, g.leaders.push x, g.groups.push g.leaders.size⟩ where
  size_groups := by simp [hg.size_groups]
  size_keys := by simp [hg.size_keys]
  key_leader {b y} hb := by
    rw [Numbering.values_push, getElem?_push_eq_some_iff]
    rcases getElem?_push_eq_some_iff.1 hb with hb | ⟨rfl, rfl⟩
    · exact .inl (hg.key_leader hb)
    · exact .inr ⟨hg.size_keys.symm, rfl⟩
  key_entry {i y} hi := by
    rcases getElem?_snoc_eq_some_iff.1 hi with hi | ⟨rfl, rfl⟩
    · obtain ⟨c, hc, hk⟩ := hg.key_entry hi
      exact ⟨c, getElem?_push_eq_some_iff.2 (.inl hc), Numbering.getElem?_values_push hx hk⟩
    · refine ⟨g.leaders.size, getElem?_push_eq_some_iff.2 (.inr ⟨hg.size_groups.symm, rfl⟩), ?_⟩
      rw [Numbering.values_push, getElem?_push_eq_some_iff]
      exact .inr ⟨hg.size_keys.symm, rfl⟩
  leader {c y} hc := by
    rcases getElem?_push_eq_some_iff.1 hc with hc | ⟨rfl, rfl⟩
    · obtain ⟨i, hi, hgi, hfirst⟩ := hg.leader hc
      exact ⟨i, getElem?_snoc_eq_some_iff.2 (.inl hi), getElem?_push_eq_some_iff.2 (.inl hgi),
        fun _ => le_of_getElem?_push hgi hfirst⟩
    · refine ⟨xs.length, getElem?_snoc_eq_some_iff.2 (.inr ⟨rfl, rfl⟩),
        getElem?_push_eq_some_iff.2 (.inr ⟨hg.size_groups.symm, rfl⟩), ?_⟩
      intro j hj
      rcases getElem?_push_eq_some_iff.1 hj with hj | ⟨rfl, -⟩
      · -- an earlier entry is in a group that existed
        exact absurd (hg.group_lt hj) (Nat.lt_irrefl _)
      · exact Nat.le_of_eq hg.size_groups.symm

theorem OfKeys.add {key : α → κ} {xs : List α} {g : Grouping α κ} (hg : OfKeys key xs g) (x : α) :
    OfKeys key (xs ++ [x]) (g.add key x) := by
  unfold Grouping.add
  split
  · next b hb => exact hg.join hb
  · next hx => exact hg.found hx

theorem ofKeys_ofList (key : α → κ) (xs : List α) : OfKeys key xs (ofList key xs) := by
  have run : ∀ (ys zs : List α) (g : Grouping α κ), OfKeys key zs g →
      OfKeys key (zs ++ ys) (ys.foldl (Grouping.add key) g) := by
    intro ys
    induction ys with
    | nil => intro zs g hg; simpa using hg
    | cons y ys ih =>
      intro zs g hg
      have := ih (zs ++ [y]) _ (hg.add y)
      rw [List.foldl_cons]
      simpa using this
  exact run xs [] _ (ofKeys_nil key)

namespace OfKeys

omit [Std.TransOrd κ] [Std.LawfulEqOrd κ] in
/-- The leader of an entry's group has the entry's key. -/
theorem leader_key {key : α → κ} {xs : List α} {g : Grouping α κ} (hg : OfKeys key xs g)
    {i b : Nat} {x : α} (hx : xs[i]? = some x) (hi : g.groups[i]? = some b) :
    ∃ y, g.leaders[b]? = some y ∧ key y = key x := by
  have hb := hg.group_lt hi
  obtain ⟨c, hc, hk⟩ := hg.key_entry hx
  rw [hi, Option.some.injEq] at hc
  subst hc
  refine ⟨g.leaders[b], Array.getElem?_eq_getElem hb, ?_⟩
  have := hg.key_leader (Array.getElem?_eq_getElem hb)
  rw [hk, Option.some.injEq] at this
  exact this.symm

omit [Std.TransOrd κ] [Std.LawfulEqOrd κ] in
/-- Two entries share a group exactly if they share their key. -/
theorem group_eq_iff {key : α → κ} {xs : List α} {g : Grouping α κ} (hg : OfKeys key xs g)
    {i j : Nat} {x y : α} (hx : xs[i]? = some x) (hy : xs[j]? = some y) :
    g.groups[i]? = g.groups[j]? ↔ key x = key y := by
  obtain ⟨b, hb, hkb⟩ := hg.key_entry hx
  obtain ⟨c, hc, hkc⟩ := hg.key_entry hy
  rw [hb, hc, Option.some.injEq]
  constructor
  · rintro rfl
    rwa [hkb, Option.some.injEq] at hkc
  · intro h
    rw [← h] at hkc
    exact Numbering.eq_of_getElem? hkb hkc

omit [Std.TransOrd κ] [Std.LawfulEqOrd κ] in
/-- No two groups have leaders with one key. -/
theorem leader_unique {key : α → κ} {xs : List α} {g : Grouping α κ} (hg : OfKeys key xs g)
    {b c : Nat} {x y : α} (hb : g.leaders[b]? = some x) (hc : g.leaders[c]? = some y)
    (h : key x = key y) : b = c :=
  Numbering.eq_of_getElem? (hg.key_leader hb) (h ▸ hg.key_leader hc)

omit [Std.TransOrd κ] [Std.LawfulEqOrd κ] in
/-- A leader is the first of all entries with its key. -/
theorem find?_leader [DecidableEq κ] {key : α → κ} {xs : List α} {g : Grouping α κ}
    (hg : OfKeys key xs g) {b : Nat} {x : α} (hb : g.leaders[b]? = some x) :
    xs.find? (fun y => key y = key x) = some x := by
  obtain ⟨i, hi, hgi, hfirst⟩ := hg.leader hb
  obtain ⟨hlt, hx⟩ := List.getElem?_eq_some_iff.1 hi
  refine List.find?_eq_some_iff_getElem.2 ⟨by simp, i, hlt, hx, fun j hj => ?_⟩
  have hne : key xs[j] ≠ key x := by
    intro h
    have hgroup := (hg.group_eq_iff (List.getElem?_eq_getElem (Nat.lt_trans hj hlt)) hi).2 h
    exact absurd (hfirst j (hgroup.trans hgi)) (Nat.not_le_of_lt hj)
  simp [hne]

end OfKeys

/-! ## The order of the groups -/

theorem ofList_append_singleton (key : α → κ) (xs : List α) (x : α) :
    ofList key (xs ++ [x]) = (ofList key xs).add key x := by
  unfold ofList
  rw [List.foldl_append, List.foldl_cons, List.foldl_nil]

/-- An entry joins a group or leads the next one. -/
theorem exists_groups_add {key : α → κ} {xs : List α} {g : Grouping α κ} (hg : OfKeys key xs g)
    (x : α) : ∃ b ≤ g.leaders.size, (g.add key x).groups = g.groups.push b := by
  unfold Grouping.add
  split
  · next b hb =>
    have hlt := (Array.getElem?_eq_some_iff.1 (Numbering.number?_eq_some_iff.1 hb)).1
    exact ⟨b, hg.size_keys ▸ Nat.le_of_lt hlt, rfl⟩
  · exact ⟨_, Nat.le_refl _, rfl⟩

/-- A group is met only after all groups with lower numbers. -/
theorem exists_earlier {key : α → κ} {xs : List α} {i b c : Nat}
    (hi : (ofList key xs).groups[i]? = some b) (hc : c < b) :
    ∃ j < i, (ofList key xs).groups[j]? = some c := by
  induction xs using List.reverseRecOn generalizing i b with
  | nil => simp [ofList] at hi
  | append_singleton xs x ih =>
    have hg := ofKeys_ofList key xs
    obtain ⟨b', hb', hgroups⟩ := exists_groups_add hg x
    rw [ofList_append_singleton, hgroups] at hi ⊢
    rcases getElem?_push_eq_some_iff.1 hi with hi | ⟨rfl, rfl⟩
    · obtain ⟨j, hj, hgj⟩ := ih hi hc
      exact ⟨j, hj, getElem?_push_eq_some_iff.2 (.inl hgj)⟩
    · obtain ⟨j, hj, hgj⟩ := hg.exists_entry (Nat.lt_of_lt_of_le hc hb')
      rw [← hg.size_groups] at hj
      exact ⟨j, hj, getElem?_push_eq_some_iff.2 (.inl hgj)⟩

end Grouping

end ScannerGen
