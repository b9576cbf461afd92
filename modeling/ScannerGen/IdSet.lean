import ScannerGen.Failure
import Std.Data.TreeMap
import Std.Data.TreeSet

/-
  Finite sets of identifiers, kept as ascending lists. Every set has one such list, so sets with
  the same members are equal (`IdSet.ext_mem`); `mem_insert`, `mem_union`, `mem_ofTree` and
  `mem_ofList` say what the operations do. `reach` collects what can be reached from a set.
-/

namespace ScannerGen

/-- A set of identifiers. -/
structure IdSet where
  toList : List Nat
  ascending : toList.Pairwise (· < ·)
  deriving DecidableEq, Repr

namespace IdSet

/-- Puts `i` in its place, unless it is there. -/
def insertId (i : Nat) : List Nat → List Nat
  | [] => [i]
  | j :: rest => if i < j then i :: j :: rest else if i = j then j :: rest else j :: insertId i rest

/-- The members of both lists, those of both once. -/
def mergeIds : List Nat → List Nat → List Nat
  | [], js => js
  | i :: is, js => js.takeWhile (· < i) ++ i :: mergeIds is (js.dropWhile (· ≤ i))

theorem mem_insertId {i k : Nat} {l : List Nat} : k ∈ insertId i l ↔ k = i ∨ k ∈ l := by
  induction l with
  | nil => simp [insertId]
  | cons j rest ih => grind [insertId]

theorem insertId_ascending {i : Nat} {l : List Nat} (h : l.Pairwise (· < ·)) :
    (insertId i l).Pairwise (· < ·) := by
  induction l with
  | nil => simp [insertId]
  | cons j rest ih => grind [insertId, mem_insertId, List.pairwise_cons]

theorem mem_dropWhile_le {i k : Nat} {l : List Nat} (h : l.Pairwise (· < ·)) :
    k ∈ l.dropWhile (· ≤ i) ↔ k ∈ l ∧ i < k := by
  induction l with
  | nil => simp
  | cons j rest ih => grind [List.pairwise_cons, List.dropWhile_cons]

theorem mem_takeWhile_lt {i k : Nat} {l : List Nat} (h : l.Pairwise (· < ·)) :
    k ∈ l.takeWhile (· < i) ↔ k ∈ l ∧ k < i := by
  induction l with
  | nil => simp
  | cons j rest ih => grind [List.pairwise_cons, List.takeWhile_cons]

theorem mem_mergeIds {is js : List Nat} {k : Nat} (hj : js.Pairwise (· < ·)) :
    k ∈ mergeIds is js ↔ k ∈ is ∨ k ∈ js := by
  induction is generalizing js with
  | nil => simp [mergeIds]
  | cons i is ih =>
    have hd : (js.dropWhile (· ≤ i)).Pairwise (· < ·) := hj.sublist (List.dropWhile_sublist _)
    simp only [mergeIds, List.mem_append, List.mem_cons, ih hd, mem_takeWhile_lt hj,
      mem_dropWhile_le hj]
    grind

theorem mergeIds_ascending {is js : List Nat} (hi : is.Pairwise (· < ·))
    (hj : js.Pairwise (· < ·)) : (mergeIds is js).Pairwise (· < ·) := by
  induction is generalizing js with
  | nil => exact hj
  | cons i is ih =>
    have hd : (js.dropWhile (· ≤ i)).Pairwise (· < ·) := hj.sublist (List.dropWhile_sublist _)
    have ht : (js.takeWhile (· < i)).Pairwise (· < ·) := hj.sublist (List.takeWhile_sublist _)
    rw [List.pairwise_cons] at hi
    have hgt : ∀ k ∈ mergeIds is (js.dropWhile (· ≤ i)), i < k := by
      intro k hk
      rw [mem_mergeIds hd, mem_dropWhile_le hj] at hk
      exact hk.elim (hi.1 k) (·.2)
    rw [mergeIds, List.pairwise_append, List.pairwise_cons]
    refine ⟨ht, ⟨hgt, ih hi.2 hd⟩, ?_⟩
    intro a ha b hb
    rw [mem_takeWhile_lt hj] at ha
    rcases List.mem_cons.1 hb with rfl | hb
    · exact ha.2
    · exact Nat.lt_trans ha.2 (hgt b hb)

/-! ## The operations -/

instance : Membership Nat IdSet := ⟨fun s i => i ∈ s.toList⟩

instance (i : Nat) (s : IdSet) : Decidable (i ∈ s) := inferInstanceAs (Decidable (i ∈ s.toList))

theorem mem_toList {i : Nat} {s : IdSet} : i ∈ s.toList ↔ i ∈ s := Iff.rfl

/-- The set without members. -/
def empty : IdSet := ⟨[], List.Pairwise.nil⟩

instance : EmptyCollection IdSet := ⟨empty⟩

instance : Inhabited IdSet := ⟨∅⟩

/-- The empty set, with room for a bit for every number below `n`. A bit has the address of its byte
and three digits more, together a word. -/
def withRoom (n : Nat) : Except Breach IdSet :=
  if 8 * n ≤ maxWord then .ok ∅ else .error .beyondCapacity

/-- The set whose only member is `i`. -/
def single (i : Nat) : IdSet := ⟨[i], List.pairwise_singleton _ _⟩

/-- The set with `i` in it. -/
def insert (s : IdSet) (i : Nat) : IdSet := ⟨insertId i s.toList, insertId_ascending s.ascending⟩

/-- The set without `i`. -/
def erase (s : IdSet) (i : Nat) : IdSet :=
  ⟨s.toList.filter (· ≠ i), s.ascending.filter _⟩

/-- The members that `p` holds of. -/
def filter (s : IdSet) (p : Nat → Bool) : IdSet := ⟨s.toList.filter p, s.ascending.filter _⟩

/-- The members of either set. -/
def union (s t : IdSet) : IdSet :=
  ⟨mergeIds s.toList t.toList, mergeIds_ascending s.ascending t.ascending⟩

/-- The members of a search tree. -/
def ofTree (t : Std.TreeSet Nat) : IdSet := ⟨t.toList, t.ordered_toList.imp Nat.compare_eq_lt.1⟩

/-- The entries of a list, each once. -/
def ofList (l : List Nat) : IdSet := ofTree (.ofList l)

/-- Whether the numbers below `n` belong to the set, one by one. -/
def mask (s : IdSet) (n : Nat) : Array Bool :=
  s.toList.foldl (fun m i => m.setIfInBounds i true) (Array.replicate n false)

instance : Ord IdSet := ⟨compareOn toList⟩

instance : Std.TransOrd IdSet := inferInstanceAs (Std.TransCmp (compareOn toList))

/-- The number of members. -/
def size (s : IdSet) : Nat := s.toList.length

/-- Whether there are no members. -/
def isEmpty (s : IdSet) : Bool := s.toList.isEmpty

/-! ## Members -/

@[simp] theorem not_mem_empty {k : Nat} : k ∉ (∅ : IdSet) := by
  simp [← mem_toList, EmptyCollection.emptyCollection, empty]

@[simp] theorem mem_single {i k : Nat} : k ∈ single i ↔ k = i := by
  simp [← mem_toList, single]

@[simp] theorem mem_insert {s : IdSet} {i k : Nat} : k ∈ s.insert i ↔ k = i ∨ k ∈ s :=
  mem_insertId

@[simp] theorem mem_filter {s : IdSet} {p : Nat → Bool} {k : Nat} :
    k ∈ s.filter p ↔ k ∈ s ∧ p k = true := by
  simp [← mem_toList, filter]

@[simp] theorem mem_union {s t : IdSet} {k : Nat} : k ∈ s.union t ↔ k ∈ s ∨ k ∈ t :=
  mem_mergeIds t.ascending

@[simp] theorem mem_ofTree {t : Std.TreeSet Nat} {k : Nat} : k ∈ ofTree t ↔ k ∈ t := by
  simp [← mem_toList, ofTree]

@[simp] theorem mem_ofList {l : List Nat} {k : Nat} : k ∈ ofList l ↔ k ∈ l := by
  simp [ofList]

theorem getElem?_mask {s : IdSet} {n i : Nat} (h : i < n) :
    (s.mask n)[i]? = some (decide (i ∈ s)) := by
  have key : ∀ (l : List Nat) (m : Array Bool), i < m.size →
      (l.foldl (fun m i => m.setIfInBounds i true) m)[i]? =
        some (decide (i ∈ l) || m.getD i false) := by
    intro l
    induction l with
    | nil => intro m hm; simp [hm]
    | cons j l ih =>
      intro m hm
      rw [List.foldl_cons, ih _ (by simpa using hm)]
      by_cases e : j = i <;> simp [e, Ne.symm, hm]
  rw [mask, key _ _ (by simpa using h)]
  simp [h, mem_toList]

/-- Sets with the same members are equal. -/
theorem ext_mem {s t : IdSet} (h : ∀ k, k ∈ s ↔ k ∈ t) : s = t := by
  obtain ⟨l, hl⟩ := s
  obtain ⟨m, hm⟩ := t
  have key : l = m := by
    change ∀ k, k ∈ l ↔ k ∈ m at h
    induction l generalizing m with
    | nil => exact (List.eq_nil_iff_forall_not_mem.2 fun k hk => by simpa using (h k).2 hk).symm
    | cons i l ih =>
      cases m with
      | nil => simpa using (h i).1 (by simp)
      | cons j m =>
        rw [List.pairwise_cons] at hl hm
        have hi : i ∈ j :: m := (h i).1 (by simp)
        have hj : j ∈ i :: l := (h j).2 (by simp)
        have hij : i = j := by grind
        subst hij
        congr 1
        refine ih hl.2 m hm.2 fun k => ?_
        have hk := h k
        grind
  subst key
  rfl

instance : Std.LawfulEqOrd IdSet where
  eq_of_compare {s t} h := by
    have e : s.toList = t.toList := Std.LawfulEqCmp.eq_of_compare h
    exact ext_mem fun k => by rw [← mem_toList, e, mem_toList]

end IdSet

/-! ## Reachability -/

/-- `seen` and what is found from `frontier` on, in at most `depth` rounds, where `next` tells to
which identifiers a step leads. Every round takes a step from all that the round before has
found. -/
def reachFrom (next : Nat → List Nat) : Nat → Std.TreeSet Nat → IdSet → Std.TreeSet Nat
  | 0, seen, _ => seen
  | depth + 1, seen, frontier =>
    let fresh := IdSet.ofList ((frontier.toList.flatMap next).filter fun j => !seen.contains j)
    if fresh.isEmpty then seen else reachFrom next depth (seen.insertMany fresh.toList) fresh

/-- `s` and all that at most `depth` steps lead to from there. -/
def reach (next : Nat → List Nat) (depth : Nat) (s : IdSet) : IdSet :=
  .ofTree (reachFrom next depth (.ofList s.toList) s)

end ScannerGen
