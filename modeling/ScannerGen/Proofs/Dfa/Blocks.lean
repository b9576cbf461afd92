import Mathlib.Data.Fintype.Card
import Mathlib.Data.Fintype.EquivFin
import ScannerGen.Proofs.Dfa.Behaviour

/-
  Blocks of states. A block is divided into those members that move into a splitter and those that
  do not (`splitBlock_cases`). Two states agree as far as they move into the same pending blocks,
  and no division of a block makes them agree that did not before (`Agree.of_divide`). What is
  stored stays a partition, and no split parts equivalent states, as long as the splitter is a union
  of their classes (`Sound.splitBlock`).
-/

namespace ScannerGen

namespace Blocks

variable {d : Dfa} {strict : Bool} {t u : Blocks} {n b k i j : Nat} {moved kept : List Nat}

/-! ## Partitions -/

theorem mem_getD_iff {m : Array (List Nat)} : i ∈ m.getD b [] ↔ ∃ l, m[b]? = some l ∧ i ∈ l := by
  rw [Array.getD_eq_getD_getElem?]
  cases m[b]? with
  | none => simp
  | some l => simp

theorem getD_of_getElem? {m : Array (List Nat)} {l : List Nat} (h : m[b]? = some l) :
    m.getD b [] = l := by
  rw [Array.getD_eq_getD_getElem?, h, Option.getD_some]

/-- `members` and `blockOf` describe one partition of the states below `n`, and no block is
empty. -/
structure Consistent (t : Blocks) (n : Nat) : Prop where
  size_blockOf : t.blockOf.size = n
  mem_iff : ∀ {b i : Nat}, i ∈ t.members.getD b [] ↔ t.blockOf[i]? = some b
  ne_nil : ∀ {b : Nat}, b < t.members.size → t.members.getD b [] ≠ []

/-- The block that state `i` moves into on class `k`. -/
def dest (t : Blocks) (d : Dfa) (k i : Nat) : Option Nat := (d.target? i k).bind (t.blockOf[·]?)

theorem movesInto_iff : t.movesInto d b k i = true ↔ t.dest d k i = some b := by
  unfold movesInto dest
  cases d.target? i k <;> simp

theorem Consistent.block_lt (ht : t.Consistent n) (h : t.blockOf[i]? = some b) :
    b < t.members.size := by
  by_contra hb
  have hi := ht.mem_iff.2 h
  simp [Array.getD_eq_getD_getElem?, hb] at hi

theorem Consistent.state_lt (ht : t.Consistent n) (h : t.blockOf[i]? = some b) : i < n := by
  rw [← ht.size_blockOf]
  exact (Array.getElem?_eq_some_iff.1 h).1

theorem Consistent.exists_block (ht : t.Consistent n) (hi : i < n) :
    ∃ b, t.blockOf[i]? = some b := by
  rw [← ht.size_blockOf] at hi
  exact ⟨t.blockOf[i], Array.getElem?_eq_getElem hi⟩

/-- The blocks are not empty and do not meet, so there are no more of them than states. -/
theorem Consistent.size_members_le (ht : t.Consistent n) : t.members.size ≤ n := by
  have pick : ∀ b : Fin t.members.size, ∃ i : Fin n, t.blockOf[i.1]? = some b.1 := by
    intro b
    obtain ⟨i, hi⟩ := List.exists_mem_of_ne_nil _ (ht.ne_nil b.2)
    rw [ht.mem_iff] at hi
    exact ⟨⟨i, ht.state_lt hi⟩, hi⟩
  choose f hf using pick
  have inj : Function.Injective f := by
    intro b c h
    have hb := hf b
    rw [h, hf c, Option.some.injEq] at hb
    exact Fin.ext hb.symm
  simpa using Fintype.card_le_of_injective f inj

/-! ## Dividing a block -/

/-- `moved` and `kept` are the two parts of block `b`. -/
structure Halves (t : Blocks) (b : Nat) (moved kept : List Nat) : Prop where
  mem_iff : ∀ {i : Nat}, i ∈ t.members.getD b [] ↔ i ∈ moved ∨ i ∈ kept
  disjoint : ∀ {i : Nat}, i ∈ moved → i ∉ kept
  moved_ne : moved ≠ []
  kept_ne : kept ≠ []

theorem Halves.block_lt (h : t.Halves b moved kept) : b < t.members.size := by
  by_contra hb
  obtain ⟨i, hi⟩ := List.exists_mem_of_ne_nil _ h.moved_ne
  have := h.mem_iff.2 (.inl hi)
  simp [Array.getD_eq_getD_getElem?, hb] at this

theorem getD_members_divide (hb : b < t.members.size) (c : Nat) :
    (t.divide n b moved kept).members.getD c [] =
      if c = t.members.size then moved else if c = b then kept else t.members.getD c [] := by
  simp only [divide, Array.getD_eq_getD_getElem?, Array.getElem?_push, Array.size_setIfInBounds]
  split
  · rfl
  · rw [Array.getElem?_setIfInBounds]
    by_cases e : b = c
    · subst e
      simp [hb]
    · simp [e, Ne.symm e]

theorem getElem?_foldl_set {l : List Nat} {a : Array Nat} {x i : Nat} (hl : ∀ j ∈ l, j < a.size) :
    (l.foldl (fun a j => a.setIfInBounds j x) a)[i]? = if i ∈ l then some x else a[i]? := by
  induction l generalizing a with
  | nil => simp
  | cons j l ih =>
    rw [List.foldl_cons, ih (fun m hm => by simpa using hl m (List.mem_cons_of_mem _ hm))]
    have hj : j < a.size := hl j (List.mem_cons_self ..)
    by_cases hi : i ∈ l
    · simp [hi]
    · by_cases e : j = i
      · subst e; simp [hi, hj]
      · simp [hi, e, Ne.symm e]

theorem size_foldl_set {l : List Nat} {a : Array Nat} {x : Nat} :
    (l.foldl (fun a j => a.setIfInBounds j x) a).size = a.size := by
  induction l generalizing a with
  | nil => rfl
  | cons j l ih => rw [List.foldl_cons, ih, Array.size_setIfInBounds]

theorem Consistent.blockOf_divide (ht : t.Consistent n) (h : t.Halves b moved kept) (i : Nat) :
    (t.divide d.numClasses b moved kept).blockOf[i]? =
      if i ∈ moved then some t.members.size else t.blockOf[i]? := by
  refine getElem?_foldl_set fun j hj => ?_
  have hb : t.blockOf[j]? = some b := ht.mem_iff.1 (h.mem_iff.2 (.inl hj))
  exact (Array.getElem?_eq_some_iff.1 hb).1

theorem Consistent.divide (ht : t.Consistent n) (h : t.Halves b moved kept) :
    (t.divide d.numClasses b moved kept).Consistent n where
  size_blockOf := size_foldl_set.trans ht.size_blockOf
  mem_iff {c i} := by
    rw [getD_members_divide h.block_lt, ht.blockOf_divide h]
    have hb := h.mem_iff (i := i)
    rw [ht.mem_iff] at hb
    have hnew : t.blockOf[i]? = some c → c ≠ t.members.size := fun e => (ht.block_lt e).ne
    by_cases hm : i ∈ moved
    · have hib : t.blockOf[i]? = some b := hb.2 (.inl hm)
      have hk := h.disjoint hm
      rw [if_pos hm]
      split
      · next e => simp [hm, e]
      · next e =>
        split
        · simp [hk, Ne.symm e]
        · next e' =>
          rw [ht.mem_iff, hib]
          simp [Ne.symm e, Ne.symm e']
    · rw [if_neg hm]
      split
      · next e => exact ⟨fun h => absurd h hm, fun h => absurd e (hnew h)⟩
      · split
        · next e => simp [e, hb, hm]
        · exact ht.mem_iff
  ne_nil {c} hc := by
    rw [getD_members_divide h.block_lt]
    split
    · exact h.moved_ne
    · next e =>
      split
      · exact h.kept_ne
      · apply ht.ne_nil
        simp only [Blocks.divide, Array.size_push, Array.size_setIfInBounds] at hc
        omega

/-- The block of `t` that a block after a division of `b` comes from. -/
def parent (t : Blocks) (b c : Nat) : Nat := if c = t.members.size then b else c

theorem Consistent.blockOf_eq_map_parent (ht : t.Consistent n) (h : t.Halves b moved kept)
    (i : Nat) :
    t.blockOf[i]? = ((t.divide d.numClasses b moved kept).blockOf[i]?).map (t.parent b) := by
  rw [ht.blockOf_divide h]
  split
  · next hm => simp [parent, ht.mem_iff.1 (h.mem_iff.2 (.inl hm))]
  · cases hi : t.blockOf[i]? with
    | none => rfl
    | some c => simp [parent, (ht.block_lt hi).ne]

theorem Consistent.dest_eq_map_parent (ht : t.Consistent n) (h : t.Halves b moved kept)
    (k i : Nat) :
    t.dest d k i = ((t.divide d.numClasses b moved kept).dest d k i).map (t.parent b) := by
  unfold dest
  cases d.target? i k with
  | none => rfl
  | some j => exact ht.blockOf_eq_map_parent h j

theorem Consistent.block_eq_of_divide (ht : t.Consistent n) (h : t.Halves b moved kept)
    (e : (t.divide d.numClasses b moved kept).blockOf[i]? =
      (t.divide d.numClasses b moved kept).blockOf[j]?) : t.blockOf[i]? = t.blockOf[j]? := by
  rw [ht.blockOf_eq_map_parent (d := d) h i, e, ← ht.blockOf_eq_map_parent h]

/-! ## Agreement on what is pending -/

/-- On class `k` the two states move into the same pending blocks. -/
def Agree (t : Blocks) (d : Dfa) (k i j : Nat) : Prop :=
  ∀ b, (b, k) ∈ t.pending → (t.dest d k i = some b ↔ t.dest d k j = some b)

theorem Agree.symm (h : t.Agree d k i j) : t.Agree d k j i := fun b hb => (h b hb).symm

theorem mem_pending_divide {c : Nat} : (c, k) ∈ (t.divide n b moved kept).pending ↔
    (c = t.members.size ∧ k < n) ∨ (c, k) ∈ t.pending := by
  simp only [divide, List.mem_append, List.mem_map, List.mem_range, Prod.mk.injEq]
  constructor
  · rintro (⟨c', h, rfl, rfl⟩ | h)
    · exact .inl ⟨rfl, h⟩
    · exact .inr h
  · rintro (⟨rfl, h⟩ | h)
    · exact .inl ⟨k, h, rfl, rfl⟩
    · exact .inr h

/-- The pairs that a division adds exist as well. -/
theorem pending_lt_divide
    (h : ∀ {c k : Nat}, (c, k) ∈ t.pending → c < t.members.size ∧ k < n) {c : Nat}
    (hc : (c, k) ∈ (t.divide n b moved kept).pending) :
    c < (t.divide n b moved kept).members.size ∧ k < n := by
  have hsize : (t.divide n b moved kept).members.size = t.members.size + 1 := by simp [divide]
  rw [hsize]
  rcases mem_pending_divide.1 hc with ⟨rfl, hk⟩ | hc
  · exact ⟨Nat.lt_succ_self _, hk⟩
  · exact ⟨Nat.lt_succ_of_lt (h hc).1, (h hc).2⟩

theorem Consistent.dest_lt (ht : t.Consistent n) {c : Nat} (h : t.dest d k i = some c) :
    c < t.members.size := by
  obtain ⟨j, -, hj⟩ := Option.bind_eq_some_iff.1 h
  exact ht.block_lt hj

theorem class_lt_of_dest (hd : d.WellFormed) {c : Nat} (h : t.dest d k i = some c) :
    k < d.numClasses := by
  obtain ⟨j, hj, -⟩ := Option.bind_eq_some_iff.1 h
  exact hd.class_lt hj

/-- States that agree on what is pending after a division agree on the block divided. -/
theorem Agree.dest_of_divide (hd : d.WellFormed) (ht : t.Consistent n)
    (h : t.Halves b moved kept) (ha : (t.divide d.numClasses b moved kept).Agree d k i j) {c : Nat}
    (hc : (c, k) ∈ t.pending) (hi : t.dest d k i = some c) : t.dest d k j = some c := by
  have hk := class_lt_of_dest hd hi
  rw [ht.dest_eq_map_parent h, Option.map_eq_some_iff] at hi ⊢
  obtain ⟨c', hc', hpar⟩ := hi
  refine ⟨c', (ha c' ?_).1 hc', hpar⟩
  rw [mem_pending_divide]
  unfold parent at hpar
  split at hpar
  · next e => exact .inl ⟨e, hk⟩
  · exact .inr (hpar ▸ hc)

theorem Agree.of_divide (hd : d.WellFormed) (ht : t.Consistent n) (h : t.Halves b moved kept)
    (ha : (t.divide d.numClasses b moved kept).Agree d k i j) : t.Agree d k i j := fun _ hc =>
  ⟨ha.dest_of_divide hd ht h hc, ha.symm.dest_of_divide hd ht h hc⟩

/-- States that move into one block, and agree on what is pending after its division, move into
one of its parts. -/
theorem Agree.dest_eq_divide (hd : d.WellFormed) (ht : t.Consistent n)
    (h : t.Halves b moved kept) (ha : (t.divide d.numClasses b moved kept).Agree d k i j)
    (e : t.dest d k i = t.dest d k j) :
    (t.divide d.numClasses b moved kept).dest d k i =
      (t.divide d.numClasses b moved kept).dest d k j := by
  rw [ht.dest_eq_map_parent h, ht.dest_eq_map_parent h k j] at e
  cases hi : (t.divide d.numClasses b moved kept).dest d k i with
  | none => rw [hi, Option.map_none] at e; exact (Option.map_eq_none_iff.1 e.symm).symm
  | some x =>
    rw [hi, Option.map_some] at e
    obtain ⟨y, hy, hpar⟩ := Option.map_eq_some_iff.1 e.symm
    have hnew : (t.members.size, k) ∈ (t.divide d.numClasses b moved kept).pending :=
      mem_pending_divide.2 (.inl ⟨rfl, class_lt_of_dest hd hi⟩)
    -- of two parts with one parent that differ, one is the new block
    by_cases hx : x = t.members.size
    · subst hx
      exact ((ha _ hnew).1 hi).symm
    by_cases hyn : y = t.members.size
    · subst hyn
      exact (hi.symm.trans ((ha _ hnew).2 hy)).trans hy.symm
    · unfold parent at hpar
      rw [if_neg hx, if_neg hyn] at hpar
      rw [hy, hpar]

/-! ## Splitting a block by its members -/

/-- Splitting leaves a block alone whose members are on one side, and else divides it into those
that move into the splitter and those that do not, either of which may be the part that moves. -/
theorem splitBlock_cases (ht : t.Consistent n) (splitter k b : Nat) :
    (splitBlock d splitter k t b = t ∧ ∀ {i j : Nat}, t.blockOf[i]? = some b →
        t.blockOf[j]? = some b → (t.dest d k i = some splitter ↔ t.dest d k j = some splitter)) ∨
    ∃ moved kept, splitBlock d splitter k t b = t.divide d.numClasses b moved kept ∧
      t.Halves b moved kept ∧ ∀ {i j : Nat}, t.blockOf[i]? = some b → t.blockOf[j]? = some b →
        ((i ∈ moved ↔ j ∈ moved) ↔
          (t.dest d k i = some splitter ↔ t.dest d k j = some splitter)) := by
  set inside := (t.members.getD b []).filter (t.movesInto d splitter k) with hin
  set outside := (t.members.getD b []).filter (not ∘ t.movesInto d splitter k) with hout
  have mem_in {i : Nat} : i ∈ inside ↔ t.blockOf[i]? = some b ∧ t.dest d k i = some splitter := by
    rw [hin, List.mem_filter, ht.mem_iff, movesInto_iff]
  have mem_out {i : Nat} : i ∈ outside ↔ t.blockOf[i]? = some b ∧ t.dest d k i ≠ some splitter := by
    rw [hout, List.mem_filter, ht.mem_iff, Function.comp_apply, Bool.not_eq_true',
      ← Bool.not_eq_true, movesInto_iff]
  have halves (hi : inside ≠ []) (ho : outside ≠ []) : t.Halves b inside outside := by
    refine ⟨fun {i} => ?_, fun {i} h h' => (mem_out.1 h').2 (mem_in.1 h).2, hi, ho⟩
    rw [ht.mem_iff, mem_in, mem_out]
    tauto
  have split : splitBlock d splitter k t b =
      if inside.isEmpty || outside.isEmpty then t
      else if inside.length ≤ outside.length then t.divide d.numClasses b inside outside
      else t.divide d.numClasses b outside inside := by
    simp only [splitBlock, List.partition_eq_filter_filter, hin, hout]
  rw [split]
  split
  · next hempty =>
    refine .inl ⟨rfl, fun {i j} hi hj => ?_⟩
    rw [Bool.or_eq_true, List.isEmpty_iff, List.isEmpty_iff] at hempty
    rcases hempty with h | h
    · have : ∀ l, t.blockOf[l]? = some b → t.dest d k l ≠ some splitter := fun l hl hs =>
        absurd (mem_in.2 ⟨hl, hs⟩) (by simp [h])
      exact iff_of_false (this i hi) (this j hj)
    · have : ∀ l, t.blockOf[l]? = some b → t.dest d k l = some splitter := fun l hl => by
        by_contra hs
        exact absurd (mem_out.2 ⟨hl, hs⟩) (by simp [h])
      exact iff_of_true (this i hi) (this j hj)
  · next hempty =>
    rw [Bool.or_eq_true, List.isEmpty_iff, List.isEmpty_iff, not_or] at hempty
    have hh := halves hempty.1 hempty.2
    right
    split
    · refine ⟨inside, outside, rfl, hh, fun {i j} hi hj => ?_⟩
      rw [mem_in, mem_in]
      simp [hi, hj]
    · refine ⟨outside, inside, rfl, ⟨fun {i} => ?_, fun h h' => hh.disjoint h' h, hempty.2,
        hempty.1⟩, fun {i j} hi hj => ?_⟩
      · rw [hh.mem_iff, or_comm]
      · rw [mem_out, mem_out]
        simp [hi, hj, not_iff_not]

/-! ## What no split undoes -/

theorem nodup_getD {m : Array (List Nat)} (h : ∀ l ∈ m, l.Nodup) (b : Nat) :
    (m.getD b []).Nodup := by
  rw [Array.getD_eq_getD_getElem?]
  cases hb : m[b]? with
  | none => exact List.nodup_nil
  | some l => exact h l (Array.mem_of_getElem? hb)

theorem nodup_divide (h : ∀ l ∈ t.members, l.Nodup) {moved kept : List Nat} (hmoved : moved.Nodup)
    (hkept : kept.Nodup) : ∀ l ∈ (t.divide n b moved kept).members, l.Nodup := by
  intro l hl
  rcases Array.mem_push.1 hl with hl | rfl
  · rcases Array.mem_or_eq_of_mem_setIfInBounds hl with hl | rfl
    · exact h l hl
    · exact hkept
  · exact hmoved

theorem nodup_splitBlock (h : ∀ l ∈ t.members, l.Nodup) (splitter k b : Nat) :
    ∀ l ∈ (splitBlock d splitter k t b).members, l.Nodup := by
  have hb := nodup_getD h b
  simp only [splitBlock, List.partition_eq_filter_filter]
  split
  · exact h
  · split
    · exact nodup_divide h (hb.filter _) (hb.filter _)
    · exact nodup_divide h (hb.filter _) (hb.filter _)

/-- A new block brings one pending pair for each class. -/
theorem pending_splitBlock (ht : t.Consistent n) (splitter k b : Nat) :
    (splitBlock d splitter k t b).pending.length + d.numClasses * t.members.size =
      t.pending.length + d.numClasses * (splitBlock d splitter k t b).members.size := by
  rcases splitBlock_cases (d := d) ht splitter k b with ⟨e, -⟩ | ⟨moved, kept, e, -, -⟩
  · rw [e]
  · rw [e]
    simp only [divide, List.length_append, List.length_map, List.length_range, Array.size_push,
      Array.size_setIfInBounds, Nat.mul_succ]
    omega

/-- The blocks hold every state once, and what is pending are blocks and classes that exist. -/
structure Stored (d : Dfa) (t : Blocks) : Prop where
  consistent : t.Consistent d.size
  nodup : ∀ l ∈ t.members, l.Nodup
  pending_lt : ∀ {b k : Nat}, (b, k) ∈ t.pending → b < t.members.size ∧ k < d.numClasses

theorem Consistent.with_pending (ht : t.Consistent n) (pending : List (Nat × Nat)) :
    Consistent { t with pending } n :=
  ⟨ht.size_blockOf, ht.mem_iff, ht.ne_nil⟩

theorem Stored.with_pending (h : Stored d t) {pending : List (Nat × Nat)}
    (hsub : pending ⊆ t.pending) : Stored d { t with pending } where
  consistent := h.consistent.with_pending pending
  nodup := h.nodup
  pending_lt hp := h.pending_lt (hsub hp)

theorem Stored.splitBlock (h : Stored d t) (splitter k b : Nat) :
    Stored d (splitBlock d splitter k t b) where
  consistent := by
    rcases splitBlock_cases (d := d) h.consistent splitter k b with ⟨e, -⟩ | ⟨_, _, e, hh, -⟩
    · rw [e]
      exact h.consistent
    · rw [e]
      exact h.consistent.divide hh
  nodup := nodup_splitBlock h.nodup splitter k b
  pending_lt {c l} hc := by
    rcases splitBlock_cases (d := d) h.consistent splitter k b with ⟨e, -⟩ | ⟨_, _, e, -, -⟩
    · rw [e] at hc ⊢
      exact h.pending_lt hc
    · rw [e] at hc ⊢
      exact pending_lt_divide h.pending_lt hc

/-- Moreover the blocks tell keys apart and keep equivalent states together. -/
structure Sound (d : Dfa) (strict : Bool) (t : Blocks) : Prop extends Stored d t where
  key : ∀ {i j : Nat}, t.blockOf[i]? = t.blockOf[j]? →
    d.states[i]?.map (·.key strict) = d.states[j]?.map (·.key strict)
  joins : ∀ {i j : Nat}, i < d.size → j < d.size → d.Equivalent strict i j →
    t.blockOf[i]? = t.blockOf[j]?

/-- Blocks of states with one key are sound. -/
theorem Stored.sound (h : Stored d t) (hkey : ∀ i < d.size, ∀ j < d.size,
    (t.blockOf[i]? = t.blockOf[j]? ↔
      d.states[i]?.map (·.key strict) = d.states[j]?.map (·.key strict))) : Sound d strict t where
  toStored := h
  key {i j} e := by
    have hc := h.consistent
    by_cases hi : i < d.size
    · obtain ⟨b, hb⟩ := hc.exists_block hi
      exact (hkey i hi j (hc.state_lt (e ▸ hb))).1 e
    · by_cases hj : j < d.size
      · obtain ⟨b, hb⟩ := hc.exists_block hj
        exact absurd (hc.state_lt (e.trans hb)) hi
      · have out {l : Nat} (hl : ¬l < d.size) : d.states[l]? = none :=
          Array.getElem?_eq_none (Nat.le_of_not_lt hl)
        rw [out hi, out hj]
  joins hi hj h := (hkey _ hi _ hj).2 (Dfa.equivalent_key h)

theorem Sound.dest_eq (hd : d.WellFormed) (ht : Sound d strict t) (k : Nat) (hi : i < d.size)
    (hj : j < d.size) (h : d.Equivalent strict i j) : t.dest d k i = t.dest d k j := by
  unfold dest
  cases ha : d.target? i k with
  | none =>
    cases hb : d.target? j k with
    | none => rfl
    | some b =>
      obtain ⟨a, ha', -⟩ := hd.equivalent_target hj hi h.symm hb
      rw [ha] at ha'
      cases ha'
  | some a =>
    obtain ⟨b, hb, hab⟩ := hd.equivalent_target hi hj h ha
    rw [hb]
    exact ht.joins (hd.inRange.target_lt ha) (hd.inRange.target_lt hb) hab

theorem Sound.with_pending (ht : Sound d strict t) {pending : List (Nat × Nat)}
    (hsub : pending ⊆ t.pending) : Sound d strict { t with pending } :=
  ⟨ht.toStored.with_pending hsub, ht.key, ht.joins⟩

theorem Sound.splitBlock (hd : d.WellFormed) (ht : Sound d strict t) (splitter k b : Nat) :
    Sound d strict (splitBlock d splitter k t b) := by
  have hstored := ht.toStored.splitBlock splitter k b
  rcases splitBlock_cases (d := d) ht.consistent splitter k b with
    ⟨e, -⟩ | ⟨moved, kept, e, h, sides⟩
  · rw [e]
    exact ht
  · rw [e] at hstored ⊢
    refine ⟨hstored, fun e => ht.key (ht.consistent.block_eq_of_divide h e),
      fun {i j} hi hj hij => ?_⟩
    have hblock := ht.joins hi hj hij
    rw [ht.consistent.blockOf_divide h, ht.consistent.blockOf_divide h, hblock]
    by_cases hb : t.blockOf[j]? = some b
    · have := (sides (hblock.trans hb) hb).2 (by rw [ht.dest_eq hd k hi hj hij])
      simp [this]
    · have out {l : Nat} (hl : t.blockOf[l]? ≠ some b) : l ∉ moved := fun hm =>
        hl (ht.consistent.mem_iff.1 (h.mem_iff.2 (.inl hm)))
      rw [if_neg (out hb), if_neg (out (hblock ▸ hb))]

end Blocks

end ScannerGen
