import ScannerGen.Proofs.Dfa.Blocks
import ScannerGen.Proofs.Grouping
import ScannerGen.Proofs.Sorted

/-
  Partition refinement. An iteration takes any of the pending pairs and splits by it, in any order,
  the blocks that it touches (`Iteration`); the program takes the first pair (`iteration_of_step`).
  `Settled` is what every iteration keeps: two states of one block that agree on every pending
  splitter move, on that class, into one block. When nothing is pending any more the partition is
  stable.
-/

namespace ScannerGen

namespace Blocks

variable {d : Dfa} {strict : Bool} {t u : Blocks} {n b k i j : Nat} {moved kept : List Nat}

/-! ## One splitter -/

/-- States in one block that agree on what is pending move into one block. -/
def Settled (t : Blocks) (d : Dfa) : Prop :=
  ∀ k i j, t.blockOf[i]? = t.blockOf[j]? → t.Agree d k i j → t.dest d k i = t.dest d k j

/-- A round that splits by the states `into`, those that move into block `splitter` on class `k`
when the round begins. The blocks in `rest` are still to be split. -/
structure Round (d : Dfa) (splitter k : Nat) (into : Nat → Prop) (rest : List Nat) (t : Blocks) :
    Prop where
  consistent : t.Consistent d.size
  splitter_lt : splitter < t.members.size
  class_lt : k < d.numClasses
  /-- The splitter itself may have been divided; then its other parts are pending. -/
  parts : ∃ part : Nat → Prop, (∀ c, part c → c < t.members.size ∧ (c, k) ∈ t.pending) ∧
    ∀ i, into i ↔ t.dest d k i = some splitter ∨ ∃ c, part c ∧ t.dest d k i = some c
  settled : ∀ {c i j : Nat}, t.blockOf[i]? = t.blockOf[j]? → t.Agree d c i j →
    (c = k → (into i ↔ into j)) → t.dest d c i = t.dest d c j
  done : ∀ {i j : Nat}, t.blockOf[i]? = t.blockOf[j]? → (∀ b ∈ rest, t.blockOf[i]? ≠ some b) →
    t.Agree d k i j → (into i ↔ into j)

section Round

variable {splitter : Nat} {into : Nat → Prop} {rest : List Nat}

theorem Round.into_iff (ht : Round d splitter k into rest t) (ha : t.Agree d k i j)
    (hs : t.dest d k i = some splitter ↔ t.dest d k j = some splitter) : into i ↔ into j := by
  obtain ⟨part, hpart, hinto⟩ := ht.parts
  rw [hinto, hinto, hs]
  exact or_congr_right (exists_congr fun c => and_congr_right fun hc => ha c (hpart c hc).2)

/-- A block whose members are on one side needs no split. -/
theorem Round.skip (ht : Round d splitter k into (b :: rest) t)
    (same : ∀ {i j : Nat}, t.blockOf[i]? = some b → t.blockOf[j]? = some b →
      (t.dest d k i = some splitter ↔ t.dest d k j = some splitter)) :
    Round d splitter k into rest t where
  consistent := ht.consistent
  splitter_lt := ht.splitter_lt
  class_lt := ht.class_lt
  parts := ht.parts
  settled := ht.settled
  done {i j} e hrest ha := by
    by_cases hb : t.blockOf[i]? = some b
    · exact ht.into_iff ha (same hb (e ▸ hb))
    · refine ht.done e (fun c hc => ?_) ha
      rcases List.mem_cons.1 hc with rfl | hc
      · exact hb
      · exact hrest c hc

/-- Of a block that is divided, the new part belongs to the splitter if the block did. -/
theorem Round.parts_divide (ht : Round d splitter k into rest t)
    (h : t.Halves b moved kept) : ∃ part : Nat → Prop,
      (∀ c, part c → c < (t.divide d.numClasses b moved kept).members.size ∧
        (c, k) ∈ (t.divide d.numClasses b moved kept).pending) ∧
      ∀ i, into i ↔ (t.divide d.numClasses b moved kept).dest d k i = some splitter ∨
        ∃ c, part c ∧ (t.divide d.numClasses b moved kept).dest d k i = some c := by
  obtain ⟨part, hpart, hinto⟩ := ht.parts
  have hsize : (t.divide d.numClasses b moved kept).members.size = t.members.size + 1 := by
    simp [Blocks.divide]
  refine ⟨fun c => part c ∨ (c = t.members.size ∧ (b = splitter ∨ part b)), ?_, fun i => ?_⟩
  · rintro c (hp | ⟨rfl, -⟩)
    · exact ⟨by have := (hpart c hp).1; omega, mem_pending_divide.2 (.inr (hpart c hp).2)⟩
    · exact ⟨by omega, mem_pending_divide.2 (.inl ⟨rfl, ht.class_lt⟩)⟩
  · rw [hinto, ht.consistent.dest_eq_map_parent h k i]
    cases hdest : (t.divide d.numClasses b moved kept).dest d k i with
    | none => simp
    | some c =>
      have hs := ht.splitter_lt.ne
      simp only [Option.map_some, Option.some.injEq, parent]
      by_cases e : c = t.members.size
      · have hp : ¬part t.members.size := fun hp => absurd (hpart _ hp).1 (lt_irrefl _)
        subst e
        simp [hp, Ne.symm hs]
      · simp [e]

/-- A block is divided into what moves into the splitter and what does not. -/
theorem Round.divide (hd : d.WellFormed) (ht : Round d splitter k into (b :: rest) t)
    (h : t.Halves b moved kept)
    (sides : ∀ {i j : Nat}, t.blockOf[i]? = some b → t.blockOf[j]? = some b →
      (i ∈ moved ↔ j ∈ moved) → (t.dest d k i = some splitter ↔ t.dest d k j = some splitter)) :
    Round d splitter k into rest (t.divide d.numClasses b moved kept) where
  consistent := ht.consistent.divide h
  splitter_lt := by
    have := ht.splitter_lt
    simp only [Blocks.divide, Array.size_push, Array.size_setIfInBounds]
    omega
  class_lt := ht.class_lt
  parts := ht.parts_divide h
  settled e ha hinto :=
    ha.dest_eq_divide hd ht.consistent h
      (ht.settled (ht.consistent.block_eq_of_divide h e) (ha.of_divide hd ht.consistent h) hinto)
  done {i j} e hrest ha := by
    have hc := ht.consistent
    have e0 := hc.block_eq_of_divide h e
    have ha0 := ha.of_divide hd hc h
    by_cases hb : t.blockOf[i]? = some b
    · have hbj : t.blockOf[j]? = some b := e0 ▸ hb
      refine ht.into_iff ha0 (sides hb hbj ?_)
      rw [hc.blockOf_divide h, hc.blockOf_divide h, hb, hbj] at e
      have hne := h.block_lt.ne
      by_cases hi : i ∈ moved <;> by_cases hj : j ∈ moved <;> simp [hi, hj, hne, Ne.symm hne] at e ⊢
    · have hi : i ∉ moved := fun hi => hb (hc.mem_iff.1 (h.mem_iff.2 (.inl hi)))
      refine ht.done e0 (fun c hcm => ?_) ha0
      rcases List.mem_cons.1 hcm with rfl | hcm
      · exact hb
      · have := hrest c hcm
        rwa [hc.blockOf_divide h, if_neg hi] at this

end Round

theorem Round.splitBlock (hd : d.WellFormed) {splitter : Nat} {into : Nat → Prop} {rest : List Nat}
    (ht : Round d splitter k into (b :: rest) t) :
    Round d splitter k into rest (splitBlock d splitter k t b) := by
  rcases splitBlock_cases (d := d) ht.consistent splitter k b with
    ⟨e, same⟩ | ⟨moved, kept, e, h, sides⟩
  · rw [e]
    exact ht.skip same
  · rw [e]
    exact ht.divide hd h fun hi hj => (sides hi hj).1

theorem Round.foldl (hd : d.WellFormed) {splitter : Nat} {into : Nat → Prop} {rest : List Nat}
    (ht : Round d splitter k into rest t) :
    Round d splitter k into [] (rest.foldl (Blocks.splitBlock d splitter k) t) := by
  induction rest generalizing t with
  | nil => exact ht
  | cons b rest ih => exact ih (ht.splitBlock hd)

/-! ## One iteration -/

/-- Splits the blocks of `order` one after the other, when `rest` is left of what is pending. -/
def splitAll (d : Dfa) (t : Blocks) (splitter k : Nat) (rest : List (Nat × Nat))
    (order : List Nat) : Blocks :=
  order.foldl (splitBlock d splitter k) { t with pending := rest }

/-- Any pending pair is taken, the blocks that it touches are split by it one after the other, and
what is then pending may be kept in any order. -/
inductive Iteration (d : Dfa) (t : Blocks) : Blocks → Prop where
  | take {splitter k : Nat} {rest later : List (Nat × Nat)} {order : List Nat}
      (htake : t.pending.Perm ((splitter, k) :: rest))
      (horder : order.Perm (t.touching (d.sources.getD k #[]) splitter).toList)
      (hput : later.Perm (splitAll d t splitter k rest order).pending) :
      Iteration d t { splitAll d t splitter k rest order with pending := later }

/-- The program takes the first pair. -/
theorem iteration_of_step (h : t.step d d.sources = some u) : Iteration d t u := by
  unfold Blocks.step at h
  split at h
  · cases h
  · next splitter k rest hp =>
    rw [Option.some.injEq] at h
    rw [← h]
    exact .take (.of_eq hp) (.refl _) (.refl _)

theorem exists_iteration (d : Dfa) (h : t.pending ≠ []) : ∃ u, Iteration d t u := by
  obtain ⟨⟨splitter, k⟩, rest, hp⟩ := List.exists_cons_of_ne_nil h
  exact ⟨_, .take (.of_eq hp) (.refl _) (.refl _)⟩

/-- An iteration keeps what holds without one of the pairs, does not depend on the order of the
pairs, and is kept by every split. -/
theorem Iteration.keeps {I : Blocks → Prop} (h : Iteration d t u)
    (htake : ∀ p rest, t.pending.Perm (p :: rest) → I { t with pending := rest })
    (hput : ∀ {t : Blocks} {later}, later.Perm t.pending → I t → I { t with pending := later })
    (hsplit : ∀ {t : Blocks} (splitter k b : Nat), I t → I (splitBlock d splitter k t b)) :
    I u := by
  have hfold : ∀ (splitter k : Nat) (order : List Nat) (t : Blocks), I t →
      I (order.foldl (splitBlock d splitter k) t) := by
    intro splitter k order
    induction order with
    | nil => exact fun _ h => h
    | cons b order ih => exact fun t h => ih _ (hsplit splitter k b h)
  obtain ⟨hp, -, hlater⟩ := h
  exact hput hlater (hfold _ _ _ _ (htake _ _ hp))

theorem subset_of_take {p : Nat × Nat} {rest : List (Nat × Nat)} (h : t.pending.Perm (p :: rest)) :
    rest ⊆ t.pending := fun _ hx => h.mem_iff.2 (List.mem_cons_of_mem _ hx)

theorem Sound.iteration (hd : d.WellFormed) (ht : Sound d strict t) (h : Iteration d t u) :
    Sound d strict u :=
  h.keeps (fun _ _ hp => ht.with_pending (subset_of_take hp))
    (fun hp ht => ht.with_pending hp.subset) fun splitter k b ht => ht.splitBlock hd splitter k b

theorem mem_getD_sourcesOn (hd : d.InRange) :
    i ∈ (d.sourcesOn k).getD j [] ↔ d.target? i k = some j := by
  apply (mem_getD_buckets (fun _ _ h => hd.target_lt h) _).trans
  rw [List.mem_range]
  exact ⟨fun h => h.2, fun h => ⟨Dfa.source_lt h, h⟩⟩

theorem getD_sources (hk : k < d.numClasses) : d.sources.getD k #[] = d.sourcesOn k := by
  simp [Dfa.sources, Array.getD_eq_getD_getElem?, hk]

/-- Every block with a member that moves into the splitter is touched. -/
theorem Consistent.mem_touching (hd : d.InRange) (ht : t.Consistent n) (hk : k < d.numClasses)
    {splitter : Nat} (h : t.dest d k i = some splitter) (hb : t.blockOf[i]? = some b) :
    b ∈ t.touching (d.sources.getD k #[]) splitter := by
  obtain ⟨j, hj, hs⟩ := Option.bind_eq_some_iff.1 h
  rw [getD_sources hk]
  unfold touching
  rw [IdSet.mem_ofList, List.mem_filterMap]
  exact ⟨i, List.mem_flatMap.2 ⟨j, ht.mem_iff.2 hs, (mem_getD_sourcesOn hd).2 hj⟩, hb⟩

/-- It does not matter which pair is taken, nor in which order the blocks are split that it
touches. -/
theorem Stored.round_begin (hd : d.WellFormed) (ht : Stored d t) (hs : t.Settled d)
    {splitter : Nat} {rest : List (Nat × Nat)} {order : List Nat}
    (htake : t.pending.Perm ((splitter, k) :: rest))
    (horder : order.Perm (t.touching (d.sources.getD k #[]) splitter).toList) :
    Round d splitter k (t.dest d k · = some splitter) order { t with pending := rest } := by
  have hlt := ht.pending_lt (htake.mem_iff.2 List.mem_cons_self)
  exact
    { consistent := ht.consistent.with_pending rest
      splitter_lt := hlt.1
      class_lt := hlt.2
      parts := ⟨fun _ => False, fun _ h => h.elim, fun i => by simp [dest]⟩
      settled {c i j} e ha hinto := by
        apply hs _ _ _ e
        intro b hb
        rw [htake.mem_iff, List.mem_cons, Prod.mk.injEq] at hb
        rcases hb with ⟨rfl, rfl⟩ | hb
        · exact hinto rfl
        · exact ha b hb
      done {i j} e hrest _ := by
        -- a block that is not touched has no member that moves into the splitter
        have out {l : Nat} (hl : t.blockOf[i]? = t.blockOf[l]?) : t.dest d k l ≠ some splitter := by
          intro h
          obtain ⟨m, hm, -⟩ := Option.bind_eq_some_iff.1 h
          obtain ⟨b, hb⟩ := ht.consistent.exists_block (Dfa.source_lt hm)
          have htouched := ht.consistent.mem_touching hd.inRange hlt.2 h hb
          exact hrest b (horder.mem_iff.2 htouched) (hl.trans hb)
        exact iff_of_false (out rfl) (out e) }

theorem Round.settled_end {splitter : Nat} {into : Nat → Prop}
    (ht : Round d splitter k into [] t) : t.Settled d := by
  intro c i j e ha
  apply ht.settled e ha
  intro hc
  subst hc
  exact ht.done e (by simp) ha

/-- Only which pairs are pending matters, not their order. -/
theorem Settled.with_pending (hs : t.Settled d) {pending : List (Nat × Nat)}
    (hp : pending.Perm t.pending) : Settled { t with pending } d := by
  intro k i j e ha
  exact hs k i j e fun b hb => ha b (hp.mem_iff.2 hb)

theorem Settled.iteration (hd : d.WellFormed) (hs : t.Settled d) (ht : Stored d t)
    (h : Iteration d t u) : u.Settled d := by
  obtain ⟨htake, horder, hput⟩ := h
  exact (((ht.round_begin hd hs htake horder).foldl hd).settled_end).with_pending hput

/-! ## The first partition -/

theorem ofKeys_blockOf (keys : List StateKey) (m : Nat) :
    (ofKeys keys m).blockOf = (Grouping.ofList id keys).groups := rfl

theorem size_members_ofKeys (keys : List StateKey) (m : Nat) :
    (ofKeys keys m).members.size = (Grouping.ofList id keys).leaders.size :=
  (size_foldr_modify _ _).trans (Array.size_replicate ..)

theorem group_lt_of_mem_zipIdx (keys : List StateKey) :
    ∀ p ∈ (Grouping.ofList id keys).groups.toList.zipIdx,
      p.1 < (Grouping.ofList id keys).leaders.size := by
  intro p hp
  rw [List.mem_zipIdx_iff_getElem?, Array.getElem?_toList] at hp
  exact (Grouping.ofKeys_ofList id keys).group_lt hp

theorem mem_members_ofKeys (keys : List StateKey) (m : Nat) :
    i ∈ (ofKeys keys m).members.getD b [] ↔ (ofKeys keys m).blockOf[i]? = some b := by
  apply (mem_getD_foldr_modify (group_lt_of_mem_zipIdx keys)).trans
  rw [List.mem_zipIdx_iff_getElem?, Array.getElem?_toList]
  rfl

theorem consistent_ofKeys (keys : List StateKey) (m : Nat) :
    (ofKeys keys m).Consistent keys.length where
  size_blockOf := (Grouping.ofKeys_ofList id keys).size_groups
  mem_iff := mem_members_ofKeys keys m
  ne_nil {b} hb := by
    rw [size_members_ofKeys] at hb
    obtain ⟨i, -, hi, -⟩ :=
      (Grouping.ofKeys_ofList id keys).leader (Array.getElem?_eq_getElem hb)
    exact List.ne_nil_of_mem ((mem_members_ofKeys keys m).2 hi)

theorem nodup_ofKeys (keys : List StateKey) (m : Nat) :
    ∀ l ∈ (ofKeys keys m).members, l.Nodup := by
  intro l hl
  obtain ⟨b, hb⟩ := Array.mem_iff_getElem?.1 hl
  rw [← getD_of_getElem? hb]
  refine nodup_getD_foldr_modify (group_lt_of_mem_zipIdx keys) ?_
  rw [List.zipIdx_map_snd]
  exact List.nodup_range'

theorem mem_pending_ofKeys {keys : List StateKey} {m : Nat} : (b, k) ∈ (ofKeys keys m).pending ↔
    b < (ofKeys keys m).members.size ∧ k < m := by
  rw [size_members_ofKeys]
  simp [ofKeys]

/-- While every block is pending on every class, the partition is settled. -/
theorem Consistent.settled (hd : d.WellFormed) (ht : t.Consistent n)
    (hp : ∀ b k, b < t.members.size → k < d.numClasses → (b, k) ∈ t.pending) : t.Settled d := by
  intro k i j _ ha
  have agree {i j b : Nat} (ha : t.Agree d k i j) (hb : t.dest d k i = some b) :
      t.dest d k j = some b :=
    (ha b (hp b k (ht.dest_lt hb) (class_lt_of_dest hd hb))).1 hb
  exact Option.ext fun b => ⟨agree ha, agree ha.symm⟩

/-- The states of `d` by their keys. -/
def ofDfa (d : Dfa) (strict : Bool) : Blocks :=
  ofKeys (d.states.toList.map (·.key strict)) d.numClasses

theorem consistent_ofDfa (d : Dfa) (strict : Bool) : (ofDfa d strict).Consistent d.size := by
  have := consistent_ofKeys (d.states.toList.map (·.key strict)) d.numClasses
  rwa [List.length_map, Array.length_toList] at this

theorem block_eq_ofDfa_iff (hi : i < d.size) (hj : j < d.size) :
    (ofDfa d strict).blockOf[i]? = (ofDfa d strict).blockOf[j]? ↔
      d.states[i]?.map (·.key strict) = d.states[j]?.map (·.key strict) := by
  have hkey {l : Nat} {s : DfaState} (hl : d.states[l]? = some s) :
      (d.states.toList.map (·.key strict))[l]? = some (s.key strict) := by
    rw [List.getElem?_map, Array.getElem?_toList, hl, Option.map_some]
  have hsi : d.states[i]? = some _ := Array.getElem?_eq_getElem hi
  have hsj : d.states[j]? = some _ := Array.getElem?_eq_getElem hj
  rw [ofDfa, ofKeys_blockOf, (Grouping.ofKeys_ofList id _).group_eq_iff (hkey hsi) (hkey hsj),
    hsi, hsj, Option.map_some, Option.map_some, Option.some.injEq, id, id]

theorem stored_ofDfa (d : Dfa) (strict : Bool) : Stored d (ofDfa d strict) where
  consistent := consistent_ofDfa d strict
  nodup := nodup_ofKeys _ _
  pending_lt := mem_pending_ofKeys.1

theorem sound_ofDfa (d : Dfa) (strict : Bool) : Sound d strict (ofDfa d strict) :=
  (stored_ofDfa d strict).sound fun _ hi _ hj => block_eq_ofDfa_iff hi hj

end Blocks

end ScannerGen
