import ScannerGen.Nfa.OfRegex
import ScannerGen.Proofs.Alphabet.Partition
import ScannerGen.Spec.Alphabet

/-
  From codes to classes. In a valid partition every code of the alphabet has one class
  (`Valid.classOf_eq_iff`), and the sorted map of intervals gives the same answer
  (`Valid.classAt?_eq_some`). The classes listed for a pattern are those of the codes that match it,
  if the partition is fine for the pattern (`Valid.classesOf_spec`).
-/

namespace ScannerGen

namespace Partition

variable {p : Partition} {k s : CodeSet} {c i j : Nat}

/-! ## The class of a code -/

theorem Valid.index_unique (hp : p.Valid) {k k' : CodeSet} (hi : p.classes[i]? = some k)
    (hj : p.classes[j]? = some k') (hc : c ∈ k) (hc' : c ∈ k') : i = j := by
  have apart : ∀ {i j : Nat} {k k' : CodeSet}, i < j → p.classes[i]? = some k →
      p.classes[j]? = some k' → c ∈ k → c ∉ k' := fun hij hi hj =>
    rel_of_pairwise hp.apart hij hi hj c
  rcases Nat.lt_trichotomy i j with h | h | h
  · exact absurd hc' (apart h hi hj hc)
  · exact h
  · exact absurd hc (apart h hj hi hc')

theorem Valid.mem_classes (hp : p.Valid) (hi : p.classes[i]? = some k) :
    k ∈ p.classes.toList ∧ ∃ c, c ∈ k := by
  have hk : k ∈ p.classes.toList := Array.mem_toList_iff.2 (Array.mem_of_getElem? hi)
  exact ⟨hk, hp.nonempty k hk⟩

theorem Valid.classOf_spec (hp : p.Valid) (hc : c ≤ p.top) :
    ∃ k, p.classes[p.classOf c]? = some k ∧ c ∈ k := by
  obtain ⟨k, hk, hck⟩ := (hp.cover c).2 hc
  have hfound : p.classes.findIdx? (·.contains c) ≠ none := by
    rw [Ne, Array.findIdx?_eq_none_iff]
    intro h
    have := h k (Array.mem_toList_iff.1 hk)
    rw [CodeSet.contains_iff.2 hck] at this
    cases this
  obtain ⟨i, hi⟩ := Option.ne_none_iff_exists'.1 hfound
  unfold classOf
  rw [hi, Option.getD_some]
  obtain ⟨hlt, hcon, -⟩ := Array.findIdx?_eq_some_iff_getElem.1 hi
  exact ⟨_, Array.getElem?_eq_getElem hlt, CodeSet.contains_iff.1 hcon⟩

theorem Valid.classOf_lt (hp : p.Valid) (hc : c ≤ p.top) : p.classOf c < p.numClasses := by
  obtain ⟨k, hk, -⟩ := hp.classOf_spec hc
  exact (Array.getElem?_eq_some_iff.1 hk).1

theorem Valid.classOf_eq_iff (hp : p.Valid) (hc : c ≤ p.top) :
    p.classOf c = i ↔ ∃ k, p.classes[i]? = some k ∧ c ∈ k := by
  obtain ⟨k, hk, hck⟩ := hp.classOf_spec hc
  constructor
  · rintro rfl
    exact ⟨k, hk, hck⟩
  · intro ⟨k', hk', hck'⟩
    exact hp.index_unique hk hk' hck hck'

/-- Every class is the class of a code. -/
theorem Valid.exists_classOf (hp : p.Valid) (hi : i < p.numClasses) :
    ∃ c ≤ p.top, p.classOf c = i := by
  have hget := Array.getElem?_eq_getElem hi
  obtain ⟨hk, c, hc⟩ := hp.mem_classes hget
  have hle := (hp.cover c).1 ⟨_, hk, hc⟩
  exact ⟨c, hle, (hp.classOf_eq_iff hle).2 ⟨_, hget, hc⟩⟩

theorem Valid.class_unique (hp : p.Valid) {k k' : CodeSet} (hk : k ∈ p.classes.toList)
    (hk' : k' ∈ p.classes.toList) (hc : c ∈ k) (hc' : c ∈ k') : k = k' := by
  obtain ⟨i, hi⟩ := Array.mem_iff_getElem?.1 (Array.mem_toList_iff.1 hk)
  obtain ⟨j, hj⟩ := Array.mem_iff_getElem?.1 (Array.mem_toList_iff.1 hk')
  obtain rfl := hp.index_unique hi hj hc hc'
  exact Option.some.inj (hi.symm.trans hj)

theorem Valid.classOf_eq_classOf_iff (hp : p.Valid) {c d : Nat} (hc : c ≤ p.top)
    (hd : d ≤ p.top) : p.classOf c = p.classOf d ↔ ∃ k ∈ p.classes.toList, c ∈ k ∧ d ∈ k := by
  constructor
  · intro h
    obtain ⟨k, hk, hck⟩ := (hp.classOf_eq_iff hc).1 h
    obtain ⟨k', hk', hdk⟩ := hp.classOf_spec hd
    rw [hk, Option.some.injEq] at hk'
    subst hk'
    exact ⟨k, (hp.mem_classes hk).1, hck, hdk⟩
  · intro ⟨k, hk, hck, hdk⟩
    obtain ⟨i, hi⟩ := Array.mem_iff_getElem?.1 (Array.mem_toList_iff.1 hk)
    rw [(hp.classOf_eq_iff hc).2 ⟨k, hi, hck⟩, (hp.classOf_eq_iff hd).2 ⟨k, hi, hdk⟩]

/-- Codes of one class are in or out together. -/
theorem Valid.mem_iff_of_classOf_eq (hp : p.Valid) (hs : p.Fine s) {c d : Nat} (hc : c ≤ p.top)
    (hd : d ≤ p.top) (h : p.classOf c = p.classOf d) : c ∈ s ↔ d ∈ s := by
  obtain ⟨k, hk, hck, hdk⟩ := (hp.classOf_eq_classOf_iff hc hd).1 h
  rcases hs k hk with h | h
  · exact iff_of_true (h c hck) (h d hdk)
  · exact iff_of_false (h c hck) (h d hdk)

/-! ## Lists of classes -/

/-- `ks` lists the classes of the codes in `s`. -/
structure Lists (p : Partition) (s : CodeSet) (ks : List Nat) : Prop where
  lt : ∀ k ∈ ks, k < p.numClasses
  classOf_mem : ∀ {c}, c ≤ p.top → (p.classOf c ∈ ks ↔ c ∈ s)

theorem filterMapM_eq_ok {ε α β : Type} {f : α → Except ε (Option β)} {g : α → Option β}
    {l : List α} (h : ∀ x ∈ l, f x = .ok (g x)) : l.filterMapM f = .ok (l.filterMap g) := by
  induction l with
  | nil => rfl
  | cons x l ih =>
    obtain ⟨hx, hl⟩ := List.forall_mem_cons.1 h
    rw [List.filterMapM_cons, hx, List.filterMap_cons]
    simp only [bind, Except.bind, ih hl]
    cases g x <;> rfl

/-- The classes that a test chooses. -/
theorem Valid.lists_filterMap (hp : p.Valid) {f : CodeSet → Bool}
    (h : ∀ k ∈ p.classes.toList, ∀ c, c ∈ k → (f k = true ↔ c ∈ s)) :
    p.Lists s (p.classes.toList.zipIdx.filterMap fun (k, i) => if f k then some i else none) where
  lt i hi := by
    obtain ⟨⟨k, j⟩, hj, hsome⟩ := List.mem_filterMap.1 hi
    simp only [Option.ite_none_right_eq_some, Option.some.injEq] at hsome
    obtain ⟨-, rfl⟩ := hsome
    have := List.mem_zipIdx_iff_getElem?.1 hj
    exact (List.getElem?_eq_some_iff.1 this).1
  classOf_mem {c} hc := by
    obtain ⟨k, hk, hck⟩ := hp.classOf_spec hc
    rw [← h k (hp.mem_classes hk).1 c hck, List.mem_filterMap]
    constructor
    · intro ⟨⟨k', j⟩, hj, hsome⟩
      simp only [Option.ite_none_right_eq_some, Option.some.injEq] at hsome
      obtain ⟨ht, rfl⟩ := hsome
      have hk' := List.mem_zipIdx_iff_getElem?.1 hj
      rw [Array.getElem?_toList, hk, Option.some.injEq] at hk'
      rwa [hk']
    · intro ht
      refine ⟨(k, p.classOf c), ?_, if_pos ht⟩
      rw [List.mem_zipIdx_iff_getElem?, Array.getElem?_toList]
      exact hk

/-- No class straddles a set for which the partition is fine. -/
theorem Valid.classesIn_spec (hp : p.Valid) (caseless : Bool)
    (hf : p.Fine (s.withCase caseless)) :
    ∃ ks, p.classesIn s caseless = .ok ks ∧ p.Lists (s.withCase caseless) ks := by
  unfold classesIn
  generalize s.withCase caseless = t at hf
  have hcontains : ∀ k ∈ p.classes.toList, ∀ c, c ∈ k → (t.containsSet k = true ↔ c ∈ t) := by
    intro k hk c hc
    rw [CodeSet.containsSet_iff]
    rcases hf k hk with h | h
    · exact iff_of_true h (h c hc)
    · exact iff_of_false (fun h' => h c hc (h' c hc)) (h c hc)
  refine ⟨_, filterMapM_eq_ok ?_, hp.lists_filterMap hcontains⟩
  rintro ⟨k, i⟩ hi
  have hk : k ∈ p.classes.toList := (List.mem_zipIdx hi).2.2 ▸ List.getElem_mem _
  dsimp only
  split
  · rfl
  · next hout =>
    have hempty : (t.inter k).isEmpty = true := by
      refine CodeSet.isEmpty_iff.2 fun c hc => ?_
      rw [CodeSet.mem_inter] at hc
      exact hout ((hcontains k hk c hc.2).2 hc.1)
    rw [if_pos hempty]
    rfl

/-- The classes outside a set. -/
theorem Valid.classesOutside_spec (hp : p.Valid) (hf : p.Fine s) :
    p.Lists (s.complement p.top) (p.classesOutside s) := by
  refine hp.lists_filterMap (f := fun k => (s.inter k).isEmpty) fun k hk c hc => ?_
  have hle : c ≤ p.top := (hp.cover c).1 ⟨k, hk, hc⟩
  rw [CodeSet.isEmpty_iff, CodeSet.mem_complement]
  simp only [CodeSet.mem_inter, hle, true_and]
  rcases hf k hk with h | h
  · exact iff_of_false (fun h' => h' c ⟨h c hc, hc⟩) (fun h' => h' (h c hc))
  · exact iff_of_true (fun d hd => h d hd.2 hd.1) (h c hc)

theorem Valid.classesOfCode_spec (hp : p.Valid) {caseless : Bool}
    (hf : p.Fine ((CodeSet.single i).withCase caseless)) :
    p.Lists ((CodeSet.single i).withCase caseless) (p.classesOfCode i caseless).toList := by
  have hmem : ∀ k, k ∈ (p.classesOfCode i caseless).toList ↔
      ∃ d ∈ (CodeSet.single i).withCase caseless, d ≤ p.top ∧ p.classOf d = k := by
    intro k
    rw [IdSet.mem_toList, classesOfCode, IdSet.mem_ofList, List.mem_map]
    simp only [List.mem_filter, decide_eq_true_eq, and_assoc, CodeSet.mem_withCase_single]
  constructor
  · intro k hk
    obtain ⟨d, -, hd, rfl⟩ := (hmem k).1 hk
    exact hp.classOf_lt hd
  · intro c hc
    rw [hmem]
    constructor
    · intro ⟨d, hds, hd, heq⟩
      exact (hp.mem_iff_of_classOf_eq hf hd hc heq).1 hds
    · exact fun h => ⟨c, h, hc, rfl⟩

/-- The partition is fine for all that a leaf tells apart. -/
def FineFor (p : Partition) (l : Leaf) : Prop := ∀ s ∈ l.sets, p.Fine s

theorem Valid.classesOf_spec (hp : p.Valid) {q : CodePattern} (hf : p.FineFor (.one q)) :
    ∃ ks, p.classesOf q = .ok ks ∧ p.Lists (q.codes p.top) ks := by
  cases q with
  | code c caseless =>
    exact ⟨_, rfl, hp.classesOfCode_spec (hf _ (List.mem_singleton_self _))⟩
  | oneOf s =>
    exact hp.classesIn_spec false (hf _ (List.mem_singleton_self _))
  | noneOf s =>
    exact ⟨_, rfl, hp.classesOutside_spec (hf _ (List.mem_singleton_self _))⟩

/-! ## The map of intervals -/

theorem mem_intervals {x : Interval × Nat} :
    x ∈ p.intervals ↔ ∃ k, p.classes[x.2]? = some k ∧ x.1 ∈ k.toList := by
  obtain ⟨iv, i⟩ := x
  unfold intervals
  rw [List.mem_toArray, List.mem_mergeSort, List.mem_flatMap]
  constructor
  · intro ⟨⟨k, j⟩, hj, hx⟩
    obtain ⟨iv', hiv, heq⟩ := List.mem_map.1 hx
    obtain ⟨rfl, rfl⟩ := Prod.mk.inj heq
    have := List.mem_zipIdx_iff_getElem?.1 hj
    exact ⟨k, by rwa [Array.getElem?_toList] at this, hiv⟩
  · intro ⟨k, hk, hiv⟩
    refine ⟨(k, i), ?_, List.mem_map.2 ⟨iv, hiv, rfl⟩⟩
    rw [List.mem_zipIdx_iff_getElem?, Array.getElem?_toList]
    exact hk

/-- One of the two lies before the other. -/
def Beside (a b : Interval × Nat) : Prop := a.1.hi < b.1.lo ∨ b.1.hi < a.1.lo

theorem pairwise_beside {ks : List CodeSet} (h : Classes ks) (n : Nat) :
    ((ks.zipIdx n).flatMap fun (k, i) => k.toList.map (·, i)).Pairwise Beside := by
  induction ks generalizing n with
  | nil => exact List.Pairwise.nil
  | cons k ks ih =>
    obtain ⟨-, ha, hks⟩ := Classes.cons_iff.1 h
    rw [List.zipIdx_cons, List.flatMap_cons, List.pairwise_append]
    refine ⟨?_, ih hks (n + 1), ?_⟩
    · rw [List.pairwise_map]
      exact k.spaced_toList.imp fun hab => .inl (Nat.lt_of_succ_lt hab)
    · intro a hmem b hb
      obtain ⟨iv, hiv, rfl⟩ := List.mem_map.1 hmem
      obtain ⟨⟨k', j⟩, hj, hb⟩ := List.mem_flatMap.1 hb
      obtain ⟨iv', hiv', rfl⟩ := List.mem_map.1 hb
      have hk' : k' ∈ ks := (List.mem_zipIdx hj).2.2 ▸ List.getElem_mem _
      have hle := iv.lo_le_hi
      have hle' := iv'.lo_le_hi
      by_contra hover
      simp only [Beside, not_or] at hover
      -- the later one of the two beginnings would lie in both classes
      apply ha k' hk' (max iv.lo iv'.lo)
      · exact CodeSet.mem_iff_covers.2 ⟨iv, hiv, by omega, by omega⟩
      · exact CodeSet.mem_iff_covers.2 ⟨iv', hiv', by omega, by omega⟩

/-- The map is sorted, and its intervals do not overlap. -/
theorem Valid.pairwise_intervals (hp : p.Valid) :
    (p.intervals.toList.map (·.1)).Pairwise fun a b => a.hi < b.lo := by
  have hsorted : p.intervals.toList.Pairwise fun a b => a.1.lo ≤ b.1.lo := by
    have := @List.pairwise_mergeSort _ (fun a b : Interval × Nat => decide (a.1.lo ≤ b.1.lo))
      (fun a b c h h' => by
        rw [decide_eq_true_eq] at h h' ⊢
        exact Nat.le_trans h h')
      (fun a b => by
        rw [Bool.or_eq_true, decide_eq_true_eq, decide_eq_true_eq]
        exact Nat.le_total ..)
      (p.classes.toList.zipIdx.flatMap fun (k, i) => k.toList.map (·, i))
    exact this.imp of_decide_eq_true
  have hbeside : p.intervals.toList.Pairwise Beside :=
    ((List.mergeSort_perm _ _).pairwise_iff fun h => Or.symm h).2 (pairwise_beside hp.toClasses 0)
  rw [List.pairwise_map]
  apply (hsorted.and hbeside).imp_of_mem
  intro a b _ _ hab
  have := b.1.lo_le_hi
  rcases hab.2 with h | h <;> omega

/-- The search in the sorted map finds the class of every code of the alphabet. -/
theorem Valid.classAt?_eq_some (hp : p.Valid) (hc : c ≤ p.top) :
    classAt? p.intervals c = some (p.classOf c) := by
  obtain ⟨k, hk, iv, hiv, hciv⟩ := hp.classOf_spec hc
  have hfound : (bisect (·.1.side c) p.intervals).isSome := by
    have hmem : (iv, p.classOf c) ∈ p.intervals := mem_intervals.2 ⟨k, hk, hiv⟩
    exact Interval.bisect_isSome hp.pairwise_intervals hmem hciv
  obtain ⟨n, hn⟩ := Option.isSome_iff_exists.1 hfound
  obtain ⟨⟨iv', i⟩, hx, hside⟩ := bisectFrom_eq_some hn
  obtain ⟨k', hk', hiv'⟩ := mem_intervals.1 (Array.mem_of_getElem? hx)
  have hi : p.classOf c = i :=
    (hp.classOf_eq_iff hc).2 ⟨k', hk', iv', hiv', Interval.side_eq_iff.1 hside⟩
  unfold classAt?
  rw [hn, Option.bind_some, hx, Option.map_some, hi]

end Partition

end ScannerGen
