import ScannerGen.Proofs.Nfa.Fragment
import ScannerGen.Proofs.Nfa.Subsets
import ScannerGen.Proofs.Nfa.Trim

/-
  The complement of a fragment. Every state that is built stands for a closed set of old states, or
  for the words that the old automaton cannot read at all. From there to the end lead the words
  after which the old end is not among the states reached. What has become of this after trimming
  is exact and has no dead ends (`complement_is_exact_and_trim`).
-/

namespace ScannerGen

open Computability

namespace Build

open Nfa

variable {limit : Nat} {base mid nfa : Nfa} {N : Nat → Option Nat → Nat → Prop} {t : Subsets}
  {old first error stop : Nat}

theorem ensures_newStates {Q : Unit → Nfa → Prop} (m : Nat) (h : Wired limit base mid nfa N)
    (hok : ∀ nfa' : Nfa, nfa'.size = nfa.size + m → Wired limit base mid nfa' N → Q () nfa') :
    Ensures (newStates limit m) nfa Q (Stopped limit base) := by
  induction m generalizing nfa with
  | zero => exact hok nfa rfl h
  | succ m ih =>
    refine ensures_bind (ensures_wireState h fun nfa₁ h₁ h => ih h fun nfa₂ h₂ h => ?_)
    exact hok nfa₂ (by omega) h

/-- The edges of the state for set `m`: to the end if the old end is not in the set, and by every
class to the state for the next set. -/
def SubsetEdge (old first error stop : Nat) (s : IdSet) (row : Array (Option Nat)) (m a : Nat)
    (o : Option Nat) (b : Nat) : Prop :=
  a = first + m ∧ ((old ∉ s ∧ o = none ∧ b = stop) ∨ ∃ k target?, row[k]? = some target? ∧
    o = some k ∧ b = match target? with
      | some j => first + j
      | none => error)

theorem mem_rowMoves {row : Array (Option Nat)} {k b : Nat} :
    (k, b) ∈ row.toList.zipIdx.map (fun (target?, k) =>
      (k, match target? with
        | some j => first + j
        | none => error)) ↔
      ∃ target?, row[k]? = some target? ∧ b = match target? with
        | some j => first + j
        | none => error := by
  rw [List.mem_map]
  constructor
  · intro ⟨⟨target?, k'⟩, hx, heq⟩
    obtain ⟨rfl, rfl⟩ := Prod.mk.inj heq
    rw [List.mem_zipIdx_iff_getElem?, Array.getElem?_toList] at hx
    exact ⟨target?, hx, rfl⟩
  · rintro ⟨target?, hx, rfl⟩
    refine ⟨(target?, k), ?_, rfl⟩
    rwa [List.mem_zipIdx_iff_getElem?, Array.getElem?_toList]

/-- The moves of a row, from the state for set `m`. -/
theorem ensures_wireRow {row : Array (Option Nat)} {m : Nat} {Q : Unit → Nfa → Prop}
    {E : Failure → Nfa → Prop} (h : Wired limit base mid nfa N) (hfirst : base.size ≤ first)
    (herror : base.size ≤ error ∧ error < nfa.size) (hm : first + m < nfa.size)
    (hrow : ∀ j, some j ∈ row → first + j < nfa.size)
    (hok : ∀ nfa' : Nfa, nfa'.size = nfa.size → Wired limit base mid nfa' (fun a o b =>
      N a o b ∨ a = first + m ∧ ∃ k target?, row[k]? = some target? ∧ o = some k ∧
        b = match target? with
          | some j => first + j
          | none => error) → Q () nfa') :
    Ensures (addEdges (first + m) (row.toList.zipIdx.map fun (target?, k) =>
      (k, match target? with
        | some j => first + j
        | none => error))) nfa Q E := by
  refine ensures_wireEdges h ⟨Nat.le_trans hfirst (Nat.le_add_right ..), hm⟩ ?_ fun nfa' hsize h =>
    hok nfa' hsize (h.congr fun a o b => or_congr_right (and_congr_right fun _ => ?_))
  · rintro ⟨k, b⟩ hkb
    obtain ⟨target?, htarget, rfl⟩ := mem_rowMoves.1 hkb
    cases target? with
    | some j =>
      exact ⟨Nat.le_trans hfirst (Nat.le_add_right ..), hrow j (Array.mem_of_getElem? htarget)⟩
    | none => exact herror
  · constructor
    · intro ⟨k, ho, hk⟩
      obtain ⟨target?, htarget, hb⟩ := mem_rowMoves.1 hk
      exact ⟨k, target?, htarget, ho, hb⟩
    · intro ⟨k, target?, htarget, ho, hb⟩
      exact ⟨k, ho, mem_rowMoves.2 ⟨target?, htarget, hb⟩⟩

theorem addSubset_ensures {s : IdSet} {row : Array (Option Nat)} {m : Nat} {Q : Unit → Nfa → Prop}
    {E : Failure → Nfa → Prop} (h : Wired limit base mid nfa N) (hfirst : base.size ≤ first)
    (herror : base.size ≤ error ∧ error < nfa.size) (hstop : base.size ≤ stop ∧ stop < nfa.size)
    (hm : first + m < nfa.size) (hrow : ∀ j, some j ∈ row → first + j < nfa.size)
    (hok : ∀ nfa' : Nfa, nfa'.size = nfa.size → Wired limit base mid nfa' (fun a o b =>
      N a o b ∨ SubsetEdge old first error stop s row m a o b) → Q () nfa') :
    Ensures (do
      unless old ∈ s do addEpsilon (first + m) stop
      addEdges (first + m) (row.toList.zipIdx.map fun (target?, k) =>
        (k, match target? with
          | some j => first + j
          | none => error))) nfa Q E := by
  dsimp only
  split
  · next hin =>
    refine ensures_wireRow h hfirst herror hm hrow fun nfa₁ h₁ h => hok nfa₁ h₁ ?_
    exact h.congr fun a o b => by simp [SubsetEdge, hin]
  · next hout =>
    refine ensures_bind (ensures_wireEpsilon h ⟨by omega, hm⟩ hstop fun nfa₁ h₁ h => ?_)
    refine ensures_wireRow h hfirst (h₁ ▸ herror) (h₁ ▸ hm) (h₁ ▸ hrow) fun nfa₂ h₂ h =>
      hok nfa₂ (h₂.trans h₁) (h.congr fun a o b => ?_)
    simp only [SubsetEdge, hout, not_false_eq_true, true_and, or_assoc, and_or_left]

theorem mem_setsWithRows {s : IdSet} {row : Array (Option Nat)} {m : Nat} :
    ((s, row), m) ∈ (t.sets.values.toList.zip t.rows.toList).zipIdx ↔
      t.sets.values[m]? = some s ∧ t.rows[m]? = some row := by
  rw [List.mem_zipIdx_iff_getElem?, List.getElem?_zip_eq_some, Array.getElem?_toList,
    Array.getElem?_toList]

theorem addSubsets_ensures {Q : Unit → Nfa → Prop} {E : Failure → Nfa → Prop}
    (h : Wired limit base mid nfa N) (hfirst : base.size ≤ first)
    (herror : base.size ≤ error ∧ error < nfa.size) (hstop : base.size ≤ stop ∧ stop < nfa.size)
    (ht : t.Bounded) (hfits : first + t.sets.size ≤ nfa.size)
    (hok : ∀ nfa' : Nfa, nfa'.size = nfa.size → Wired limit base mid nfa' (fun a o b => N a o b ∨
      ∃ m s row, t.sets.values[m]? = some s ∧ t.rows[m]? = some row ∧
        SubsetEdge old first error stop s row m a o b) → Q () nfa') :
    Ensures (addSubsets t old first error stop) nfa Q E := by
  unfold addSubsets
  refine (ensures_forM (I := fun done nfa' => nfa'.size = nfa.size ∧
    Wired limit base mid nfa' (fun a o b => N a o b ∨ ∃ m s row, ((s, row), m) ∈ done ∧
      SubsetEdge old first error stop s row m a o b)) ⟨rfl, h.congr (by simp)⟩ ?_).mono ?_
    fun _ _ h => h
  · intro done ⟨⟨s, row⟩, m⟩ hx nfa₁ ⟨hsize, h₁⟩
    obtain ⟨hm, hrow⟩ := Array.getElem?_eq_some_iff.1 (mem_setsWithRows.1 hx).2
    have hrows := ht.rows_le
    have htargets : ∀ j, some j ∈ row → first + j < nfa₁.size := by
      intro j hj
      have := ht.target_lt row (hrow ▸ Array.getElem_mem hm) j hj
      omega
    refine addSubset_ensures h₁ hfirst (hsize ▸ herror) (hsize ▸ hstop) (by omega) htargets
      fun nfa₂ h₂ h => ⟨h₂.trans hsize, h.congr fun a o b => ?_⟩
    simp only [List.mem_append, List.mem_singleton, Prod.mk.injEq, or_and_right, exists_or,
      or_assoc]
    simp
  · intro _ nfa₁ ⟨hsize, h₁⟩
    refine hok nfa₁ hsize (h₁.congr fun a o b => ?_)
    simp only [mem_setsWithRows, and_assoc]

/-- What the states of a complement stand for: all closed sets that are reached from the closure of
the old start, with their rows. -/
structure IsTable (base : Nfa) (f : Fragment) (t : Subsets) : Prop where
  explored : t.Explored base.numClasses base.closedMovesOf
  rows_size : t.rows.size = t.sets.size
  isClosed : ∀ s ∈ t.sets.values, base.IsClosed s
  start : t.sets.values[0]? = some (base.closure (.single f.start))

variable {f : Fragment} {start n : Nat} {K : Language Nat}

/-- The edges of a complement before it is trimmed. -/
def ComplementEdge (t : Subsets) (n old first start error stop a : Nat) (o : Option Nat) (b : Nat) :
    Prop :=
  a = error ∧ (∃ k < n, o = some k) ∧ b = error ∨ a = error ∧ o = none ∧ b = stop ∨
    a = start ∧ o = none ∧ b = first ∨
    ∃ m s row, t.sets.values[m]? = some s ∧ t.rows[m]? = some row ∧
      SubsetEdge old first error stop s row m a o b

theorem IsTable.size_pos (ht : IsTable base f t) : 0 < t.sets.size :=
  (Array.getElem?_eq_some_iff.1 ht.start).1

section Edges

variable {a b : Nat} {o : Option Nat}
  (horder : first + t.sets.size = start ∧ start + 1 = error ∧ error + 1 = stop)
  (he : ComplementEdge t n old first start error stop a o b)
include horder he

/-- Where an edge begins: at the error state, at the start, or at the state for a set. -/
theorem ComplementEdge.cases :
    (a = error ∧ ((∃ k < n, o = some k) ∧ b = error ∨ o = none ∧ b = stop)) ∨
      (a = start ∧ o = none ∧ b = first) ∨
      (a < start ∧ ∃ m s row, t.sets.values[m]? = some s ∧ t.rows[m]? = some row ∧
        SubsetEdge old first error stop s row m a o b) := by
  rcases he with ⟨ha, ho, hb⟩ | ⟨ha, ho, hb⟩ | he | ⟨m, s, row, hs, hrow, ha, he⟩
  · exact .inl ⟨ha, .inl ⟨ho, hb⟩⟩
  · exact .inl ⟨ha, .inr ⟨ho, hb⟩⟩
  · exact .inr (.inl he)
  · have hm : m < t.sets.size := (Array.getElem?_eq_some_iff.1 hs).1
    exact .inr (.inr ⟨by omega, m, s, row, hs, hrow, ha, he⟩)

theorem ComplementEdge.lt_stop : a < stop := by
  rcases he.cases horder with h | h | h <;> omega

theorem ComplementEdge.of_error (ha : a = error) :
    (∃ k < n, o = some k) ∧ b = error ∨ o = none ∧ b = stop := by
  rcases he.cases horder with h | h | h
  · exact h.2
  · omega
  · omega

theorem ComplementEdge.of_start (ha : a = start) : o = none ∧ b = first := by
  rcases he.cases horder with h | h | h
  · omega
  · exact h.2
  · omega

theorem ComplementEdge.of_set {m : Nat} {s : IdSet} (hs : t.sets.values[m]? = some s)
    (ha : a = first + m) :
    ∃ row, t.rows[m]? = some row ∧ SubsetEdge old first error stop s row m a o b := by
  have hm : m < t.sets.size := (Array.getElem?_eq_some_iff.1 hs).1
  rcases he.cases horder with h | h | ⟨-, m', s', row, hs', hrow, he⟩
  · omega
  · omega
  · obtain rfl : m = m' := by
      have := he.1
      omega
    rw [hs, Option.some.injEq] at hs'
    exact ⟨row, hrow, hs' ▸ he⟩

theorem ComplementEdge.ne_start (ht : t.Bounded) (hpos : 0 < t.sets.size) : b ≠ start := by
  rcases he.cases horder with h | h | ⟨-, m, s, row, hs, hrow, -, h | ⟨k, target?, htarget, -, hb⟩⟩
  · omega
  · omega
  · omega
  · cases target? with
    | some j =>
      have hlt := ht.target_lt row (Array.mem_of_getElem? hrow) j (Array.mem_of_getElem? htarget)
      change b = first + j at hb
      omega
    | none =>
      change b = error at hb
      omega

end Edges

/-- `w` may lead on from state `i` of a complement to the end. -/
structure MayFollow (base : Nfa) (f : Fragment) (t : Subsets) (first start error stop i : Nat)
    (w : List Nat) : Prop where
  of_stop : i = stop → w = []
  of_error : i = error → w ∈ words {k | k < base.numClasses}
  of_set : ∀ {m s}, t.sets.values[m]? = some s → i = first + m →
    w ∈ rejects {k | k < base.numClasses} {w | ∃ a ∈ s, base.Path a w f.stop}
  of_start : i = start → w ∈ rejects {k | k < base.numClasses} {w | base.Path f.start w f.stop}

/-- A step from the state for a set. -/
theorem MayFollow.of_subsetEdge {s : IdSet} {row : Array (Option Nat)} {m i b : Nat}
    {o : Option Nat} {w : List Nat} (ht : IsTable base f t) (hb : base.InRange)
    (h : MayFollow base f t first start error stop b w) (hs : t.sets.values[m]? = some s)
    (hrow : t.rows[m]? = some row) (he : SubsetEdge f.stop first error stop s row m i o b) :
    o.toList ++ w ∈ rejects {k | k < base.numClasses} {w | ∃ a ∈ s, base.Path a w f.stop} := by
  have hclosed := ht.isClosed s (Array.mem_of_getElem? hs)
  have hisRow := ht.explored.isRow hrow hs
  rcases he with ⟨-, ⟨hout, rfl, hstop⟩ | ⟨k, target?, htarget, rfl, hnext⟩⟩
  · rw [h.of_stop hstop]
    exact ⟨nil_mem_words _, fun hacc => hout (hclosed.path_nil_iff.1 hacc)⟩
  · have hk : k < base.numClasses := by
      rw [← hisRow.size]
      exact (Array.getElem?_eq_some_iff.1 htarget).1
    cases target? with
    | some j =>
      obtain ⟨c, hc, hj⟩ := hisRow.exists_of_target htarget
      obtain ⟨hw, hnot⟩ := h.of_set hj hnext
      exact ⟨cons_mem_words.2 ⟨hk, hw⟩, fun hacc => hnot ((hclosed.path_cons_iff hb hc).1 hacc)⟩
    | none =>
      refine ⟨cons_mem_words.2 ⟨hk, h.of_error hnext⟩, hclosed.not_path_cons fun c hc => ?_⟩
      obtain ⟨j, hj, -⟩ := hisRow.found hc
      rw [htarget] at hj
      cases hj

theorem MayFollow.step {i b : Nat} {o : Option Nat} {w : List Nat} (ht : IsTable base f t)
    (hb : base.InRange)
    (horder : first + t.sets.size = start ∧ start + 1 = error ∧ error + 1 = stop)
    (he : ComplementEdge t base.numClasses f.stop first start error stop i o b)
    (h : MayFollow base f t first start error stop b w) :
    MayFollow base f t first start error stop i (o.toList ++ w) where
  of_stop hi := absurd hi (Nat.ne_of_lt (he.lt_stop horder))
  of_error hi := by
    rcases he.of_error horder hi with ⟨⟨k, hk, rfl⟩, hnext⟩ | ⟨rfl, hnext⟩
    · exact cons_mem_words.2 ⟨hk, h.of_error hnext⟩
    · rw [h.of_stop hnext]
      exact nil_mem_words _
  of_set hs hi := by
    obtain ⟨row, hrow, he⟩ := he.of_set horder hs hi
    exact h.of_subsetEdge ht hb hs hrow he
  of_start hi := by
    obtain ⟨rfl, hnext⟩ := he.of_start horder hi
    obtain ⟨hw, hnot⟩ := h.of_set ht.start hnext
    exact ⟨hw, fun hacc => hnot (hb.path_closure.2 ⟨f.start, IdSet.mem_single.2 rfl, hacc⟩)⟩

/-- The words that lead on to the end. -/
theorem complement_sound (ht : IsTable base f t) (hb : base.InRange)
    (horder : first + t.sets.size = start ∧ start + 1 = error ∧ error + 1 = stop)
    (hedge : ∀ {a o b}, first ≤ a → nfa.Edge a o b →
      ComplementEdge t base.numClasses f.stop first start error stop a o b)
    {i : Nat} {w : List Nat} (p : nfa.Path i w stop) :
    MayFollow base f t first start error stop i w := by
  have hvoid : ∀ {i w}, i < first ∨ i = stop ∧ w = [] →
      MayFollow base f t first start error stop i w := by
    intro i w h
    refine ⟨fun hi => ?_, by omega, fun {m s} hs hi => ?_, by omega⟩
    · rcases h with h | ⟨-, rfl⟩
      · omega
      · rfl
    · have : m < t.sets.size := (Array.getElem?_eq_some_iff.1 hs).1
      omega
  generalize hl : stop = l at p
  induction p with
  | refl i =>
    subst hl
    exact hvoid (.inr ⟨rfl, rfl⟩)
  | @step i b l o w he p ih =>
    subst hl
    rcases Nat.lt_or_ge i first with hi | hi
    · exact hvoid (.inl hi)
    · exact .step ht hb horder (hedge hi he) (ih rfl)

section Complete

variable (hedge : ∀ {a o b}, ComplementEdge t n old first start error stop a o b → nfa.Edge a o b)
include hedge

/-- From the error state every word leads to the end. -/
theorem path_error {w : List Nat} (hw : w ∈ words {k | k < n}) : nfa.Path error w stop := by
  induction w with
  | nil => exact .eps (hedge (o := none) (.inr (.inl ⟨rfl, rfl, rfl⟩))) (.refl stop)
  | cons k w ih =>
    obtain ⟨hk, hw⟩ := cons_mem_words.1 hw
    exact .move (hedge (o := some k) (.inl ⟨rfl, ⟨k, hk, rfl⟩, rfl⟩)) (ih hw)

/-- From the state for a set all words lead to the end that lead from no member to the old end. -/
theorem path_set {m : Nat} {s : IdSet} {w : List Nat} (ht : IsTable base f t) (hb : base.InRange)
    (hn : n = base.numClasses) (hw : w ∈ words {k | k < n}) (hs : t.sets.values[m]? = some s)
    (hnot : ¬∃ a ∈ s, base.Path a w old) : nfa.Path (first + m) w stop := by
  induction w generalizing m s with
  | nil =>
    obtain ⟨row, hrow, -⟩ := ht.explored.exists_row ht.rows_size hs
    have hout : old ∉ s := fun h => hnot ⟨_, h, .refl _⟩
    have he := hedge (.inr (.inr (.inr ⟨m, s, row, hs, hrow, rfl, .inl ⟨hout, rfl, rfl⟩⟩)))
    exact .eps he (.refl stop)
  | cons k w ih =>
    obtain ⟨hk, hw⟩ := cons_mem_words.1 hw
    obtain ⟨row, hrow, hisRow⟩ := ht.explored.exists_row ht.rows_size hs
    have hclosed := ht.isClosed s (Array.mem_of_getElem? hs)
    have hmove : ∀ {target?}, row[k]? = some target? → nfa.Edge (first + m) (some k)
        (match target? with
          | some j => first + j
          | none => error) := fun htarget =>
      hedge (.inr (.inr (.inr ⟨m, s, row, hs, hrow, rfl, .inr ⟨k, _, htarget, rfl, rfl⟩⟩)))
    by_cases hnext : ∃ c, (k, c) ∈ base.closedMovesOf s
    · obtain ⟨c, hc⟩ := hnext
      obtain ⟨j, hj, hval⟩ := hisRow.found hc
      refine .move (hmove hj) (ih hw hval fun h => hnot ?_)
      exact (hclosed.path_cons_iff hb hc).2 h
    · have hmissing := hisRow.missing (hn ▸ hk) fun c hc => hnext ⟨c, hc⟩
      exact .move (hmove hmissing) (path_error hedge hw)

end Complete

/-- All words that the fragment rejects lead to the end. -/
theorem complement_complete (ht : IsTable base f t) (hb : base.InRange)
    (hedge : ∀ {a o b}, ComplementEdge t base.numClasses f.stop first start error stop a o b →
      nfa.Edge a o b)
    {w : List Nat} (hw : w ∈ rejects {k | k < base.numClasses} {w | base.Path f.start w f.stop}) :
    nfa.Path start w stop := by
  refine .eps (hedge (o := none) (.inr (.inr (.inl ⟨rfl, rfl, rfl⟩)))) ?_
  refine path_set hedge ht hb rfl hw.1 ht.start fun h => hw.2 ?_
  obtain ⟨a, ha, p⟩ := hb.path_closure.1 h
  rwa [IdSet.mem_single.1 ha] at p

theorem IsTable.of_ofStart {limit : Nat}
    (ht : Subsets.Numbers limit base.IsClosed (.single (base.closure (.single f.start))) t.sets ∧
      t.Explored base.numClasses base.closedMovesOf ∧ t.rows.size = t.sets.size) :
    IsTable base f t where
  explored := ht.2.1
  rows_size := ht.2.2
  isClosed := ht.1.all
  start := ht.1.keeps rfl

theorem IsTable.bounded (ht : IsTable base f t) : t.Bounded where
  rows_le := Nat.le_of_eq ht.rows_size
  target_lt row hrow j hj := by
    obtain ⟨m, hm⟩ := Array.mem_iff_getElem?.1 hrow
    obtain ⟨k, hk⟩ := Array.mem_iff_getElem?.1 hj
    have hlt : m < t.sets.size := ht.rows_size ▸ (Array.getElem?_eq_some_iff.1 hm).1
    have hget : t.sets.values[m]? = some t.sets.values[m] := Array.getElem?_eq_getElem hlt
    obtain ⟨c, -, hc⟩ := (ht.explored.isRow hm hget).exists_of_target hk
    exact (Array.getElem?_eq_some_iff.1 hc).1

/-- The rows go by class. -/
theorem IsTable.label_lt (ht : IsTable base f t) {a b k : Nat}
    (he : ComplementEdge t base.numClasses old first start error stop a (some k) b) :
    k < base.numClasses := by
  rcases he with ⟨-, ⟨k', hk, heq⟩, -⟩ | ⟨-, heq, -⟩ | ⟨-, heq, -⟩ |
    ⟨m, s, row, hs, hrow, -, ⟨-, heq, -⟩ | ⟨k', target?, htarget, heq, -⟩⟩
  · exact Option.some.inj heq ▸ hk
  · cases heq
  · cases heq
  · cases heq
  · rw [← (ht.explored.isRow hrow hs).size, Option.some.inj heq]
    exact (Array.getElem?_eq_some_iff.1 htarget).1

theorem complement_ends (ht : t.Bounded) (hpos : 0 < t.sets.size) (hb : base.Linked)
    (h : Wired limit base base nfa (ComplementEdge t n old base.size start error stop))
    (horder : base.size + t.sets.size = start ∧ start + 1 = error ∧ error + 1 = stop)
    (hsize : stop < nfa.size) : Ends base nfa ⟨start, stop⟩ :=
  h.new_ends hb (.refl limit base) (by omega) (by omega) (by omega)
    (fun _ _ he => he.ne_start horder ht hpos rfl)
    fun _ _ he => absurd (he.lt_stop horder) (Nat.lt_irrefl stop)

theorem IsTable.isFragment (ht : IsTable base f t) (hb : base.InRange)
    (h : Wired limit base base nfa
      (ComplementEdge t base.numClasses f.stop base.size start error stop))
    (horder : base.size + t.sets.size = start ∧ start + 1 = error ∧ error + 1 = stop)
    (hsize : stop < nfa.size) :
    IsFragment base nfa ⟨start, stop⟩
      (rejects {k | k < base.numClasses} {w | base.Path f.start w f.stop}) := by
  have hedge : ∀ {a o b}, base.size ≤ a → (nfa.Edge a o b ↔
      ComplementEdge t base.numClasses f.stop base.size start error stop a o b) := fun ha => by
    rw [h.adds.edge, or_iff_right (not_edge_of_ge ha _ _)]
  refine ⟨complement_ends ht.bounded ht.size_pos hb.linked h horder hsize, fun w => ?_⟩
  constructor
  · exact fun p => (complement_sound ht hb horder (fun ha => (hedge ha).1) p).of_start rfl
  · exact complement_complete ht hb fun {a o b} he => (h.adds.edge a o b).2 (.inr he)

/-- The states for the sets come right before the start. -/
theorem ensures_wireComplement {Q : Fragment → Nfa → Prop} (ht : t.Bounded)
    (hpos : 0 < t.sets.size)
    (hok : ∀ start error stop nfa,
      (base.size + t.sets.size = start ∧ start + 1 = error ∧ error + 1 = stop) →
      stop < nfa.size → Wired limit base base nfa
        (ComplementEdge t base.numClasses old base.size start error stop) →
        Q ⟨start, stop⟩ (nfa.trim base.size stop)) :
    Ensures (do
      newStates limit t.sets.size
      let start ← newState limit
      let error ← newState limit
      let stop ← newState limit
      addMoves error (List.range base.numClasses) error
      addEpsilon error stop
      addEpsilon start base.size
      addSubsets t old base.size error stop
      modify (·.trim base.size stop)
      pure ⟨start, stop⟩) base Q (Stopped limit base) := by
  refine ensures_bind (ensures_newStates _ (.refl (.refl limit base)) fun nfa₁ h₁ h => ?_)
  refine ensures_bind (ensures_wireState h fun nfa₂ h₂ h => ?_)
  refine ensures_bind (ensures_wireState h fun nfa₃ h₃ h => ?_)
  refine ensures_bind (ensures_wireState h fun nfa₄ h₄ h => ?_)
  refine ensures_bind (ensures_wireMoves h (by omega) (by omega) fun nfa₅ h₅ h => ?_)
  refine ensures_bind (ensures_wireEpsilon h (by omega) (by omega) fun nfa₆ h₆ h => ?_)
  refine ensures_bind (ensures_wireEpsilon h (by omega) (by omega) fun nfa₇ h₇ h => ?_)
  refine ensures_bind (addSubsets_ensures h (Nat.le_refl _) (by omega) (by omega) ht (by omega)
    fun nfa₈ h₈ h => ?_)
  refine ensures_bind (ensures_modify ?_)
  refine ensures_pure (hok nfa₁.size nfa₂.size nfa₃.size nfa₈ (by omega) (by omega) ?_)
  exact h.congr fun a o b => by simp only [false_or, ComplementEdge, List.mem_range, or_assoc]

/-- The complement of a fragment is one for the words that it rejects, without dead ends. -/
theorem ensures_complement {nfa : Nfa} (hb : nfa.InRange) (hstart : f.start < nfa.size)
    (hK : ∀ w, nfa.Path f.start w f.stop ↔ w ∈ K) :
    Ensures (complement limit f) nfa
      (fun g nfa' => Grown limit nfa nfa' ∧
        IsFragment nfa nfa' g (rejects {k | k < nfa.numClasses} K) ∧
        nfa'.AllLive nfa.size g.stop) (Stopped limit nfa) := by
  obtain rfl : {w | nfa.Path f.start w f.stop} = K := by
    ext w
    exact hK w
  have hwithin : nfa.Within (.single f.start) := by
    intro i hi
    rwa [IdSet.mem_single.1 hi]
  have hall : ∀ s ∈ (Numbering.single (nfa.closure (.single f.start))).values,
      nfa.IsClosed s := by
    intro s hs
    rw [Numbering.values_single, Array.mem_singleton] at hs
    subst hs
    exact hb.isClosed_closure hwithin
  have hspec : Yields (Subsets.ofStart nfa.closedMoves nfa.numClasses limit _) _ _ :=
    Subsets.ofStart_spec (Subsets.steps_closedMoves hb) hall
  unfold complement
  refine ensures_bind (ensures_get (ensures_bind (ensures_demand (hb.closure?_eq_ok hwithin) ?_)))
  split
  · next e he =>
    exact ensures_throw ⟨(hspec.of_error he).1, .refl limit nfa⟩
  · next t ht =>
    have ht := IsTable.of_ofStart (hspec.of_ok ht)
    refine ensures_wireComplement ht.bounded ht.size_pos
      fun start error stop nfa' horder hsize h => ?_
    have hg : Grown limit nfa nfa' := h.grown (.refl limit nfa) fun _ _ _ => ht.label_lt
    exact ⟨hg.trim stop, (ht.isFragment hb h horder hsize).trim hg.toApart,
      allLive_trim hg.closedFrom⟩

/-- Fragment `g` of `nfa'` is what has to come of the complement of fragment `f` of `nfa`. -/
structure IsComplement (nfa : Nfa) (f : Fragment) (nfa' : Nfa) (g : Fragment) : Prop where
  path_iff : ∀ w, (∀ k ∈ w, k < nfa.numClasses) →
    (nfa'.Path g.start w g.stop ↔ ¬nfa.Path f.start w f.stop)
  live : ∀ w i, nfa'.Path g.start w i → i ≠ g.start → ∃ v, nfa'.Path i v g.stop
  old : ∀ i < nfa.size, nfa'.states[i]? = nfa.states[i]?

theorem IsComplement.of_isFragment {nfa nfa' : Nfa} {g : Fragment} (h : Grown limit nfa nfa')
    (hg : IsFragment nfa nfa' g
      (rejects {k | k < nfa.numClasses} {w | nfa.Path f.start w f.stop}))
    (hlive : nfa'.AllLive nfa.size g.stop) : IsComplement nfa f nfa' g where
  path_iff w hw := (hg.language w).trans (and_iff_right hw)
  live _ _ p hi := (hlive.of_path h.closedFrom hg.start_ge p).resolve_left hi
  old _ hi := h.old hi

/-- The fragment may lie anywhere in the automaton, with edges into its start and out of its end. -/
theorem complement_is_exact_and_trim {nfa : Nfa} (hb : nfa.InRange) (hstart : f.start < nfa.size) :
    (∀ g nfa', complement limit f nfa = .ok g nfa' → IsComplement nfa f nfa' g) ∧
      ∀ e nfa', complement limit f nfa = .error e nfa' → e = .error (.stateLimit limit) ∧
        ∀ i < nfa.size, nfa'.states[i]? = nfa.states[i]? := by
  have hspec : Ensures (complement limit f) nfa _ _ := ensures_complement hb hstart fun w => Iff.rfl
  constructor
  · intro g nfa' hok
    obtain ⟨h, hg, hlive⟩ := hspec.of_ok hok
    exact .of_isFragment h hg hlive
  · intro e nfa' herror
    obtain ⟨he, h⟩ := hspec.of_error herror
    exact ⟨he, fun i hi => h.old hi⟩

/-- A loop without labels that leads back into the start and out of the end. -/
def looped : Nfa where
  states :=
    #[⟨[(0, 1), (0, 2)], .single 2, false, false, none⟩, ⟨[(1, 0)], .single 2, false, false, none⟩,
      ⟨[(1, 2)], .single 0, false, false, none⟩]
  numClasses := 2
  numLex := 0

theorem complement_is_exact_and_trim_looped : looped.InRange ∧ 0 < looped.size ∧
    ∃ g nfa', complement 20 ⟨0, 1⟩ looped = .ok g nfa' ∧ IsComplement looped ⟨0, 1⟩ nfa' g := by
  have h : looped.InRange := by decide
  have hlt : 0 < looped.size := by decide
  obtain ⟨g, nfa', hok⟩ := exists_eq_ok_of_run
    (show (run (complement 20 ⟨0, 1⟩) looped).toOption.isSome = true by decide +kernel)
  exact ⟨h, hlt, g, nfa', hok, (complement_is_exact_and_trim h hlt).1 g nfa' hok⟩

end Build

end ScannerGen
