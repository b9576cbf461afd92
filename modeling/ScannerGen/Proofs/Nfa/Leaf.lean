import ScannerGen.Proofs.Nfa.Fragment

/-
  The fragments of leaves: an edge for every class of a code that matches, or a chain of states for
  a text. Which classes these are is nothing to the ends of the fragment and the words that lead
  through it (`insertText_ensures`); they are only asked about for the labels (`builds_insertText`).
-/

namespace ScannerGen

namespace Nfa

variable {limit : Nat} {base mid nfa nfa' : Nfa} {N : Nat → Option Nat → Nat → Prop}

/-- Two new states with edges from one to the other. -/
theorem Wired.direct {K : Language Nat} (h : Wired limit base mid nfa N) (hb : base.Linked)
    (hm : Apart limit base mid) {start stop : Nat} {O : Option Nat → Prop}
    (hN : ∀ a o b, N a o b ↔ a = start ∧ O o ∧ b = stop)
    (hK : ∀ w, w ∈ K ↔ ∃ o, O o ∧ w = o.toList)
    (hstart : mid.size ≤ start ∧ start < nfa.size) (hstop : mid.size ≤ stop ∧ stop < nfa.size)
    (hne : start ≠ stop) : IsFragment base nfa ⟨start, stop⟩ K := by
  have hexit : ∀ o j, ¬N stop o j := fun o j he => hne ((hN ..).1 he).1.symm
  have hend : mid.onward N stop stop = 1 := by
    rw [onward_eq_leaving (not_edge_of_ge hstop.1), leaving_end hexit]
  refine ⟨h.new_ends hb hm hstart hstop hne ?_ hexit, fun w => ?_⟩
  · exact fun i o he => hne ((hN ..).1 he).2.2
  · rw [h.adds.path_iff_mem, onward_eq_leaving (not_edge_of_ge hstart.1), hK]
    constructor
    · rintro (⟨heq, -⟩ | ⟨o, b, v, he, hv, rfl⟩)
      · exact absurd heq hne
      · obtain ⟨-, ho, rfl⟩ := (hN ..).1 he
        obtain rfl : v = [] := by rwa [hend] at hv
        exact ⟨o, ho, List.append_nil _⟩
    · rintro ⟨o, ho, rfl⟩
      exact .inr ⟨o, stop, [], (hN ..).2 ⟨rfl, ho, rfl⟩, hend ▸ rfl, (List.append_nil _).symm⟩

/-- A chain has been built from `i` to `l`, on which a word passes by one of the classes `kss` after
the other. -/
structure IsChain (nfa nfa' : Nfa) (i l : Nat) (kss : List IdSet) : Prop where
  size_le : nfa.size ≤ nfa'.size
  stop_lt : l < nfa'.size
  stop_eq : kss = [] → l = i
  stop_ge : kss ≠ [] → nfa.size ≤ l
  edge : ∀ {a o b}, nfa'.Edge a o b →
    nfa.Edge a o b ∨ nfa.size ≤ b ∧ ∃ ks ∈ kss, ∃ k ∈ ks, o = some k
  frame : ∀ {a o b}, a < nfa.size → a ≠ i → (nfa'.Edge a o b ↔ nfa.Edge a o b)
  no_exit : ∀ {o b}, ¬nfa'.Edge l o b
  language : ∀ w, nfa'.Path i w l ↔ List.Forall₂ (fun k ks => k ∈ ks) w kss

theorem isChain_nil {i : Nat} (hi : i < nfa.size) (hstuck : ∀ o b, ¬nfa.Edge i o b) :
    IsChain nfa nfa i i [] where
  size_le := Nat.le_refl _
  stop_lt := hi
  stop_eq _ := rfl
  stop_ge h := absurd rfl h
  edge := .inl
  frame _ _ := Iff.rfl
  no_exit := hstuck _ _
  language w := by
    rw [List.forall₂_nil_right_iff]
    refine ⟨fun p => (p.eq_of_stuck hstuck).2, ?_⟩
    rintro rfl
    exact .refl i

theorem IsChain.start_le {i l : Nat} {kss : List IdSet} (h : IsChain nfa nfa' i l kss)
    (hi : i < nfa.size) : i ≤ l := by
  by_cases hkss : kss = []
  · exact Nat.le_of_eq (h.stop_eq hkss).symm
  · exact Nat.le_trans (Nat.le_of_lt hi) (h.stop_ge hkss)

/-- A chain that is lengthened at its beginning. -/
theorem IsChain.cons {i l : Nat} {ks : IdSet} {kss : List IdSet} (hi : i < nfa.size)
    (hstuck : ∀ o b, ¬nfa.Edge i o b)
    (hedge : ∀ a o b, mid.Edge a o b ↔
      nfa.Edge a o b ∨ a = i ∧ (∃ k ∈ ks.toList, o = some k) ∧ b = nfa.size)
    (hsize : mid.size = nfa.size + 1) (h : IsChain mid nfa' nfa.size l kss) :
    IsChain nfa nfa' i l (ks :: kss) where
  size_le := by
    have := h.size_le
    omega
  stop_lt := h.stop_lt
  stop_eq := by simp
  stop_ge _ := h.start_le (by omega)
  edge {a o b} he := by
    rcases h.edge he with he | ⟨hb, ks', hks', ho⟩
    · rcases (hedge a o b).1 he with he | ⟨-, ho, hb⟩
      · exact .inl he
      · exact .inr ⟨Nat.le_of_eq hb.symm, ks, List.mem_cons_self, ho⟩
    · exact .inr ⟨by omega, ks', List.mem_cons_of_mem _ hks', ho⟩
  frame {a o b} ha hne := by
    rw [h.frame (by omega) (by omega), hedge, or_iff_left fun he => hne he.1]
  no_exit := h.no_exit
  language w := by
    have hfirst : ∀ o b, nfa'.Edge i o b ↔ (∃ k ∈ ks.toList, o = some k) ∧ b = nfa.size := by
      intro o b
      rw [h.frame (by omega) (by omega), hedge, or_iff_right (hstuck o b), and_iff_right rfl]
    constructor
    · intro p
      rcases p.cases_first with ⟨rfl, -⟩ | ⟨o, j, u, he, p, rfl⟩
      · exact absurd (h.start_le (by omega)) (Nat.not_le.2 hi)
      · obtain ⟨⟨k, hk, rfl⟩, rfl⟩ := (hfirst o j).1 he
        exact .cons hk ((h.language u).1 p)
    · intro hw
      cases hw with
      | cons hk hw =>
        exact .move ((hfirst (some _) _).2 ⟨⟨_, hk, rfl⟩, rfl⟩) ((h.language _).2 hw)

/-- A chain that begins at the one new state is a fragment. -/
theorem IsChain.isFragment {l : Nat} {kss : List IdSet} (hb : base.Linked)
    (hedge : ∀ {a o b}, nfa.Edge a o b ↔ base.Edge a o b) (hsize : nfa.size = base.size + 1)
    (h : IsChain nfa nfa' base.size l kss) (hne : kss ≠ []) :
    IsFragment base nfa' ⟨base.size, l⟩ {w | List.Forall₂ (fun k ks => k ∈ ks) w kss} where
  start_ge := Nat.le_refl _
  start_lt := by
    have := h.size_le
    show base.size < nfa'.size
    omega
  stop_ge := by
    have := h.stop_ge hne
    show base.size ≤ l
    omega
  stop_lt := h.stop_lt
  start_ne_stop := by
    have := h.stop_ge hne
    show base.size ≠ l
    omega
  no_entry {a o} _ he := by
    rcases h.edge he with he | ⟨he, -⟩
    · exact absurd (hb (hedge.1 he)) (Nat.lt_irrefl _)
    · change nfa.size ≤ base.size at he
      omega
  no_exit := h.no_exit
  language := h.language

end Nfa

namespace Build

open Nfa

variable {limit n : Nat} {base nfa : Nfa} {p : Partition}

/-- The classes of the characters of a text. -/
def textClasses (p : Partition) (caseless : Bool) (cs : List Char) : List IdSet :=
  cs.map fun c => p.classesOfCode c.toNat caseless

/-- Two new states with an edge for every class. -/
theorem ensures_wireClasses {ks : List Nat} {Q : Fragment → Nfa → Prop}
    (hok : ∀ start stop nfa, start = base.size → stop = start + 1 → nfa.size = stop + 1 →
      Wired limit base base nfa (fun a o b => a = start ∧ (∃ k ∈ ks, o = some k) ∧ b = stop) →
        Q ⟨start, stop⟩ nfa) :
    Ensures (do
      let start ← newState limit
      let stop ← newState limit
      addMoves start (IdSet.ofList ks).toList stop
      pure ⟨start, stop⟩) base Q (Stopped limit base) := by
  refine ensures_bind (ensures_wireState (.refl (.refl limit base)) fun nfa₁ h₁ h => ?_)
  refine ensures_bind (ensures_wireState h fun nfa₂ h₂ h => ?_)
  refine ensures_bind (ensures_wireMoves h (by omega) (by omega) fun nfa₃ h₃ h => ?_)
  refine ensures_pure (hok _ _ _ rfl h₁ (by omega) (h.congr fun a o b => ?_))
  simp only [false_or, IdSet.mem_toList, IdSet.mem_ofList]

theorem insertChars_ensures {caseless : Bool} {cs : List Char} {i : Nat}
    (h : Apart limit base nfa) (hi : base.size ≤ i ∧ i < nfa.size)
    (hstuck : ∀ o b, ¬nfa.Edge i o b) :
    Ensures (insertChars p limit caseless i cs) nfa
      (fun l nfa' => Apart limit base nfa' ∧ IsChain nfa nfa' i l (textClasses p caseless cs))
      (Stopped limit base) := by
  induction cs generalizing nfa i with
  | nil => exact ensures_pure ⟨h, isChain_nil hi.2 hstuck⟩
  | cons c cs ih =>
    refine ensures_bind (ensures_wireState (.refl h) fun nfa₁ h₁ hw => ?_)
    refine ensures_bind (ensures_wireMoves hw (by omega) (by omega) fun nfa₂ h₂ hw => ?_)
    have hedge := hw.adds.edge
    simp only [false_or] at hedge
    have hnext : ∀ o b, ¬nfa₂.Edge nfa.size o b := by
      intro o b he
      rcases (hedge ..).1 he with he | he
      · exact Nat.lt_irrefl _ he.lt_size
      · omega
    refine (ih hw.apart (by omega) hnext).mono ?_ fun _ _ h => h
    intro l nfa' ⟨hg, hl⟩
    exact ⟨hg, hl.cons hi.2 hstuck hedge (by omega)⟩

/-- The labels of the new edges are classes of characters of the text. -/
theorem insertText_ensures (hb : base.Linked) (s : String) (caseless : Bool) :
    Ensures (insertText p limit s caseless) base
      (fun f nfa => Apart limit base nfa ∧
        IsFragment base nfa f
          {w | List.Forall₂ (fun k ks => k ∈ ks) w (textClasses p caseless s.toList)} ∧
        ∀ {i k j}, base.size ≤ i → nfa.Edge i (some k) j →
          ∃ ks ∈ textClasses p caseless s.toList, k ∈ ks)
      (Stopped limit base) := by
  refine ensures_bind (ensures_wireState (.refl (.refl limit base)) fun nfa₁ h₁ h => ?_)
  split
  · next hempty =>
    obtain rfl := String.isEmpty_iff.1 hempty
    refine ensures_bind (ensures_wireState h fun nfa₂ h₂ h => ?_)
    refine ensures_bind (ensures_wireEpsilon h (by omega) (by omega) fun nfa₃ h₃ h => ?_)
    refine ensures_pure ⟨h.apart, ?_, fun hi he => ?_⟩
    · refine h.direct hb (.refl limit base) (O := (· = none)) (by simp) (fun w => ?_) (by omega)
        (by omega) (by omega)
      simp only [exists_eq_left, Option.toList_none]
      exact List.forall₂_nil_right_iff
    · have he := (h.adds.edge ..).1 he
      simp only [not_edge_of_ge hi, reduceCtorEq, false_and, and_false, or_false] at he
  · next hempty =>
    have hne : textClasses p caseless s.toList ≠ [] := by
      unfold textClasses
      rw [ne_eq, List.map_eq_nil_iff, String.toList_eq_nil_iff]
      exact fun hs => hempty (String.isEmpty_iff.2 hs)
    have hedge : ∀ {a o b}, nfa₁.Edge a o b ↔ base.Edge a o b := by simp [h.adds.edge]
    have hstuck : ∀ o b, ¬nfa₁.Edge base.size o b := fun o b he =>
      Nat.lt_irrefl _ (hedge.1 he).lt_size
    refine ensures_bind ((insertChars_ensures h.apart (by omega) hstuck).mono ?_ fun _ _ h => h)
    intro l nfa₂ ⟨hg, hl⟩
    refine ensures_pure ⟨hg, hl.isFragment hb hedge h₁ hne, fun hi he => ?_⟩
    rcases hl.edge he with he | ⟨-, ks, hks, k, hk, heq⟩
    · exact absurd (hedge.1 he) (not_edge_of_ge hi _ _)
    · obtain rfl := Option.some.inj heq
      exact ⟨ks, hks, hk⟩

theorem builds_insertText {s : String} {caseless : Bool}
    (hlt : ∀ ks ∈ textClasses p caseless s.toList, ∀ k ∈ ks, k < n) :
    Builds limit n (insertText p limit s caseless)
      {w | List.Forall₂ (fun k ks => k ∈ ks) w (textClasses p caseless s.toList)} := by
  rintro base hb rfl
  refine (insertText_ensures hb.linked s caseless).mono ?_ fun _ _ h => h
  intro f nfa ⟨h, hf, hlabels⟩
  refine ⟨⟨h, fun hi he => ?_⟩, hf⟩
  obtain ⟨ks, hks, hk⟩ := hlabels hi he
  exact hlt ks hks _ hk

/-- The words of one class, which is one of `ks`. -/
def singles (ks : List Nat) : Language Nat := {w | ∃ k ∈ ks, w = [k]}

theorem isFragment_singles {ks : List Nat} {start stop : Nat}
    (h : Wired limit base base nfa
      (fun a o b => a = start ∧ (∃ k ∈ ks, o = some k) ∧ b = stop)) (hb : base.Linked)
    (hstart : start = base.size) (hstop : stop = start + 1) (hsize : nfa.size = stop + 1) :
    IsFragment base nfa ⟨start, stop⟩ (singles ks) := by
  refine h.direct hb (.refl limit base) (fun _ _ _ => .rfl) (fun w => ?_) (by omega) (by omega)
    (by omega)
  constructor
  · rintro ⟨k, hk, rfl⟩
    exact ⟨some k, ⟨k, hk, rfl⟩, rfl⟩
  · rintro ⟨_, ⟨k, hk, rfl⟩, rfl⟩
    exact ⟨k, hk, rfl⟩

theorem builds_insertClasses {ks : List Nat} (hlt : ∀ k ∈ ks, k < n) :
    Builds limit n (insertClasses limit (.ok ks)) (singles ks) := by
  rintro base hb rfl
  refine ensures_bind (ensures_pure ?_)
  refine ensures_wireClasses fun start stop nfa hstart hstop hsize h => ?_
  refine ⟨h.grown (.refl limit base) fun a k b he => ?_,
    isFragment_singles h hb.linked hstart hstop hsize⟩
  obtain ⟨-, ⟨k', hk, heq⟩, -⟩ := he
  obtain rfl := Option.some.inj heq
  exact hlt _ hk

end Build

end ScannerGen
