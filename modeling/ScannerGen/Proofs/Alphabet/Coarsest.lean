import ScannerGen.Proofs.Alphabet.ClassOf

/-
  Partitions are no finer than they have to be. Refinement by a set parts two codes of a class only
  if one of them is in the set and the other is not (`Valid.classOf_refine_eq_iff`). So after any
  refinements two codes share a class as long as nothing shown tells them apart
  (`refined_is_coarsest`).
-/

namespace ScannerGen

/-- What a partition can be shown: a set, a code, or every character of a text. -/
inductive Sample where
  | set (s : CodeSet)
  | code (c : Nat)
  | text (s : String)
  deriving DecidableEq, Repr

namespace Sample

/-- The sets that become unions of classes, each by itself. -/
def sets : Sample → List CodeSet
  | set s => [s]
  | code c => [.single c]
  | text s => s.toList.map fun c => .single c.toNat

end Sample

/-- The code is a member, or, if `caseless`, a case variant of one. -/
def CodeSet.MemUpToCase (s : CodeSet) (caseless : Bool) (c : Nat) : Prop :=
  c ∈ s ∨ caseless = true ∧ ∃ d ∈ s, c ∈ caseVariants d

theorem CodeSet.mem_withCase {s : CodeSet} {caseless : Bool} {c : Nat} :
    c ∈ s.withCase caseless ↔ s.MemUpToCase caseless c := by
  unfold CodeSet.withCase CodeSet.MemUpToCase
  split
  · next h => rw [CodeSet.mem_caseless, and_iff_right h]
  · next h => rw [or_iff_left fun h' => h h'.1]

namespace Partition

variable {p : Partition} {s : CodeSet} {sets : List CodeSet} {top c d : Nat}

/-! ## One refinement -/

/-- A class is parted where the set ends, and nowhere else. -/
theorem Valid.classOf_refine_eq_iff (hp : p.Valid) (hc : c ≤ p.top) (hd : d ≤ p.top) :
    (p.refine s).classOf c = (p.refine s).classOf d ↔
      p.classOf c = p.classOf d ∧ (c ∈ s ↔ d ∈ s) := by
  have hvalid := hp.refine s
  have hsplits := hp.refine_splits s
  have hinter : ∀ {c}, c ≤ p.top → (c ∈ s.inter (.upTo p.top) ↔ c ∈ s) := by
    intro c hc
    rw [CodeSet.mem_inter, CodeSet.mem_upTo, and_iff_left hc]
  rw [hvalid.classOf_eq_classOf_iff hc hd, hp.classOf_eq_classOf_iff hc hd, ← hinter hc,
    ← hinter hd]
  constructor
  · intro ⟨x, hx, hcx, hdx⟩
    obtain ⟨k, hk, hpart | hpart⟩ := hsplits.isPart x hx
    · obtain ⟨hck, hcs⟩ := (hpart c).1 hcx
      obtain ⟨hdk, hds⟩ := (hpart d).1 hdx
      exact ⟨⟨k, hk, hck, hdk⟩, iff_of_true hcs hds⟩
    · obtain ⟨hck, hcs⟩ := (hpart c).1 hcx
      obtain ⟨hdk, hds⟩ := (hpart d).1 hdx
      exact ⟨⟨k, hk, hck, hdk⟩, iff_of_false hcs hds⟩
  · intro ⟨⟨k, hk, hck, hdk⟩, hiff⟩
    -- the part that `c` is in comes from the class of both codes, and `d` is on the same side
    obtain ⟨x, hx, hcx⟩ := (hvalid.cover c).2 hc
    refine ⟨x, hx, hcx, ?_⟩
    obtain ⟨k', hk', hpart | hpart⟩ := hsplits.isPart x hx
    · obtain ⟨hck', hcs⟩ := (hpart c).1 hcx
      obtain rfl := hp.class_unique hk hk' hck hck'
      exact (hpart d).2 ⟨hdk, hiff.1 hcs⟩
    · obtain ⟨hck', hcs⟩ := (hpart c).1 hcx
      obtain rfl := hp.class_unique hk hk' hck hck'
      exact (hpart d).2 ⟨hdk, fun hds => hcs (hiff.2 hds)⟩

/-! ## Any number of them -/

/-- A valid partition of the codes up to `top`, by the sets alone. -/
structure IsCoarsest (p : Partition) (top : Nat) (sets : List CodeSet) : Prop where
  valid : p.Valid
  top_eq : p.top = top
  classOf_eq_iff : ∀ {c d}, c ≤ top → d ≤ top →
    (p.classOf c = p.classOf d ↔ ∀ s ∈ sets, (c ∈ s ↔ d ∈ s))

theorem isCoarsest_whole (top : Nat) : (whole top).IsCoarsest top [] where
  valid := valid_whole top
  top_eq := rfl
  classOf_eq_iff hc hd := by
    refine iff_of_true ?_ (by simp)
    rw [(valid_whole top).classOf_eq_classOf_iff hc hd]
    exact ⟨_, List.mem_singleton_self _, CodeSet.mem_upTo.2 hc, CodeSet.mem_upTo.2 hd⟩

theorem IsCoarsest.refine (h : p.IsCoarsest top sets) (s : CodeSet) :
    (p.refine s).IsCoarsest top (sets ++ [s]) where
  valid := h.valid.refine s
  top_eq := h.top_eq
  classOf_eq_iff hc hd := by
    have hc' := h.top_eq ▸ hc
    have hd' := h.top_eq ▸ hd
    rw [h.valid.classOf_refine_eq_iff hc' hd', h.classOf_eq_iff hc hd, List.forall_mem_append,
      List.forall_mem_singleton]

theorem IsCoarsest.foldl (h : p.IsCoarsest top sets) (more : List CodeSet) :
    (more.foldl Partition.refine p).IsCoarsest top (sets ++ more) := by
  induction more generalizing p sets with
  | nil => rwa [List.append_nil]
  | cons s more ih =>
    rw [List.append_cons]
    exact ih (h.refine s)

/-! ## Samples -/

/-- Refines by what a sample shows. -/
def refineBy (p : Partition) (x : Sample) (caseless : Bool) : Partition :=
  match x with
  | .set s => p.refineSet s caseless
  | .code c => p.refineCode c caseless
  | .text s => p.refineText s caseless

/-- The partition after it was shown the samples, with or without regard to case. -/
def refined (top : Nat) (shown : List (Sample × Bool)) : Partition :=
  shown.foldl (fun p x => p.refineBy x.1 x.2) (whole top)

theorem refineBy_eq (p : Partition) (x : Sample) (caseless : Bool) :
    p.refineBy x caseless = (x.sets.map (·.withCase caseless)).foldl Partition.refine p := by
  cases x with
  | set s => rfl
  | code c => rfl
  | text s =>
    rw [Sample.sets, List.map_map, List.foldl_map]
    rfl

/-- The sets that become unions of classes. -/
def shownSets (shown : List (Sample × Bool)) : List CodeSet :=
  shown.flatMap fun x => x.1.sets.map (·.withCase x.2)

theorem refined_eq (top : Nat) (shown : List (Sample × Bool)) :
    refined top shown = (shownSets shown).foldl Partition.refine (whole top) := by
  unfold refined shownSets
  rw [List.foldl_flatMap]
  simp only [refineBy_eq]

theorem refined_spec (top : Nat) (shown : List (Sample × Bool)) :
    (refined top shown).Valid ∧ (refined top shown).top = top ∧
      ∀ s ∈ shownSets shown, (refined top shown).Fine s := by
  obtain ⟨hvalid, htop, -, hfine⟩ := (valid_whole top).foldl_refine (shownSets shown)
  rw [refined_eq]
  exact ⟨hvalid, htop, hfine⟩

/-- The classes are not empty, apart from each other and together the alphabet, and two codes share
one unless something shown has one of them and not the other. That the intervals of a class are in
order, with gaps between them, is part of its type. -/
theorem refined_is_coarsest (top : Nat) (shown : List (Sample × Bool)) :
    (refined top shown).Valid ∧ (refined top shown).top = top ∧
      ∀ c ≤ top, ∀ d ≤ top,
        ((refined top shown).classOf c = (refined top shown).classOf d ↔
          ¬∃ x ∈ shown, ∃ s ∈ x.1.sets, ¬(s.MemUpToCase x.2 c ↔ s.MemUpToCase x.2 d)) := by
  have hcoarsest := (isCoarsest_whole top).foldl (shownSets shown)
  rw [← refined_eq, List.nil_append] at hcoarsest
  refine ⟨hcoarsest.valid, hcoarsest.top_eq, fun c hc d hd => ?_⟩
  rw [hcoarsest.classOf_eq_iff hc hd, shownSets, List.forall_mem_flatMap]
  simp only [not_exists, not_and, not_not]
  refine forall₂_congr fun x _ => ?_
  rw [List.forall_mem_map]
  refine forall₂_congr fun s _ => ?_
  rw [CodeSet.mem_withCase, CodeSet.mem_withCase]

/-- Overlapping and touching sets, one that leaves the alphabet, and a member outside the alphabet
with a case variant in it. -/
def overlaps : List (Sample × Bool) :=
  [(.set (.ofList [⟨0, 4, by decide⟩, ⟨10, 70, by decide⟩]), false),
    (.set (.ofList [⟨5, 9, by decide⟩, ⟨60, 200, by decide⟩]), true),
    (.text "aKk", false), (.code 0x212A, true)]

example : (refined 127 overlaps).classOf 4 = (refined 127 overlaps).classOf 10 ∧
    (refined 127 overlaps).classOf 0x4B ≠ (refined 127 overlaps).classOf 0x6B := by decide +kernel

end Partition

end ScannerGen
