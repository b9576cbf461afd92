import ScannerGen.Alphabet.Word
import ScannerGen.Proofs.Alphabet.Coarsest
import ScannerGen.Proofs.Spec.Alphabet

/-
  The map from codes to classes. The intervals of the classes of a valid partition lie end to end
  from 0 to the last code of the alphabet (`Valid.tiles_intervals`). So the binary search finds the
  one class that a scan of all classes finds, and beyond the alphabet nothing
  (`Valid.classAt?_eq`). A partition stays valid whatever it is refined by (`Refined.valid`).
-/

namespace ScannerGen

namespace Partition

variable {p : Partition} {top c : Nat}

/-- The intervals begin at 0, end at `top`, and each begins right after the one before. -/
structure Tiles (map : Array (Interval × Nat)) (top : Nat) : Prop where
  lo_le_hi : ∀ x ∈ map, x.1.lo ≤ x.1.hi
  ascending : map.toList.Pairwise (·.1.lo < ·.1.lo)
  first : ∃ x, map[0]? = some x ∧ x.1.lo = 0
  last : ∃ x, map[map.size - 1]? = some x ∧ x.1.hi = top
  adjacent : ∀ (i : Nat) (x y : Interval × Nat), map[i]? = some x → map[i + 1]? = some y →
    y.1.lo = x.1.hi + 1

section Valid

variable (hp : p.Valid)
include hp

theorem Valid.hi_lt_lo {i j : Nat} {x y : Interval × Nat} (hij : i < j)
    (hx : p.intervals[i]? = some x) (hy : p.intervals[j]? = some y) : x.1.hi < y.1.lo :=
  rel_of_pairwise (R := fun x y : Interval × Nat => x.1.hi < y.1.lo)
    (List.pairwise_map.1 hp.pairwise_intervals) hij hx hy

/-- The codes in the intervals are those of the alphabet. -/
theorem Valid.exists_interval_iff :
    (∃ (i : Nat) (x : Interval × Nat), p.intervals[i]? = some x ∧ x.1.lo ≤ c ∧ c ≤ x.1.hi) ↔
      c ≤ p.top := by
  rw [← hp.cover c]
  constructor
  · rintro ⟨i, x, hx, hc⟩
    obtain ⟨k, hk, hiv⟩ := mem_intervals.1 (Array.mem_of_getElem? hx)
    exact ⟨k, (hp.mem_classes hk).1, CodeSet.mem_iff_covers.2 ⟨x.1, hiv, hc⟩⟩
  · rintro ⟨k, hk, hc⟩
    obtain ⟨n, hn⟩ := Array.mem_iff_getElem?.1 (Array.mem_toList_iff.1 hk)
    obtain ⟨iv, hiv, hc⟩ := CodeSet.mem_iff_covers.1 hc
    have hmem : (iv, n) ∈ p.intervals := mem_intervals.2 ⟨k, hn, hiv⟩
    obtain ⟨i, hi⟩ := Array.mem_iff_getElem?.1 hmem
    exact ⟨i, (iv, n), hi, hc⟩

theorem Valid.hi_le_top {i : Nat} {x : Interval × Nat} (hx : p.intervals[i]? = some x) :
    x.1.hi ≤ p.top :=
  hp.exists_interval_iff.1 ⟨i, x, hx, x.1.lo_le_hi, Nat.le_refl _⟩

theorem Valid.tiles_intervals : Tiles p.intervals p.top where
  lo_le_hi x _ := x.1.lo_le_hi
  ascending := by
    exact (List.pairwise_map.1 hp.pairwise_intervals).imp fun {x _} hlt =>
      Nat.lt_of_le_of_lt x.1.lo_le_hi hlt
  first := by
    obtain ⟨i, x, hx, hlo, -⟩ := hp.exists_interval_iff.2 (Nat.zero_le p.top)
    -- an interval before the one of 0 would end below 0
    obtain rfl : i = 0 := by
      by_contra hi
      have hlt : 0 < p.intervals.size := Nat.zero_lt_of_lt (Array.getElem?_eq_some_iff.1 hx).1
      have := hp.hi_lt_lo (Nat.pos_of_ne_zero hi) (Array.getElem?_eq_getElem hlt) hx
      omega
    exact ⟨x, hx, Nat.le_zero.1 hlo⟩
  last := by
    obtain ⟨i, x, hx, -, hhi⟩ := hp.exists_interval_iff.2 (Nat.le_refl p.top)
    have hi : i < p.intervals.size := (Array.getElem?_eq_some_iff.1 hx).1
    have hlast : p.intervals.size - 1 < p.intervals.size := by omega
    -- an interval after the one of the last code would begin above it
    obtain rfl : i = p.intervals.size - 1 := by
      by_contra hne
      have hy := Array.getElem?_eq_getElem hlast
      have := hp.hi_lt_lo (by omega) hx hy
      have := (p.intervals[p.intervals.size - 1]).1.lo_le_hi
      have := hp.hi_le_top hy
      omega
    exact ⟨x, hx, Nat.le_antisymm (hp.hi_le_top hx) hhi⟩
  adjacent i x y hx hy := by
    have hxy := hp.hi_lt_lo (Nat.lt_succ_self i) hx hy
    have hle : x.1.hi + 1 ≤ p.top :=
      Nat.le_trans hxy (Nat.le_trans y.1.lo_le_hi (hp.hi_le_top hy))
    obtain ⟨j, z, hz, hlo, hhi⟩ := hp.exists_interval_iff.2 hle
    -- the code after the first of the two is in an interval that is neither before nor after both
    rcases Nat.lt_trichotomy j (i + 1) with hj | rfl | hj
    · rcases Nat.lt_or_eq_of_le (Nat.le_of_lt_succ hj) with hj | rfl
      · have := hp.hi_lt_lo hj hz hx
        have := x.1.lo_le_hi
        omega
      · obtain rfl : x = z := Option.some.inj (hx.symm.trans hz)
        omega
    · obtain rfl : y = z := Option.some.inj (hy.symm.trans hz)
      omega
    · have := hp.hi_lt_lo hj hy hz
      have := y.1.lo_le_hi
      omega

theorem Valid.classAt?_eq (c : Nat) :
    classAt? p.intervals c = if c ≤ p.top then some (p.classOf c) else none := by
  split
  · next hc => exact hp.classAt?_eq_some hc
  · next hc =>
    refine Option.eq_none_iff_forall_ne_some.2 fun n hn => hc ?_
    obtain ⟨i, hi, -⟩ := Option.bind_eq_some_iff.1 hn
    obtain ⟨x, hx, hside⟩ := bisectFrom_eq_some hi
    exact hp.exists_interval_iff.1
      ⟨i, x, hx, Interval.contains_iff.1 (Interval.side_eq_iff.1 hside)⟩

end Valid

/-- What comes of one class, or of the partition of some rules, by any refinements. -/
inductive Refined (top : Nat) : Partition → Prop
  | whole : Refined top (.whole top)
  | ofRules (rules : List Rule) (t : MacroTable) : Refined top (.ofRules rules t top)
  | refineBy {p : Partition} (x : Sample) (caseless : Bool) (h : Refined top p) :
    Refined top (p.refineBy x caseless)

theorem Valid.refineBy (hp : p.Valid) (x : Sample) (caseless : Bool) :
    (p.refineBy x caseless).Valid ∧ (p.refineBy x caseless).top = p.top := by
  obtain ⟨hvalid, htop, -⟩ := hp.foldl_refine (x.sets.map (·.withCase caseless))
  rw [refineBy_eq]
  exact ⟨hvalid, htop⟩

theorem Refined.valid (h : Refined top p) : p.Valid ∧ p.top = top := by
  induction h with
  | whole => exact ⟨valid_whole top, rfl⟩
  | ofRules rules t =>
    obtain ⟨-, hvalid, htop, -⟩ := ofRules_fine rules t top
    exact ⟨hvalid, htop⟩
  | refineBy x caseless _ ih =>
    obtain ⟨hvalid, htop⟩ := ih.1.refineBy x caseless
    exact ⟨hvalid, htop.trans ih.2⟩

/-- After any refinements the map of intervals lies end to end over the alphabet, and the binary
search in it finds the class of every code of the alphabet and of no other code. -/
theorem intervals_are_the_class_map (top : Nat) (p : Partition) (h : Refined top p) :
    Tiles p.intervals top ∧
      ∀ c, classAt? p.intervals c = if c ≤ top then some (p.classOf c) else none := by
  obtain ⟨hvalid, rfl⟩ := h.valid
  exact ⟨hvalid.tiles_intervals, hvalid.classAt?_eq⟩

/-- The partition of the entangled macros, later shown the Kelvin sign, over all code words. -/
def entangledKelvin : Partition :=
  (ofRules entangledRules entangled lastWord).refineBy (.code 0x212A) true

theorem intervals_are_the_class_map_entangledKelvin :
    Refined lastWord entangledKelvin ∧ Tiles entangledKelvin.intervals lastWord ∧
      ∀ c, classAt? entangledKelvin.intervals c =
        if c ≤ lastWord then some (entangledKelvin.classOf c) else none :=
  have h : Refined lastWord entangledKelvin :=
    .refineBy (.code 0x212A) true (.ofRules entangledRules entangled)
  ⟨h, intervals_are_the_class_map lastWord entangledKelvin h⟩

end Partition

end ScannerGen
