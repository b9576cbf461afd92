import Mathlib.Logic.Relation
import ScannerGen.Proofs.Spec.Macros

/-
  The graph of direct uses between macros. The use of a macro is grounded exactly if everything on
  the ways from there is defined and lies on no cycle (`grounded_use_iff_sound`). What `usesWithin`
  lists are the macros on the ways from those that an expression uses
  (`Grounded.mem_usesWithin_iff`).
-/

namespace ScannerGen.MacroTable

open Relation

variable {t : MacroTable} {r d : Regex} {m n name : String}

/-- The definition of `m` uses `n`. -/
def Uses (t : MacroTable) (m n : String) : Prop :=
  ∃ d, t.definition? m = some d ∧ n ∈ d.macroUses

/-- A macro that is used, or reached from one that is. -/
def InUse (t : MacroTable) (n : String) : Prop :=
  ∃ u, t.isUsed u = true ∧ ReflTransGen t.Uses u n

theorem InUse.of_isUsed (h : t.isUsed n = true) : t.InUse n := ⟨n, h, .refl⟩

theorem InUse.of_reach (hm : t.InUse m) (h : ReflTransGen t.Uses m n) : t.InUse n := by
  obtain ⟨u, hu, hr⟩ := hm
  exact ⟨u, hu, hr.trans h⟩

/-- The name is defined, and not in terms of itself. -/
def Sound (t : MacroTable) (n : String) : Prop :=
  (t.definition? n).isSome = true ∧ ¬TransGen t.Uses n n

theorem uses_iff (hd : t.definition? m = some d) : t.Uses m n ↔ n ∈ d.macroUses := by
  unfold Uses
  rw [hd]
  simp

theorem grounded_use_iff (hd : t.definition? name = some d) :
    t.Grounded (.use name) ↔ t.Grounded d := by
  constructor
  · intro h
    obtain ⟨d', hd', hg⟩ := h.exists_definition (List.mem_singleton_self name)
    rw [hd, Option.some.injEq] at hd'
    exact hd' ▸ hg
  · intro h
    constructor
    · intro n hn
      obtain rfl := List.mem_singleton.1 hn
      exact Option.isSome_iff_exists.2 ⟨d, hd⟩
    · intro n hn d' hd'
      obtain rfl := List.mem_singleton.1 hn
      rw [hd, Option.some.injEq] at hd'
      exact hd' ▸ h

theorem Grounded.use (h : t.Grounded r) (hn : n ∈ r.macroUses) : t.Grounded (.use n) := by
  obtain ⟨d, hd, hg⟩ := h.exists_definition hn
  exact (grounded_use_iff hd).2 hg

theorem Grounded.defined (h : t.Grounded (.use n)) : ∃ d, t.definition? n = some d ∧ t.Grounded d :=
  h.exists_definition (List.mem_singleton_self n)

theorem grounded_iff_forall_use : t.Grounded r ↔ ∀ n ∈ r.macroUses, t.Grounded (.use n) := by
  constructor
  · exact fun h n hn => h.use hn
  · intro h
    constructor
    · intro n hn
      obtain ⟨d, hd, -⟩ := (h n hn).defined
      exact Option.isSome_iff_exists.2 ⟨d, hd⟩
    · exact fun n hn d hd => (grounded_use_iff hd).1 (h n hn)

theorem Grounded.of_uses (h : t.Grounded (.use m)) (hu : t.Uses m n) : t.Grounded (.use n) := by
  obtain ⟨d, hd, hn⟩ := hu
  exact ((grounded_use_iff hd).1 h).use hn

theorem Grounded.of_reach (h : t.Grounded (.use m)) (hr : ReflTransGen t.Uses m n) :
    t.Grounded (.use n) := by
  induction hr with
  | refl => exact h
  | tail _ hu ih => exact ih.of_uses hu

/-- What is used by something grounded is on no cycle. -/
theorem Grounded.not_cycle (h : t.Grounded r) : ∀ n ∈ r.macroUses, ¬TransGen t.Uses n n := by
  induction h with
  | @intro r _ _ ih =>
    intro n hn hcycle
    -- the next macro on the cycle is used by the definition of `n`
    obtain ⟨m, ⟨d, hd, hm⟩, hback⟩ := TransGen.head'_iff.1 hcycle
    exact ih n hn d hd m hm (TransGen.tail' hback ⟨d, hd, hm⟩)

theorem Grounded.sound (h : t.Grounded (.use n)) : t.Sound n := by
  obtain ⟨d, hd, -⟩ := h.defined
  exact ⟨Option.isSome_iff_exists.2 ⟨d, hd⟩, h.not_cycle n (List.mem_singleton_self n)⟩

open Classical in
/-- The macros that `m` leads to. -/
noncomputable def reached (t : MacroTable) (m : String) : Finset String :=
  t.names.toFinset.filter (ReflTransGen t.Uses m)

theorem mem_names_of_sound (h : t.Sound n) : n ∈ t.names := by
  obtain ⟨d, hd⟩ := Option.isSome_iff_exists.1 h.1
  exact mem_names_of_definition? hd

/-- Without cycles every step leads to fewer macros. -/
theorem card_reached_lt (hm : t.Sound m) (hu : t.Uses m n) :
    (t.reached n).card < (t.reached m).card := by
  classical
  refine Finset.card_lt_card ⟨fun x hx => ?_, fun hsub => ?_⟩
  · unfold reached at hx ⊢
    rw [Finset.mem_filter] at hx ⊢
    exact ⟨hx.1, hx.2.head hu⟩
  · have hmem : m ∈ t.reached m := by
      unfold reached
      rw [Finset.mem_filter, List.mem_toFinset]
      exact ⟨mem_names_of_sound hm, .refl⟩
    have hback := hsub hmem
    unfold reached at hback
    rw [Finset.mem_filter] at hback
    exact hm.2 (TransGen.head' hu hback.2)

theorem grounded_use_of_sound (h : ∀ n, ReflTransGen t.Uses m n → t.Sound n) :
    t.Grounded (.use m) := by
  induction hk : (t.reached m).card using Nat.strong_induction_on generalizing m with
  | _ k ih =>
    have hm := h m .refl
    obtain ⟨d, hd⟩ := Option.isSome_iff_exists.1 hm.1
    refine (grounded_use_iff hd).2 (grounded_iff_forall_use.2 fun n hn => ?_)
    have hu : t.Uses m n := ⟨d, hd, hn⟩
    exact ih _ (hk ▸ card_reached_lt hm hu) (fun x hx => h x (hx.head hu)) rfl

theorem grounded_use_iff_sound :
    t.Grounded (.use m) ↔ ∀ n, ReflTransGen t.Uses m n → t.Sound n :=
  ⟨fun h _ hr => (h.of_reach hr).sound, grounded_use_of_sound⟩

/-! ## The list of what is reached -/

theorem exists_reach_of_mem_usesWithin {depth : Nat} (h : n ∈ t.usesWithin depth r) :
    ∃ m ∈ r.macroUses, ReflTransGen t.Uses m n := by
  induction depth generalizing r with
  | zero => exact ⟨n, h, .refl⟩
  | succ depth ih =>
    obtain ⟨m, hm, h⟩ := List.mem_flatMap.1 h
    refine ⟨m, hm, ?_⟩
    rcases List.mem_cons.1 h with rfl | h
    · exact .refl
    · split at h
      · next d hd =>
        obtain ⟨m', hm', hr⟩ := ih h
        exact hr.head ⟨d, hd, hm'⟩
      · exact absurd h List.not_mem_nil

theorem mem_usesWithin {k depth : Nat} (h : ∀ m ∈ r.macroUses, t.Nests k m) (hk : k ≤ depth)
    (hm : m ∈ r.macroUses) (hr : ReflTransGen t.Uses m n) : n ∈ t.usesWithin depth r := by
  induction k generalizing r depth m with
  | zero => exact (h m hm).elim
  | succ k ih =>
    obtain ⟨depth, rfl⟩ := Nat.exists_eq_add_of_le' hk
    refine List.mem_flatMap.2 ⟨m, hm, ?_⟩
    obtain ⟨d, hd, huses⟩ := h m hm
    rw [hd]
    rcases ReflTransGen.cases_head hr with rfl | ⟨m', hu, hr⟩
    · exact List.mem_cons_self
    · have hk' : k ≤ depth + k := Nat.le_add_left ..
      exact List.mem_cons_of_mem _ (ih huses hk' ((uses_iff hd).1 hu) hr)

/-- Of a grounded expression as many definitions as the table has are deep enough. -/
theorem Grounded.mem_usesWithin_iff (h : t.Grounded r) :
    n ∈ t.usesWithin t.size r ↔ ∃ m ∈ r.macroUses, ReflTransGen t.Uses m n :=
  ⟨exists_reach_of_mem_usesWithin, fun ⟨_, hm, hr⟩ =>
    mem_usesWithin h.nests (Nat.le_refl _) hm hr⟩

end ScannerGen.MacroTable
