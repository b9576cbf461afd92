import ScannerGen.Proofs.Spec.ExpandRun

/-
  The expansion of a table is complete and exact. It succeeds just if nothing that is in use leads
  to a missing definition or a cycle, and then it has replaced the definitions of exactly what is
  in use, each by what it resolves to (`expand_is_exact`).
-/

namespace ScannerGen.MacroTable

open Relation

variable {t t' : MacroTable} {r d : Regex} {m n name current : String} {outer : List String}

/-! ## The tables that can be met -/

/-- The table that an action leaves, also if it fails. -/
def left (act : Edit Unit) (t : MacroTable) : MacroTable :=
  match act t with
  | .ok _ t' => t'
  | .error _ t' => t'

/-- The tables that result from definitions, marks and expansions. -/
inductive Built : MacroTable → Prop where
  | empty : Built .empty
  | define {t : MacroTable} (ht : Built t) (name : String) (r : Regex) : Built (t.define name r)
  | markUsed {t : MacroTable} (ht : Built t) (name : String) : Built (t.markUsed name)
  | markUses {t : MacroTable} (ht : Built t) (r : Regex) (referrer : String) :
    Built (left (MacroTable.markUses r referrer) t)
  | expand {t : MacroTable} (ht : Built t) : Built (left MacroTable.expand t)

theorem allGrounded_before (h : t.Blamed name) :
    t.AllGrounded {n | n ∈ t.pending ∧ n < name} := fun n hn => h.before n hn.1 hn.2

/-- An expansion replaces all that is in use, or all before the first macro that it stops at. -/
theorem WellFormed.expand_cases (ht : t.WellFormed) :
    (∀ n, t.InUse n → t.Grounded (.use n)) ∧ expand t = .ok () (t.after {n | t.InUse n}) ∨
      ∃ name e, t.Blamed name ∧ t.expansion name = .error e ∧
        expand t = .error e (t.after {n | n ∈ t.pending ∧ n < name}) := by
  by_cases hall : ∀ n, t.InUse n → t.Grounded (.use n)
  · exact .inl ⟨hall, expandRounds_of_grounded ht hall (Nat.le_refl _)⟩
  · push Not at hall
    obtain ⟨name, hname⟩ := ht.exists_blamed hall
    obtain ⟨e, he⟩ := exists_expansion_error hname.stuck
    exact .inr ⟨name, e, hname, he, expandRounds_of_blamed ht hname he (Nat.le_refl _)⟩

/-- An error tells that the expansion has stopped at a macro, and what it has replaced by then. -/
theorem WellFormed.exists_blamed_of_error (ht : t.WellFormed) {e : GenerateError}
    (h : expand t = .error e t') : ∃ name, t.Blamed name ∧ t.expansion name = .error e ∧
      t' = t.after {n | n ∈ t.pending ∧ n < name} := by
  rcases ht.expand_cases with ⟨-, hrun⟩ | ⟨name, e', hname, he, hrun⟩
  · rw [h] at hrun
    cases hrun
  · rw [h] at hrun
    cases hrun
    exact ⟨name, hname, he, rfl⟩

theorem WellFormed.left_expand (ht : t.WellFormed) : (left expand t).WellFormed := by
  unfold left
  rcases ht.expand_cases with ⟨hall, hrun⟩ | ⟨name, e, hname, -, hrun⟩
  · rw [hrun]
    exact ht.after hall
  · rw [hrun]
    exact ht.after (allGrounded_before hname)

theorem WellFormed.left_markUses (ht : t.WellFormed) (r : Regex) (referrer : String) :
    (left (markUses r referrer) t).WellFormed := by
  have h := markUses_ensures r referrer t
  unfold Ensures at h
  unfold left
  cases hrun : markUses r referrer t with
  | ok _ t' =>
    rw [hrun] at h
    exact h.wellFormed ht
  | error e t' =>
    rw [hrun] at h
    obtain ⟨-, done, hmarks⟩ := h
    exact hmarks.wellFormed ht

theorem Built.wellFormed (ht : Built t) : t.WellFormed := by
  induction ht with
  | empty => exact wellFormed_empty
  | define _ name r ih => exact ih.define name r
  | markUsed _ name ih => exact ih.markUsed name
  | markUses _ r referrer ih => exact ih.left_markUses r referrer
  | expand _ ih => exact ih.left_expand

/-! ## The end of the recursion and of the loop -/

/-- Definitions are entered only finitely deep below `r` in the definition of `current`. -/
inductive Descends (t : MacroTable) : String → List String → Regex → Prop where
  | intro {current : String} {outer : List String} {r : Regex}
      (enter : ∀ n ∈ r.macroUses, n ∉ current :: outer → ∀ d, t.definition? n = some d →
        Descends t n (current :: outer) d) : Descends t current outer r

theorem Trail.descends (h : t.Trail current outer) (hr : ∀ n ∈ r.macroUses, t.Uses current n)
    {depth : Nat} (hdepth : t.size ≤ depth + outer.length) : t.Descends current outer r := by
  induction depth generalizing current outer r with
  | zero =>
    have := h.length_lt
    omega
  | succ depth ih =>
    refine .intro fun n hn hnew d hd => ?_
    refine ih (h.push (hr n hn) (mem_names_of_definition? hd) hnew) (fun m hm => ⟨d, hd, hm⟩) ?_
    rw [List.length_cons]
    omega

/-- What the rounds come to if their number has no bound. -/
inductive Loops : MacroTable → EStateM.Result GenerateError MacroTable Unit → Prop where
  | done {t : MacroTable} (h : t.pending = []) : Loops t (.ok () t)
  | stop {t t' : MacroTable} {e : GenerateError} (h : t.pending ≠ [])
      (round : t.pending.forM expandEntry t = .error e t') : Loops t (.error e t')
  | again {t t' : MacroTable} {res : EStateM.Result GenerateError MacroTable Unit}
      (h : t.pending ≠ []) (round : t.pending.forM expandEntry t = .ok () t')
      (rest : Loops t' res) : Loops t res

theorem loops_expandRounds {rounds : Nat} (ht : t.WellFormed)
    (hrounds : t.unexpanded.card ≤ rounds) : Loops t (expandRounds rounds t) := by
  induction rounds generalizing t with
  | zero => exact .done (pending_of_unexpanded ht (Nat.le_zero.1 hrounds))
  | succ rounds ih =>
    unfold expandRounds
    rw [run_get_bind]
    by_cases hnil : t.pending = []
    · rw [if_pos (List.isEmpty_iff.2 hnil)]
      exact .done hnil
    · rw [if_neg (by simpa using hnil)]
      cases hrun : t.pending.forM expandEntry t with
      | error e t' =>
        rw [run_bind_error hrun]
        exact .stop hnil hrun
      | ok _ t' =>
        obtain ⟨hexp, hlt⟩ := expands_round ht hnil hrun
        rw [run_bind_ok hrun]
        exact .again hnil hrun (ih hexp.wellFormed (by omega))

/-! ## What is in use -/

theorem inUse_grounded_iff :
    (∀ n, t.InUse n → t.Grounded (.use n)) ↔ ∀ n, t.InUse n → t.Sound n :=
  ⟨fun h n hn => (h n hn).sound,
    fun h _ hn => grounded_use_of_sound fun m hr => h m (hn.of_reach hr)⟩

theorem WellFormed.mem_unused (ht : t.WellFormed) :
    n ∈ t.unused ↔ n ∈ t.names ∧ t.isUsed n = false := by
  unfold unused
  rw [List.mem_filterMap, ← definition?_isSome_iff, definition?, isUsed_eq_any]
  constructor
  · rintro ⟨⟨m, e⟩, hmem, h⟩
    obtain ⟨hu, h⟩ := Option.ite_none_left_eq_some.1 h
    obtain rfl := Option.some.inj h
    rw [ht.entry_eq_some_iff.2 hmem]
    exact ⟨rfl, Bool.eq_false_iff.2 hu⟩
  · rintro ⟨hsome, hu⟩
    obtain ⟨e, he⟩ := Option.isSome_iff_exists.1 (Option.isSome_map .. ▸ hsome)
    rw [he, Option.any_some] at hu
    exact ⟨(n, e), ht.entry_eq_some_iff.1 he, if_neg (Bool.eq_false_iff.1 hu)⟩

/-- A table whose macros in use have been expanded. -/
structure Expanded (t t' : MacroTable) : Prop where
  names : t'.names = t.names
  used : ∀ n, t.InUse n → t'.isUsed n = true
  /-- The new definition is the old one with the new ones of all that it uses put in. -/
  definition : ∀ n d, t.InUse n → t.definition? n = some d →
    ∃ d', t'.definition? n = some d' ∧ d'.Closed ∧ d' = t.resolve d ∧
      d' = d.subst fun m => (t'.definition? m).getD (.use m)
  others : ∀ n, ¬t.InUse n → t'.definition? n = t.definition? n
  unused : ∀ n ∈ t.names, ¬t.InUse n → n ∈ t.unused ∧ n ∈ t'.unused

/-! ### After everything in use has been expanded -/

theorem definition?_after_of_inUse {d : Regex} (hn : t.InUse n) (hd : t.definition? n = some d) :
    (t.after {n | t.InUse n}).definition? n = some (t.resolve d) := by
  rw [definition?_after, hd, Option.map_some, if_pos (Set.mem_ofPred.2 hn)]

theorem definition?_after_of_not_inUse (hn : ¬t.InUse n) :
    (t.after {n | t.InUse n}).definition? n = t.definition? n := by
  rw [definition?_after]
  cases t.definition? n with
  | none => rfl
  | some d => rw [Option.map_some, if_neg (mt Set.mem_ofPred.1 hn)]

theorem isUsed_eq_false_of_not_inUse (hn : ¬t.InUse n) : t.isUsed n = false :=
  Bool.eq_false_iff.2 fun hu => hn (.of_isUsed hu)

theorem isUsed_after_eq_false (hn : ¬t.InUse n) :
    (t.after {n | t.InUse n}).isUsed n = false := by
  rw [Bool.eq_false_iff, ne_eq, isUsed_after_iff]
  rintro (hu | ⟨-, s, hs, h⟩)
  · exact hn (.of_isUsed hu)
  · exact hn (hs.of_reach h.to_reflTransGen)

theorem WellFormed.expanded_after (ht : t.WellFormed)
    (hall : ∀ n, t.InUse n → t.Grounded (.use n)) : t.Expanded (t.after {n | t.InUse n}) where
  names := names_edit t _
  used := by
    intro n ⟨u, hu, hr⟩
    rw [isUsed_after_iff]
    rcases reflTransGen_iff_eq_or_transGen.1 hr with rfl | h
    · exact .inl hu
    · exact .inr ⟨mem_names_of_sound (hall n ⟨u, hu, hr⟩).sound, u, .of_isUsed hu, h⟩
  definition := by
    intro n d hn hd
    have hg := (grounded_use_iff hd).1 (hall n hn)
    refine ⟨_, definition?_after_of_inUse hn hd, hg.closed_resolve, rfl, ?_⟩
    rw [hg.resolve_eq]
    apply Regex.compositional_subst.isLocal
    intro m hm
    obtain ⟨dm, hdm, -⟩ := hg.exists_definition hm
    rw [definition?_after_of_inUse (hn.of_reach (.single ⟨d, hd, hm⟩)) hdm, hdm]
    rfl
  others n hn := definition?_after_of_not_inUse hn
  unused := by
    intro n hmem hn
    have hwf : (t.after {n | t.InUse n}).WellFormed := ht.after hall
    refine ⟨ht.mem_unused.2 ⟨hmem, isUsed_eq_false_of_not_inUse hn⟩,
      hwf.mem_unused.2 ⟨?_, isUsed_after_eq_false hn⟩⟩
    show n ∈ (t.edit _).names
    rwa [names_edit]

/-- The loop and the recursion end, the expansion succeeds just if all that is in use is defined
and not in terms of itself, and then it has resolved exactly the definitions in use. -/
theorem expand_is_exact (ht : Built t) :
    Loops t (expand t) ∧
      (∀ u name d, u.definition? name = some d → Descends u name [] d ∧
        ∀ depth ≥ u.size, u.expandWithin depth name [] d = u.expandWithin u.size name [] d) ∧
      ((∃ t', expand t = .ok () t') ↔ ∀ n, t.InUse n → t.Sound n) ∧
      ∀ t', expand t = .ok () t' → Expanded t t' := by
  have hwf := ht.wellFormed
  refine ⟨loops_expandRounds hwf (card_unexpanded_le t), fun u name d hd => ?_, ?_, ?_⟩
  · have htrail := Trail.single (mem_names_of_definition? hd)
    have huses : ∀ n ∈ d.macroUses, u.Uses name n := fun n hn => ⟨d, hd, hn⟩
    exact ⟨htrail.descends huses (Nat.le_refl _), fun depth hdepth =>
      htrail.expandWithin_congr (.refl u) huses (Nat.le_refl _) hdepth⟩
  · rw [← inUse_grounded_iff]
    rcases hwf.expand_cases with ⟨hall, hrun⟩ | ⟨name, e, hname, -, hrun⟩
    · exact iff_of_true ⟨_, hrun⟩ hall
    · refine iff_of_false (fun ⟨t', h⟩ => ?_) fun hall => hname.stuck (hall name ?_)
      · rw [hrun] at h
        cases h
      · exact .of_isUsed ((mem_pending hwf).1 hname.pending).1
  · intro t' h
    rcases hwf.expand_cases with ⟨hall, hrun⟩ | ⟨name, e, -, -, hrun⟩
    · rw [hrun] at h
      cases h
      exact hwf.expanded_after hall
    · rw [hrun] at h
      cases h

/-- A digit that is reached in two ways from the number in use, and a cycle that is not in use. -/
def numbers : MacroTable :=
  let digit := empty.define "DIGIT" (.one (.code 48 false))
  let pair := digit.define "PAIR" (.cat (.use "DIGIT") (.use "DIGIT"))
  let number := pair.define "NUMBER" (.alt (.use "PAIR") (.use "DIGIT"))
  (number.define "LOOP" (.use "LOOP")).markUsed "NUMBER"

theorem expand_is_exact_numbers : Built numbers ∧ (∀ n, numbers.InUse n → numbers.Sound n) ∧
    ∃ t', expand numbers = .ok () t' ∧ Expanded numbers t' ∧ t'.unused = ["LOOP"] ∧
      t'.definition? "NUMBER" = some (.alt (.cat (.one (.code 48 false)) (.one (.code 48 false)))
        (.one (.code 48 false))) := by
  have hbuilt : Built numbers :=
    ((((Built.empty.define _ _).define _ _).define _ _).define _ _).markUsed _
  have hrun : expand numbers = .ok () (left expand numbers) := by rfl
  obtain ⟨-, -, hok, hexp⟩ := expand_is_exact hbuilt
  exact ⟨hbuilt, hok.1 ⟨_, hrun⟩, _, hrun, hexp _ hrun, by decide, by decide⟩

end ScannerGen.MacroTable
