import ScannerGen.Proofs.Spec.Blame
import ScannerGen.Proofs.Spec.Repetition

/-
  What is left by an expansion that fails, and what comes of it later. Everything before the macro
  that it stops at has been expanded, and nothing else has been touched (`Halted`). If a name is
  missing, it can still be defined: what has been expanded does not lead to it, so the table is the
  same as if it had been there from the start and the same macros expanded (`define_after`). To have
  expanded some of the macros in use makes no difference to the outcome (`agree_expand_after`), so
  the expansion can be taken up where it stopped (`failed_expansion_is_resumable`).
-/

namespace ScannerGen

namespace MacroTable

open Relation

variable {t t' : MacroTable} {r d : Regex} {b m n name : String} {e : GenerateError}
  {S : Set String}

/-! ## One more definition -/

theorem entry_define_self (t : MacroTable) (name : String) (d : Regex) :
    entry? (t.define name d) name = some ⟨d, false, false⟩ := by
  obtain ⟨_, h, -⟩ := lookup_upsert_self name (fun _ => ⟨d, false, false⟩) t.entries
  exact h

theorem entry_define_of_ne (h : n ≠ name) : entry? (t.define name d) n = t.entry? n :=
  lookup_upsert_of_ne h _ t.entries

theorem WellFormed.ext_entry (ht : t.WellFormed) (ht' : t'.WellFormed)
    (h : ∀ n, t.entry? n = t'.entry? n) : t = t' := by
  have hnodup {t : MacroTable} (ht : t.WellFormed) : t.entries.Nodup := by
    refine ht.ascending.imp ?_
    rintro x _ hlt rfl
    exact String.lt_irrefl _ hlt
  have hperm : t.entries.Perm t'.entries := by
    refine (List.perm_ext_iff_of_nodup (hnodup ht) (hnodup ht')).2 fun ⟨n, e⟩ => ?_
    rw [← ht.entry_eq_some_iff, ← ht'.entry_eq_some_iff, h]
  have hentries : t.entries = t'.entries :=
    hperm.eq_of_pairwise
      (fun _ _ _ _ hlt hgt => absurd (String.lt_trans hlt hgt) (String.lt_irrefl _))
      ht.ascending ht'.ascending
  cases t
  cases t'
  exact congrArg MacroTable.mk hentries

/-- All definitions are there in the larger table as well. -/
def Extends (t t' : MacroTable) : Prop :=
  ∀ ⦃n d⦄, t.definition? n = some d → t'.definition? n = some d

theorem extends_define (h : name ∉ t.names) (d : Regex) : t.Extends (t.define name d) := by
  intro n d' hd'
  have hne : n ≠ name := by
    rintro rfl
    exact h (mem_names_of_definition? hd')
  rw [definition?, entry_define_of_ne hne]
  exact hd'

theorem Extends.preserves (h : t.Extends t') : t.Preserves t' := fun _ _ hd => ⟨_, h hd, .inl rfl⟩

theorem Extends.uses_iff (h : t.Extends t') (hm : t.Grounded (.use m)) :
    t'.Uses m n ↔ t.Uses m n := by
  obtain ⟨d, hd, -⟩ := hm.defined
  rw [MacroTable.uses_iff hd, MacroTable.uses_iff (h hd)]

/-- What can be expanded leads to nothing new. -/
theorem Extends.transGen_iff (h : t.Extends t') (hm : t.Grounded (.use m)) :
    TransGen t'.Uses m n ↔ TransGen t.Uses m n := by
  constructor
  · intro hr
    induction hr with
    | single hu => exact .single ((h.uses_iff hm).1 hu)
    | tail _ hu ih => exact ih.tail ((h.uses_iff (hm.of_reach ih.to_reflTransGen)).1 hu)
  · exact TransGen.mono (fun _ _ ⟨d, hd, hn⟩ => ⟨d, h hd, hn⟩) m n

open Classical in
/-- To define a missing name and to expand what does not lead to it can be done in either order. -/
theorem WellFormed.define_after (ht : t.WellFormed) (hS : t.AllGrounded S) (hname : name ∉ t.names)
    (d : Regex) : (t.after S).define name d = (t.define name d).after S := by
  have hext := extends_define hname d
  have hS' : (t.define name d).AllGrounded S := fun s hs => hext.preserves.grounded (hS s hs)
  refine ((ht.after hS).define name d).ext_entry ((ht.define name d).after hS') fun n => ?_
  have hreach : (∃ s ∈ S, TransGen (t.define name d).Uses s n) ↔ ∃ s ∈ S, TransGen t.Uses s n :=
    exists_congr fun s => and_congr_right fun hs => hext.transGen_iff (hS s hs)
  by_cases hn : n = name
  · subst hn
    have hnot : n ∉ S := fun hs => hname (mem_names_of_sound (hS n hs).sound)
    have hunreached : ¬∃ s ∈ S, TransGen t.Uses s n := fun ⟨s, hs, hr⟩ =>
      hname (mem_names_of_sound ((hS s hs).of_reach hr.to_reflTransGen).sound)
    rw [entry_define_self, MacroTable.after, entry_edit, entry_define_self, Option.map_some]
    simp only [hreach, hunreached, hnot, if_false, decide_false, Bool.or_false]
  · rw [entry_define_of_ne hn, MacroTable.after, MacroTable.after, entry_edit, entry_edit,
      entry_define_of_ne hn]
    cases he : t.entry? n with
    | none => rfl
    | some e =>
      rw [Option.map_some, Option.map_some]
      simp only [hreach]
      by_cases hs : n ∈ S
      · have hd : t.definition? n = some e.definition := definition?_eq_some_iff.2 ⟨e, he, rfl⟩
        rw [if_pos hs, if_pos hs, hext.preserves.resolve_eq ((grounded_use_iff hd).1 (hS n hs))]
      · rw [if_neg hs, if_neg hs]

/-! ## Taking up an expansion -/

/-- Both runs end with the same table, or with the same error. -/
inductive Agree : EStateM.Result GenerateError MacroTable Unit →
    EStateM.Result GenerateError MacroTable Unit → Prop where
  | ok (t : MacroTable) : Agree (.ok () t) (.ok () t)
  | error (e : GenerateError) (t t' : MacroTable) : Agree (.error e t) (.error e t')

/-- The outcome is the same if some of the macros in use are expanded beforehand. -/
theorem WellFormed.agree_expand_after (ht : t.WellFormed) (hS : t.AllGrounded S)
    (hin : ∀ s ∈ S, t.InUse s) : Agree (expand (t.after S)) (expand t) := by
  rcases ht.expand_cases with ⟨hall, hrun⟩ | ⟨name, e, hname, he, hrun⟩
  · have hrun' : expand (t.after S) = .ok () (t.after {n | t.InUse n}) :=
      expandRounds_eq_ok ht hall hin (card_unexpanded_le _)
    rw [hrun, hrun']
    exact .ok _
  · rw [← (refines_after hS).expansion_eq] at he
    have hrun' : expand (t.after S) = .error e _ :=
      expandRounds_of_blamed (ht.after hS) (hname.after ht hS) he (Nat.le_refl _)
    rw [hrun, hrun']
    exact .error ..

theorem WellFormed.agree_expand_define (ht : t.WellFormed) (hS : t.AllGrounded S)
    (hused : ∀ s ∈ S, t.isUsed s = true) (hname : name ∉ t.names) (d : Regex) :
    Agree (expand ((t.after S).define name d)) (expand (t.define name d)) := by
  rw [ht.define_after hS hname]
  refine (ht.define name d).agree_expand_after ?_ fun s hs => .of_isUsed ?_
  · exact fun s hs => (extends_define hname d).preserves.grounded (hS s hs)
  · have hne : s ≠ name := by
      rintro rfl
      exact hname (mem_names_of_isUsed (hused s hs))
    rw [isUsed, entry_define_of_ne hne]
    exact hused s hs

/-- What an expansion that stops at `b` makes of the table. -/
structure Halted (t t' : MacroTable) (b : String) : Prop where
  names : t'.names = t.names
  /-- Before `b` definitions are replaced by what they stand for. -/
  resolved : ∀ n d, t.isUsed n = true → n < b → t.definition? n = some d →
    t'.definition? n = some (t.resolve d) ∧ (t.resolve d).Closed ∧
      t.resolve d = d.subst fun m => t.resolve ((t.definition? m).getD (.use m))
  others : ∀ n, ¬(t.isUsed n = true ∧ n < b) → t'.definition? n = t.definition? n
  used_iff : ∀ n, t'.isUsed n = true ↔
    t.isUsed n = true ∨ ∃ u, t.isUsed u = true ∧ u < b ∧ ReflTransGen t.Uses u n

theorem Blamed.halted (h : t.Blamed b) (ht : t.WellFormed) :
    t.Halted (t.after {n | n ∈ t.pending ∧ n < b}) b := by
  constructor
  · exact names_edit t _
  · intro n d hu hlt hd
    have hg := (grounded_use_iff hd).1 (h.grounded_of_lt ht hu hlt)
    refine ⟨?_, hg.closed_resolve, hg.resolve_eq⟩
    rw [definition?_after, hd, Option.map_some]
    split
    · rfl
    · next hn =>
      -- nothing is left to resolve in what was expanded by an earlier run
      have hx := (ht.expanded_or_pending hu).resolve_right fun hp => hn ⟨hp, hlt⟩
      obtain ⟨d', hd', hclosed⟩ := ht.exists_closed hx
      rw [hd, Option.some.injEq] at hd'
      rw [resolve_of_closed (hd' ▸ hclosed)]
  · intro n hn
    have hnot : n ∉ {n | n ∈ t.pending ∧ n < b} :=
      fun ⟨hp, hlt⟩ => hn ⟨((mem_pending ht).1 hp).1, hlt⟩
    rw [definition?_after]
    simp only [if_neg hnot, Option.map_id']
  · intro n
    rw [isUsed_after_iff]
    constructor
    · rintro (hu | ⟨-, s, ⟨hp, hlt⟩, hr⟩)
      · exact .inl hu
      · exact .inr ⟨s, ((mem_pending ht).1 hp).1, hlt, hr.to_reflTransGen⟩
    · rintro (hu | ⟨u, hu, hlt, hr⟩)
      · exact .inl hu
      · rcases reflTransGen_iff_eq_or_transGen.1 hr with rfl | htrans
        · exact .inl hu
        · have hp := (ht.expanded_or_pending hu).resolve_left fun hx => ht.no_uses hx htrans
          have hn := mem_names_of_sound ((h.grounded_of_lt ht hu hlt).of_reach hr).sound
          exact .inr ⟨hn, u, ⟨hp, hlt⟩, htrans⟩

/-- An expansion that fails has expanded exactly the used macros before the first one that leads
astray. If it fails over a missing name, then to define the name and to expand again comes to the
same as to define it before. -/
theorem failed_expansion_is_resumable (ht : Built t) (h : expand t = .error e t') :
    ∃ b, t.FirstAstray b ∧ t.Halted t' b ∧
      ∀ name referrer, e = .macroUndefined name referrer → ∀ d,
        Agree (expand (t'.define name d)) (expand (t.define name d)) := by
  have hwf := ht.wellFormed
  obtain ⟨b, hb, he, rfl⟩ := hwf.exists_blamed_of_error h
  have hfirst := hb.firstAstray hwf
  refine ⟨b, hfirst, hb.halted hwf, ?_⟩
  rintro name referrer rfl d
  have hname : name ∉ t.names := by
    cases explains_expansion hfirst.used he with
    | undefined missing _ _ => rwa [← contains_iff, Bool.not_eq_true]
  exact hwf.agree_expand_define (allGrounded_before hb)
    (fun s hs => ((mem_pending hwf).1 hs.1).1) hname d

/-- A name that is expanded before the missing rest of the term is noticed. -/
def unfinished : MacroTable :=
  let letter := empty.define "LETTER" (.one (.code 97 false))
  let name := letter.define "NAME" (.plus (.use "LETTER"))
  let term := name.define "TERM" (.cat (.use "NAME") (.use "REST"))
  (term.markUsed "TERM").markUsed "NAME"

/-- The table that the failed expansion leaves. -/
def abandoned : MacroTable := left expand unfinished

/-- The rest can be defined by letters, or so that it makes a cycle. -/
theorem failed_expansion_is_resumable_unfinished :
    Built unfinished ∧
      expand unfinished = .error (.macroUndefined "REST" "TERM") abandoned ∧
      abandoned.definition? "NAME" = some (.plus (.one (.code 97 false))) ∧
      abandoned.definition? "TERM" = some (.cat (.use "NAME") (.use "REST")) ∧
      (∀ d, Agree (expand (abandoned.define "REST" d)) (expand (unfinished.define "REST" d))) ∧
      (∃ u, expand (abandoned.define "REST" (.opt (.use "LETTER"))) = .ok () u ∧
        u.definition? "TERM" =
          some (.cat (.plus (.one (.code 97 false))) (.opt (.one (.code 97 false))))) ∧
      ∃ u, expand (abandoned.define "REST" (.opt (.use "TERM"))) =
        .error (.macroCycle "TERM") u := by
  have hbuilt : Built unfinished :=
    .markUsed (.markUsed (((Built.empty.define _ _).define _ _).define _ _) _) _
  have hrun : expand unfinished = .error (.macroUndefined "REST" "TERM") abandoned := by rfl
  obtain ⟨b, -, -, hresume⟩ := failed_expansion_is_resumable hbuilt hrun
  exact ⟨hbuilt, hrun, by decide, by decide, hresume "REST" "TERM" rfl, ⟨_, rfl, by decide⟩,
    ⟨_, rfl⟩⟩

end MacroTable

end ScannerGen
