import ScannerGen.Proofs.Spec.ExactExpansion

/-
  What an expansion that fails says about the macros. It stops at the first used macro that leads to
  a missing definition or a cycle. The error is found somewhere below that macro, in the definitions
  being expanded: a cycle is named by a macro that lies on it, and not by one that only leads to it,
  and a missing name by the macro whose definition has it (`expand_blames_first`).
-/

namespace ScannerGen.MacroTable

open Relation

variable {t t' : MacroTable} {r : Regex} {b m n name current : String} {outer : List String}
  {e : GenerateError}

/-- The macro leads to a name without a definition, or to a cycle. -/
def LeadsAstray (t : MacroTable) (m : String) : Prop :=
  ∃ n, ReflTransGen t.Uses m n ∧ (t.definition? n = none ∨ TransGen t.Uses n n)

/-- By name the first of the used macros that lead astray. -/
structure FirstAstray (t : MacroTable) (b : String) : Prop where
  used : t.isUsed b = true
  astray : t.LeadsAstray b
  first : ∀ n, t.isUsed n = true → n < b → ¬t.LeadsAstray n

/-- What an error may tell of the macro `b`. -/
inductive Explains (t : MacroTable) (b : String) : GenerateError → Prop where
  | cycle {name : String} (reached : ReflTransGen t.Uses b name)
      (cycle : TransGen t.Uses name name) : Explains t b (.macroCycle name)
  | undefined {name referrer : String} (missing : t.contains name = false)
      (reached : ReflTransGen t.Uses b referrer) (uses : t.Uses referrer name) :
      Explains t b (.macroUndefined name referrer)

theorem leadsAstray_iff : t.LeadsAstray m ↔ ¬t.Grounded (.use m) := by
  unfold LeadsAstray
  rw [grounded_use_iff_sound]
  push Not
  refine exists_congr fun n => and_congr_right fun _ => ?_
  rw [Sound, not_and_or, not_not, Bool.not_eq_true, Option.isSome_eq_false_iff,
    Option.isNone_iff_eq_none]

theorem Blamed.grounded_of_lt (h : t.Blamed b) (ht : t.WellFormed) (hu : t.isUsed n = true)
    (hlt : n < b) : t.Grounded (.use n) :=
  (ht.expanded_or_pending hu).elim ht.grounded_of_expanded fun hp => h.before n hp hlt

/-- What has been expanded leads nowhere, so the first macro that is stuck is the first of all. -/
theorem Blamed.firstAstray (h : t.Blamed b) (ht : t.WellFormed) : t.FirstAstray b where
  used := ((mem_pending ht).1 h.pending).1
  astray := leadsAstray_iff.2 h.stuck
  first n hu hlt := by
    rw [leadsAstray_iff, not_not]
    exact h.grounded_of_lt ht hu hlt

/-- All macros on the way are reached from `b`, so what stops there explains why `b` is stuck. -/
theorem Trail.explains (h : t.Trail current outer)
    (hb : ∀ m ∈ current :: outer, ReflTransGen t.Uses b m)
    (hr : ∀ n ∈ r.macroUses, t.Uses current n) {depth : Nat}
    (he : t.expandWithin depth current outer r = .error e) : t.Explains b e := by
  induction depth generalizing current outer r with
  | zero => exact absurd he pure_ne_error
  | succ depth ih =>
    rw [expandWithin_succ] at he
    obtain ⟨n, hn, he⟩ := Regex.substM_eq_error he
    have hu := hr n hn
    have hcurrent := hb current List.mem_cons_self
    by_cases hmem : n ∈ current :: outer
    · rw [enter_of_mem hmem] at he
      cases he
      exact .cycle (hb n hmem) (h.closes hu hmem)
    · cases hd : t.definition? n with
      | none =>
        rw [enter_of_none hmem hd] at he
        cases he
        refine .undefined ?_ hcurrent hu
        rw [contains, ← Option.isSome_map, ← definition?, hd, Option.isSome_none]
      | some d =>
        rw [enter_of_some hmem hd] at he
        exact ih (h.push hu (mem_names_of_definition? hd) hmem)
          (List.forall_mem_cons.2 ⟨hcurrent.tail hu, hb⟩) (fun m hm => ⟨d, hd, hm⟩) he

theorem explains_expansion (hb : t.isUsed b = true) (he : t.expansion b = .error e) :
    t.Explains b e := by
  obtain ⟨d, hd⟩ := Option.isSome_iff_exists.1 (definition?_isSome_iff.2 (mem_names_of_isUsed hb))
  rw [expansion_eq hd] at he
  exact (Trail.single (mem_names_of_definition? hd)).explains (by simpa using .refl)
    (fun n hn => ⟨d, hd, hn⟩) he

/-- The error of an expansion explains the first of the used macros that lead astray, in terms of
the definitions before the expansion. -/
theorem expand_blames_first (ht : Built t) (h : expand t = .error e t') :
    ∃ b, t.FirstAstray b ∧ t.Explains b e := by
  have hwf := ht.wellFormed
  obtain ⟨b, hb, he, -⟩ := hwf.exists_blamed_of_error h
  have hfirst := hb.firstAstray hwf
  exact ⟨b, hfirst, explains_expansion hfirst.used he⟩

/-- A name that can be expanded and is, and a phrase that only leads to a cycle. -/
def misled : MacroTable :=
  let letter := empty.define "LETTER" (.one (.code 97 false))
  let name := letter.define "NAME" (.plus (.use "LETTER"))
  let phrase := name.define "PHRASE" (.cat (.use "NAME") (.use "REST"))
  let rest := phrase.define "REST" (.opt (.use "TAIL"))
  let tail := rest.define "TAIL" (.alt (.use "REST") (.use "NOTHING"))
  (tail.markUsed "PHRASE").markUsed "NAME"

theorem expand_blames_first_misled : Built misled ∧
    expand misled = .error (.macroCycle "REST") (left expand misled) ∧
      (left expand misled).definition? "NAME" = some (.plus (.one (.code 97 false))) ∧
      ∃ b, misled.FirstAstray b ∧ misled.Explains b (.macroCycle "REST") := by
  have hbuilt : Built misled :=
    .markUsed (.markUsed ((((((Built.empty.define _ _).define _ _).define _ _).define _ _).define
      _ _)) _) _
  have hrun : expand misled = .error (.macroCycle "REST") (left expand misled) := by rfl
  exact ⟨hbuilt, hrun, by decide, expand_blames_first hbuilt hrun⟩

end ScannerGen.MacroTable
