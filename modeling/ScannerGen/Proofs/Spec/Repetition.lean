import ScannerGen.Generate
import ScannerGen.Proofs.Spec.ExactExpansion

/-
  Preparing a specification twice. Marks that are there stay there, so marking a second time ends
  as before (`repeats_markRules`). An expansion that stopped stops again at the same macro: whatever
  else has been marked meanwhile was reached from a macro that could be expanded, so it can be
  expanded too (`Blamed.after`). Nothing is left for a second preparation to do or to report
  differently (`prepare_is_idempotent`).
-/

namespace ScannerGen

open MacroTable Relation

namespace MacroTable

variable {t t' : MacroTable} {n name : String}

/-! ## Marking again -/

/-- Run again on any later table, the action ends as before and changes nothing. -/
def Repeats (act : Edit Unit) : Prop :=
  ∀ t, t.WellFormed → Ensures act t
    (fun _ t' => t.Expands t' ∧ ∀ t'', t'.Expands t'' → act t'' = .ok () t'')
    (fun e t' => t.Expands t' ∧ ∀ t'', t'.Expands t'' → act t'' = .error e t'')

theorem repeats_pure : Repeats (pure ()) := fun _ ht => ensures_pure ⟨.refl ht, fun _ _ => rfl⟩

theorem Repeats.bind {act act' : Edit Unit} (h : Repeats act) (h' : Repeats act') :
    Repeats (act >>= fun _ => act') := by
  intro t ht
  refine ensures_bind ((h t ht).mono ?_ ?_)
  · intro _ t₁ ⟨hexp, hrep⟩
    refine (h' t₁ hexp.wellFormed).mono ?_ ?_
    · intro _ t₂ ⟨hexp', hrep'⟩
      refine ⟨hexp.trans hexp', fun t'' hlater => ?_⟩
      rw [run_bind_ok (hrep t'' (hexp'.trans hlater))]
      exact hrep' t'' hlater
    · intro e t₂ ⟨hexp', hrep'⟩
      refine ⟨hexp.trans hexp', fun t'' hlater => ?_⟩
      rw [run_bind_ok (hrep t'' (hexp'.trans hlater))]
      exact hrep' t'' hlater
  · intro e t₁ ⟨hexp, hrep⟩
    exact ⟨hexp, fun t'' hlater => run_bind_error (hrep t'' hlater)⟩

theorem repeats_forM {α : Type} {f : α → Edit Unit} (h : ∀ a, Repeats (f a)) (l : List α) :
    Repeats (l.forM f) := by
  induction l with
  | nil => exact repeats_pure
  | cons a l ih =>
    rw [List.forM_eq_forM, List.forM_cons]
    exact (h a).bind ih

theorem contains_iff : t.contains name = true ↔ name ∈ t.names := by
  rw [← definition?_isSome_iff, definition?, Option.isSome_map, contains]

theorem WellFormed.markUsed_eq_self (ht : t.WellFormed) (h : t.isUsed name = true) :
    t.markUsed name = t := by
  unfold MacroTable.markUsed
  rw [update_eq_edit]
  refine ht.edit_eq_self fun n e he => ?_
  split
  · next hn =>
    subst hn
    rw [isUsed_eq_any, he, Option.any_some] at h
    rw [← h]
  · rfl

theorem repeats_markUses (r : Regex) (referrer : String) : Repeats (markUses r referrer) := by
  refine repeats_forM (fun name t ht => ensures_bind (ensures_get ?_)) _
  split
  · next hc =>
    refine ensures_set ⟨⟨refines_markUsed t name, ht.markUsed name⟩, fun t'' h => ?_⟩
    have hc' : t''.contains name = true := by
      rw [contains_iff] at hc ⊢
      rwa [h.refines.names, (refines_markUsed t name).names]
    rw [run_get_bind, if_pos hc']
    show EStateM.Result.ok () (t''.markUsed name) = _
    rw [h.wellFormed.markUsed_eq_self (h.refines.used (isUsed_markUsed hc))]
  · next hc =>
    refine ensures_throw ⟨.refl ht, fun t'' h => ?_⟩
    rw [run_get_bind, if_neg]
    · rfl
    · rw [contains_iff] at hc ⊢
      rwa [h.refines.names]

end MacroTable

theorem repeats_markRules (rules : List Rule) : Repeats (markRules rules) := by
  unfold markRules
  exact repeats_forM (fun rule => repeats_forM (fun r => repeats_markUses r rule.describe) _) rules

namespace MacroTable

variable {t t' : MacroTable} {n name : String}

/-! ## Expanding again -/

theorem expands_after {S : Set String} (ht : t.WellFormed) (hS : t.AllGrounded S) :
    t.Expands (t.after S) := ⟨refines_after hS, ht.after hS⟩

/-- What has been marked since is no reason to stop earlier. -/
theorem Blamed.after {S : Set String} (h : t.Blamed name) (ht : t.WellFormed)
    (hS : t.AllGrounded S) : (t.after S).Blamed name := by
  obtain ⟨href, hwf⟩ := expands_after ht hS
  constructor
  · obtain ⟨hu, hx⟩ := (mem_pending ht).1 h.pending
    refine (mem_pending hwf).2 ⟨href.used hu, ?_⟩
    rw [Bool.eq_false_iff, ne_eq, isExpanded_after_iff]
    rintro (hx' | ⟨-, hn⟩)
    · rw [hx] at hx'
      cases hx'
    · exact h.stuck (hS name hn)
  · rw [href.grounded_use_iff]
    exact h.stuck
  · intro n hn hlt
    rw [href.grounded_use_iff]
    obtain ⟨hu, hx⟩ := (mem_pending hwf).1 hn
    rcases isUsed_after_iff.1 hu with hu | ⟨-, s, hs, hr⟩
    · refine h.before n ((mem_pending ht).2 ⟨hu, ?_⟩) hlt
      rw [Bool.eq_false_iff] at hx ⊢
      exact fun hx' => hx (href.expanded hx')
    · exact (hS s hs).of_reach hr.to_reflTransGen

/-- An expansion that ended comes to the same end again. -/
theorem WellFormed.expand_again (ht : t.WellFormed) :
    Ensures expand t (fun _ t' => t.Expands t' ∧ expand t' = .ok () t')
      (fun e t' => t.Expands t' ∧ ∃ t'', expand t' = .error e t'') := by
  have hexpand := expand_ensures ht
  unfold Ensures at hexpand ⊢
  rcases ht.expand_cases with ⟨-, hrun⟩ | ⟨name, e, hname, he, hrun⟩
  · rw [hrun] at hexpand ⊢
    exact ⟨hexpand.1, expandRounds_of_nil hexpand.2 _⟩
  · rw [hrun]
    have hS := allGrounded_before hname
    have hexp := expands_after ht hS
    rw [← hexp.refines.expansion_eq] at he
    exact ⟨hexp, _,
      expandRounds_of_blamed hexp.wellFormed (hname.after ht hS) he (Nat.le_refl _)⟩

end MacroTable

/-- Marking and expanding end as before if they are done again, and change no table that they
accept. -/
theorem prepareMacros_again (rules : List Rule) {t : MacroTable} (ht : t.WellFormed) :
    Ensures (do markRules rules; MacroTable.expand : MacroTable.Edit Unit) t
      (fun _ t' => (do markRules rules; MacroTable.expand : MacroTable.Edit Unit) t' = .ok () t')
      (fun e t' => ∃ t'', (do markRules rules; MacroTable.expand : MacroTable.Edit Unit) t' =
        .error e t'') := by
  refine ensures_bind ((repeats_markRules rules t ht).mono ?_ ?_)
  · intro _ t₁ ⟨hexp, hrep⟩
    refine hexp.wellFormed.expand_again.mono ?_ ?_
    · intro _ t₂ ⟨hexp', hagain⟩
      rw [run_bind_ok (hrep t₂ hexp')]
      exact hagain
    · intro e t₂ ⟨hexp', t₃, hagain⟩
      refine ⟨t₃, ?_⟩
      rw [run_bind_ok (hrep t₂ hexp')]
      exact hagain
  · intro e t₁ ⟨hexp, hrep⟩
    exact ⟨t₁, run_bind_error (hrep t₁ (.refl hexp.wellFormed))⟩

theorem prepare_again {spec : Spec} (ht : spec.macros.WellFormed) (top : Nat) :
    ((spec.prepare top).spec.prepare top).result = (spec.prepare top).result ∧
      ((spec.prepare top).spec.prepare top).log = (spec.prepare top).log ∧
      ((spec.prepare top).result = .ok () →
        ((spec.prepare top).spec.prepare top).spec = (spec.prepare top).spec) := by
  have h := prepareMacros_again spec.rules ht
  unfold Ensures at h
  unfold Spec.prepare
  split at h
  · next t heq =>
    simp only [heq, h]
    exact ⟨trivial, trivial, fun _ => trivial⟩
  · next e t heq =>
    obtain ⟨t', heq'⟩ := h
    simp only [heq, heq']
    exact ⟨trivial, trivial, nofun⟩

theorem generate_again {spec : Spec} (ht : spec.macros.WellFormed) (config : Config) :
    (generate (generate spec config).1 config).2 = (generate spec config).2 := by
  obtain ⟨hresult, hlog, hspec⟩ := prepare_again ht config.maxCode
  have hleft : (generate spec config).1 = (spec.prepare config.maxCode).spec := by
    unfold generate
    dsimp only
    split
    · rfl
    · split <;> rfl
  rw [hleft]
  unfold generate
  dsimp only
  rw [hresult, hlog]
  cases hfirst : (spec.prepare config.maxCode).result with
  | error e => rfl
  | ok _ => rw [hspec hfirst]

/-- A second preparation of what the first one left has the same result and the same log, and
changes nothing if the first one succeeded. So a second generation reports the same as the first. -/
theorem prepare_is_idempotent (spec : Spec) (config : Config) (ht : Built spec.macros) :
    let first := spec.prepare config.maxCode
    let second := first.spec.prepare config.maxCode
    second.result = first.result ∧ second.log = first.log ∧
      (first.result = .ok () → second.spec = first.spec) ∧
      (generate (generate spec config).1 config).2 = (generate spec config).2 := by
  obtain ⟨hresult, hlog, hspec⟩ := prepare_again ht.wellFormed config.maxCode
  exact ⟨hresult, hlog, hspec, generate_again ht.wellFormed config⟩

/-- Numbers can be expanded before the macro that uses itself is met. -/
def tangled : Spec where
  macros := ((MacroTable.empty.define "DIGIT" (.one (.code 48 false))).define "NUMBER"
    (.plus (.use "DIGIT"))).define "TWIST" (.cat (.use "NUMBER") (.use "TWIST"))
  rules := [.new 1 (.use "TWIST") "twist", .new 2 (.use "NUMBER") "number"]
  states := .initial
  eof := .empty
  standalone := false

theorem prepare_is_idempotent_tangled : Built tangled.macros ∧
    (tangled.prepare 127).result = .error (.macroCycle "TWIST") ∧
    (tangled.prepare 127).spec.macros.definition? "NUMBER" =
      some (.plus (.one (.code 48 false))) ∧
    ((tangled.prepare 127).spec.prepare 127).result = .error (.macroCycle "TWIST") := by
  have hbuilt : Built tangled.macros := ((Built.empty.define _ _).define _ _).define _ _
  have hfirst : (tangled.prepare 127).result = .error (.macroCycle "TWIST") := by rfl
  obtain ⟨hresult, -, -, -⟩ :=
    prepare_is_idempotent tangled { Config.default with maxCode := 127 } hbuilt
  exact ⟨hbuilt, hfirst, by rfl, hresult.trans hfirst⟩

end ScannerGen
