import ScannerGen.Proofs.Spec.Refines
import ScannerGen.Spec.Basic

/-
  Expanding macros. No step changes what an expression stands for (`Refines`). A table that is
  prepared without an error has closed definitions for all that the rules use (`prepare_spec`), so
  every expression of a rule is grounded, also over the table at the start.
-/

namespace ScannerGen

namespace Regex

variable {ε : Type} {f : String → Except ε Regex}

/-- The effects have results for all uses, and these are substituted. -/
theorem substM_eq_ok {r r' : Regex} (h : r.substM f = .ok r') :
    (∀ name ∈ r.macroUses, ∃ d, f name = .ok d) ∧
      ∀ g : String → Regex, (∀ name ∈ r.macroUses, f name = .ok (g name)) → r' = r.subst g := by
  induction r generalizing r' with
  | alt r s hr hs | cat r s hr hs =>
    obtain ⟨a, ha, h⟩ := bind_eq_ok.1 h
    obtain ⟨b, hb, h⟩ := bind_eq_ok.1 h
    obtain rfl := pure_eq_ok.1 h
    simp only [macroUses_alt, macroUses_cat, List.mem_append]
    refine ⟨fun n hn => hn.elim ((hr ha).1 n) ((hs hb).1 n), fun g hg => ?_⟩
    unfold subst
    rw [(hr ha).2 g fun n hn => hg n (.inl hn), (hs hb).2 g fun n hn => hg n (.inr hn)]
  | star r hr | plus r hr | opt r hr | compl r hr | upTo r hr =>
    obtain ⟨a, ha, h⟩ := bind_eq_ok.1 h
    obtain rfl := pure_eq_ok.1 h
    exact ⟨(hr ha).1, fun g hg => by rw [subst, (hr ha).2 g hg]⟩
  | leaf l =>
    cases l with
    | use name =>
      simp only [macroUses_use, List.mem_singleton, forall_eq]
      exact ⟨⟨r', h⟩, fun g hg => Except.ok.inj (h.symm.trans hg)⟩
    | _ =>
      obtain rfl := pure_eq_ok.1 h
      exact ⟨by simp [macroUses, leaves], fun _ _ => rfl⟩

/-- An error comes from a use. -/
theorem substM_eq_error {r : Regex} {e : ε} (h : r.substM f = .error e) :
    ∃ name ∈ r.macroUses, f name = .error e := by
  induction r with
  | alt r s hr hs | cat r s hr hs =>
    simp only [macroUses_alt, macroUses_cat, List.mem_append]
    rcases bind_eq_error.1 h with h | ⟨a, -, h⟩
    · obtain ⟨n, hn, he⟩ := hr h
      exact ⟨n, .inl hn, he⟩
    · rcases bind_eq_error.1 h with h | ⟨b, -, h⟩
      · obtain ⟨n, hn, he⟩ := hs h
        exact ⟨n, .inr hn, he⟩
      · exact absurd h pure_ne_error
  | star r hr | plus r hr | opt r hr | compl r hr | upTo r hr =>
    rcases bind_eq_error.1 h with h | ⟨a, -, h⟩
    · exact hr h
    · exact absurd h pure_ne_error
  | leaf l =>
    cases l with
    | use name => exact ⟨name, List.mem_singleton_self _, h⟩
    | _ => exact absurd h pure_ne_error

end Regex

namespace MacroTable

variable {t t' t'' : MacroTable} {r : Regex} {name : String}

/-! ## Expansion -/

/-- A definition that is looked up while those of `current` and, around it, `outer` are being
expanded. -/
def enter (t : MacroTable) (depth : Nat) (current : String) (outer : List String) (n : String) :
    Except GenerateError Regex :=
  if n = current || outer.contains n then .error (.macroCycle n)
  else
    match t.definition? n with
    | none => .error (.macroUndefined n current)
    | some d => t.expandWithin depth n (current :: outer) d

section

variable {n current : String} {outer : List String} {depth : Nat}

theorem expandWithin_succ (depth : Nat) (current : String) (outer : List String) (r : Regex) :
    t.expandWithin (depth + 1) current outer r = r.substM (t.enter depth current outer) := rfl

theorem enter_of_mem (h : n ∈ current :: outer) :
    t.enter depth current outer n = .error (.macroCycle n) := by
  unfold enter
  rw [if_pos (by simpa using h)]

theorem enter_of_none (h : n ∉ current :: outer) (hd : t.definition? n = none) :
    t.enter depth current outer n = .error (.macroUndefined n current) := by
  unfold enter
  rw [if_neg (by simpa using h), hd]

theorem enter_of_some {d : Regex} (h : n ∉ current :: outer) (hd : t.definition? n = some d) :
    t.enter depth current outer n = t.expandWithin depth n (current :: outer) d := by
  unfold enter
  rw [if_neg (by simpa using h), hd]

end

/-- An expansion that succeeds is what the expression resolves to. -/
theorem expandWithin_eq_ok {depth : Nat} {current : String} {outer : List String} {r' : Regex}
    (h : t.expandWithin depth current outer r = .ok r') (hnodup : (current :: outer).Nodup)
    (hnames : ∀ n ∈ current :: outer, n ∈ t.names) (hdepth : depth + outer.length = t.size) :
    t.Grounded r ∧ r' = t.resolve r := by
  induction depth generalizing current outer r r' with
  | zero =>
    -- more different names than the table has entries
    have hle := (hnodup.subperm hnames).length_le
    rw [List.length_cons, names, List.length_map] at hle
    have : t.size = t.entries.length := rfl
    omega
  | succ depth ih =>
    rw [expandWithin_succ] at h
    obtain ⟨hok, hsubst⟩ := Regex.substM_eq_ok h
    have huse : ∀ name ∈ r.macroUses, ∃ d, t.definition? name = some d ∧ t.Grounded d ∧
        t.enter depth current outer name = .ok (t.resolve d) := by
      intro name hn
      obtain ⟨d', hd'⟩ := hok name hn
      by_cases hmem : name ∈ current :: outer
      · rw [enter_of_mem hmem] at hd'
        cases hd'
      · cases hd : t.definition? name with
        | none =>
          rw [enter_of_none hmem hd] at hd'
          cases hd'
        | some d =>
          rw [enter_of_some hmem hd] at hd' ⊢
          obtain ⟨hg, rfl⟩ := ih hd' (List.nodup_cons.2 ⟨hmem, hnodup⟩)
            (List.forall_mem_cons.2 ⟨mem_names_of_definition? hd, hnames⟩)
            (by rw [List.length_cons]; omega)
          exact ⟨d, rfl, hg, hd'⟩
    have hr : t.Grounded r := by
      constructor
      · intro name hn
        obtain ⟨d, hd, -⟩ := huse name hn
        exact Option.isSome_iff_exists.2 ⟨d, hd⟩
      · intro name hn d hd
        obtain ⟨d', hd', hg, -⟩ := huse name hn
        rw [hd, Option.some.injEq] at hd'
        exact hd' ▸ hg
    refine ⟨hr, ?_⟩
    rw [hr.resolve_eq]
    apply hsubst
    intro name hn
    obtain ⟨d, hd, -, heq⟩ := huse name hn
    rw [hd, Option.getD_some]
    exact heq

theorem expandWithin_eq_error {depth : Nat} {current : String} {outer : List String}
    {e : GenerateError} (h : t.expandWithin depth current outer r = .error e) : e.OfMacros := by
  induction depth generalizing current outer r with
  | zero => exact absurd h pure_ne_error
  | succ depth ih =>
    unfold expandWithin at h
    obtain ⟨name, -, h⟩ := Regex.substM_eq_error h
    split at h
    · cases h
      exact .cycle name
    · split at h
      · cases h
        exact .undefined name current
      · exact ih h

/-- What an expansion leads to: closed definitions in place of the old ones. -/
structure Expands (t t' : MacroTable) : Prop where
  refines : t.Refines t'
  wellFormed : t'.WellFormed

theorem Expands.refl (ht : t.WellFormed) : t.Expands t := ⟨.refl t, ht⟩

theorem Expands.trans (h : t.Expands t') (h' : t'.Expands t'') : t.Expands t'' :=
  ⟨h.refines.trans h'.refines, h'.wellFormed⟩

theorem expands_entry (ht : t.WellFormed) {d : Regex} (hd : t.definition? name = some d)
    (hg : t.Grounded d) (names : List String) :
    t.Expands ((t.update name ({ · with definition := t.resolve d, isExpanded := true })).markAll
      names) := by
  rw [update_eq_edit, markAll_eq_edit]
  have hstep : t.Expands (t.edit fun n e =>
      if n = name then { e with definition := t.resolve d, isExpanded := true } else e) := by
    constructor
    · apply refines_edit
      intro n e he
      split
      · next hn =>
        subst hn
        have : e.definition = d := by
          unfold definition? at hd
          rw [he, Option.map_some, Option.some.injEq] at hd
          exact hd
        subst this
        exact ⟨.inr ⟨hg, rfl⟩, id, fun _ => rfl⟩
      · exact ⟨.inl rfl, id, id⟩
    · apply ht.edit
      intro n e he h
      by_cases hn : n = name
      · rw [if_pos hn]
        exact hg.closed_resolve
      · rw [if_neg hn] at h ⊢
        exact ht.closed_of_entry he h
  refine hstep.trans ⟨refines_edit fun n e _ => ⟨.inl rfl, fun hu => ?_, id⟩, ?_⟩
  · rw [hu]
    rfl
  · exact hstep.wellFormed.edit fun n e he h =>
      hstep.wellFormed.closed_of_entry (e := e) he h

theorem expandEntry_ensures (ht : t.WellFormed) (name : String) :
    Ensures (expandEntry name) t
      (fun _ t' => t.Expands t' ∧ (name ∈ t.names → t'.isExpanded name = true))
      (fun e _ => e.OfMacros) := by
  refine ensures_bind (ensures_get ?_)
  cases hd : t.definition? name with
  | none =>
    refine ensures_pure ⟨.refl ht, fun hn => ?_⟩
    have := definition?_isSome_iff.2 hn
    rw [hd] at this
    cases this
  | some d =>
    cases hexp : t.expandWithin t.size name [] d with
    | error e =>
      simp only [hexp]
      exact ensures_throw (expandWithin_eq_error hexp)
    | ok r =>
      obtain ⟨hg, rfl⟩ := expandWithin_eq_ok hexp (by simp)
        (by simpa using mem_names_of_definition? hd) (by simp)
      simp only [hexp]
      refine ensures_set ⟨expands_entry ht hd hg _, fun _ => ?_⟩
      obtain ⟨e, he, -⟩ := definition?_eq_some_iff.1 hd
      rw [isExpanded, markAll_eq_edit, entry_edit, update_eq_edit, entry_edit, he,
        Option.map_some, Option.map_some, if_pos rfl]
      rfl

theorem mem_pending (ht : t.WellFormed) :
    name ∈ t.pending ↔ t.isUsed name = true ∧ t.isExpanded name = false := by
  unfold pending
  rw [List.mem_filterMap, isUsed_eq_any, isExpanded]
  constructor
  · intro ⟨⟨n, e⟩, hmem, h⟩
    have he := ht.entry_eq_some_iff.2 hmem
    simp only [Option.ite_none_right_eq_some, Bool.and_eq_true, Bool.not_eq_true',
      Option.some.injEq] at h
    obtain ⟨⟨hu, hx⟩, rfl⟩ := h
    rw [he, Option.any_some, Option.any_some]
    exact ⟨hu, hx⟩
  · intro ⟨hu, hx⟩
    obtain ⟨e, he, hu⟩ := (Option.any_eq_true ..).1 hu
    rw [he, Option.any_some] at hx
    refine ⟨(name, e), ht.entry_eq_some_iff.1 he, ?_⟩
    simp [hu, hx]

theorem mem_names_of_isUsed (h : t.isUsed name = true) : name ∈ t.names := by
  rw [isUsed_eq_any, Option.any_eq_true] at h
  obtain ⟨e, he, -⟩ := h
  exact mem_names_of_definition? (definition?_eq_some_iff.2 ⟨e, he, rfl⟩)

/-- The macros whose definitions have not been expanded. -/
def unexpanded (t : MacroTable) : Finset String :=
  t.names.toFinset.filter fun name => t.isExpanded name = false

theorem Refines.unexpanded_subset (h : t.Refines t') : t'.unexpanded ⊆ t.unexpanded := by
  intro name hn
  unfold unexpanded at hn
  rw [Finset.mem_filter, h.names] at hn
  unfold unexpanded
  rw [Finset.mem_filter]
  refine ⟨hn.1, ?_⟩
  by_contra hx
  rw [h.expanded (Bool.not_eq_false _ ▸ hx)] at hn
  exact absurd hn.2 (by decide)

/-- A round that expands a macro leaves fewer of them. -/
theorem Refines.unexpanded_lt (h : t.Refines t') (hn : name ∈ t.names)
    (hx : t.isExpanded name = false) (hx' : t'.isExpanded name = true) :
    t'.unexpanded.card < t.unexpanded.card := by
  refine Finset.card_lt_card ⟨h.unexpanded_subset, fun hsub => ?_⟩
  have := hsub (Finset.mem_filter.2 ⟨List.mem_toFinset.2 hn, hx⟩)
  unfold unexpanded at this
  rw [Finset.mem_filter, hx'] at this
  exact absurd this.2 (by decide)

theorem pending_of_unexpanded (ht : t.WellFormed) (h : t.unexpanded.card = 0) : t.pending = [] := by
  apply List.eq_nil_iff_forall_not_mem.2
  intro name hn
  obtain ⟨hu, hx⟩ := (mem_pending ht).1 hn
  have hmem : name ∈ t.unexpanded :=
    Finset.mem_filter.2 ⟨List.mem_toFinset.2 (mem_names_of_isUsed hu), hx⟩
  rw [Finset.card_eq_zero.1 h] at hmem
  exact absurd hmem (Finset.notMem_empty name)

theorem expandAll_ensures (names : List String) (ht : t.WellFormed) :
    Ensures (names.forM expandEntry) t
      (fun _ t' => t.Expands t' ∧ ∀ name ∈ names, name ∈ t.names → t'.isExpanded name = true)
      (fun e _ => e.OfMacros) := by
  refine ensures_forM (I := fun done t' => t.Expands t' ∧
    ∀ name ∈ done, name ∈ t.names → t'.isExpanded name = true) ⟨.refl ht, by simp⟩ ?_
  intro done n _ t' ⟨hexp, hdone⟩
  refine (expandEntry_ensures hexp.wellFormed n).mono ?_ fun _ _ h => h
  intro _ t'' ⟨hexp', hn⟩
  refine ⟨hexp.trans hexp', fun name hname hin => ?_⟩
  rcases List.mem_append.1 hname with h | h
  · exact hexp'.refines.expanded (hdone name h hin)
  · obtain rfl := List.mem_singleton.1 h
    exact hn (hexp.refines.names.symm ▸ hin)

/-- A round leaves fewer macros to expand. -/
theorem Expands.unexpanded_lt (ht : t.WellFormed) (h : t.Expands t') (hne : t.pending ≠ [])
    (hdone : ∀ name ∈ t.pending, name ∈ t.names → t'.isExpanded name = true) :
    t'.unexpanded.card < t.unexpanded.card := by
  obtain ⟨name, hn⟩ := List.exists_mem_of_ne_nil _ hne
  obtain ⟨hu, hx⟩ := (mem_pending ht).1 hn
  have hin := mem_names_of_isUsed hu
  exact h.refines.unexpanded_lt hin hx (hdone name hn hin)

theorem expands_round (ht : t.WellFormed) (hne : t.pending ≠ [])
    (hrun : t.pending.forM expandEntry t = .ok () t') :
    t.Expands t' ∧ t'.unexpanded.card < t.unexpanded.card := by
  have h := expandAll_ensures t.pending ht
  unfold Ensures at h
  rw [hrun] at h
  exact ⟨h.1, h.1.unexpanded_lt ht hne h.2⟩

/-- The rounds end when everything used is expanded. -/
theorem expandRounds_ensures (rounds : Nat) (ht : t.WellFormed)
    (hrounds : t.unexpanded.card ≤ rounds) :
    Ensures (expandRounds rounds) t (fun _ t' => t.Expands t' ∧ t'.pending = [])
      (fun e _ => e.OfMacros) := by
  induction rounds generalizing t with
  | zero => exact ensures_pure ⟨.refl ht, pending_of_unexpanded ht (Nat.le_zero.1 hrounds)⟩
  | succ rounds ih =>
    refine ensures_bind (ensures_get ?_)
    dsimp only
    split
    · next hnil => exact ensures_pure ⟨.refl ht, List.isEmpty_iff.1 hnil⟩
    · next hnil =>
      refine ensures_bind ((expandAll_ensures t.pending ht).mono ?_ fun _ _ h => h)
      intro _ t' ⟨hexp, hdone⟩
      have hlt := hexp.unexpanded_lt ht (fun h => hnil (List.isEmpty_iff.2 h)) hdone
      refine (ih hexp.wellFormed (by omega)).mono ?_ fun _ _ h => h
      exact fun _ t'' h => ⟨hexp.trans h.1, h.2⟩

theorem card_unexpanded_le (t : MacroTable) : t.unexpanded.card ≤ t.size := by
  calc t.unexpanded.card ≤ t.names.toFinset.card := Finset.card_filter_le ..
    _ ≤ t.names.length := List.toFinset_card_le _
    _ = t.size := by rw [names, List.length_map, size]

/-- Expansion ends with everything used expanded, or with an error that names a macro. -/
theorem expand_ensures (ht : t.WellFormed) :
    Ensures expand t (fun _ t' => t.Expands t' ∧ t'.pending = []) (fun e _ => e.OfMacros) :=
  ensures_bind (ensures_get (expandRounds_ensures _ ht (card_unexpanded_le t)))

end MacroTable

/-! ## Preparation -/

/-- The expressions of a rule. -/
def Rule.exprs (rule : Rule) : List Regex := rule.regex :: rule.lookahead?.toList

/-- The expressions of all rules. -/
def Spec.exprs (spec : Spec) : List Regex := spec.rules.flatMap Rule.exprs

open MacroTable

theorem markRules_ensures (rules : List Rule) (t : MacroTable) :
    Ensures (markRules rules) t
      (fun _ t' => t.Marks t' ((rules.flatMap Rule.exprs).flatMap Regex.macroUses))
      (fun e _ => e.OfMacros) := by
  have hrule : ∀ (rule : Rule) (t : MacroTable),
      Ensures (rule.exprs.forM (MacroTable.markUses · rule.describe)) t
        (fun _ t' => t.Marks t' (rule.exprs.flatMap Regex.macroUses)) (fun e _ => e.OfMacros) := by
    intro rule t
    refine ensures_forM (I := fun done t' => t.Marks t' (done.flatMap Regex.macroUses)) (.refl t) ?_
    intro done r _ t' hmarks
    refine (markUses_ensures r _ t').mono (fun _ t'' h => ?_) fun _ _ h => h.1
    rw [List.flatMap_append, List.flatMap_singleton]
    exact hmarks.trans h
  refine ensures_forM (I := fun done t' =>
    t.Marks t' ((done.flatMap Rule.exprs).flatMap Regex.macroUses)) (.refl t) ?_
  intro done rule _ t' hmarks
  refine (hrule rule t').mono (fun _ t'' h => ?_) fun _ _ h => h
  rw [List.flatMap_append, List.flatMap_singleton, List.flatMap_append]
  exact hmarks.trans h

/-- A table in which all that the expressions use has a closed definition. -/
structure Ready (t t' : MacroTable) (exprs : List Regex) : Prop where
  refines : t.Refines t'
  wellFormed : t'.WellFormed
  closed : ∀ r ∈ exprs, ∀ name ∈ r.macroUses,
    ∃ d, t'.definition? name = some d ∧ d.Closed

theorem Ready.grounded {t t' : MacroTable} {exprs : List Regex} (h : Ready t t' exprs) {r : Regex}
    (hr : r ∈ exprs) : t'.Grounded r := by
  constructor
  · intro name hn
    obtain ⟨d, hd, -⟩ := h.closed r hr name hn
    exact Option.isSome_iff_exists.2 ⟨d, hd⟩
  · intro name hn d hd
    obtain ⟨d', hd', hc⟩ := h.closed r hr name hn
    rw [hd, Option.some.injEq] at hd'
    exact .of_closed (hd' ▸ hc)

theorem prepareMacros_ensures (rules : List Rule) {t : MacroTable} (ht : t.WellFormed) :
    Ensures (do markRules rules; MacroTable.expand : MacroTable.Edit Unit) t
      (fun _ t' => Ready t t' (rules.flatMap Rule.exprs)) (fun e _ => e.OfMacros) := by
  refine ensures_bind ((markRules_ensures rules t).mono (fun _ t' hmarks => ?_) fun _ _ h => h)
  refine (expand_ensures (hmarks.wellFormed ht)).mono ?_ fun _ _ h => h
  intro _ t'' ⟨hexp, hpending⟩
  refine ⟨hmarks.refines.trans hexp.refines, hexp.wellFormed, fun r hr name hn => ?_⟩
  have hu := hexp.refines.used (hmarks.used name (List.mem_flatMap.2 ⟨r, hr, hn⟩))
  have hx : t''.isExpanded name = true := by
    by_contra hx
    have := (mem_pending hexp.wellFormed).2 ⟨hu, Bool.not_eq_true _ ▸ hx⟩
    rw [hpending] at this
    exact absurd this List.not_mem_nil
  obtain ⟨e, he, hx⟩ := (Option.any_eq_true ..).1 hx
  exact ⟨e.definition, definition?_eq_some_iff.2 ⟨e, he, rfl⟩,
    hexp.wellFormed.closed_of_entry he hx⟩

/-- A preparation fails only over macros and ambiguous lookaheads; otherwise the macros are ready
for all expressions of the rules. -/
theorem prepare_spec {spec : Spec} (ht : spec.macros.WellFormed) (top : Nat) :
    match (spec.prepare top).result with
    | .ok () => ∃ t, (spec.prepare top).spec = { spec with macros := t } ∧
        Ready spec.macros t spec.exprs
    | .error e => e.OfMacros ∨ ∃ line, e = .ambiguousLookahead line := by
  have h := prepareMacros_ensures spec.rules ht
  unfold Ensures at h
  unfold Spec.prepare
  split at h
  · next t heq =>
    simp only [heq]
    unfold checkLookaheads
    cases hbad : ambiguousRules t top spec.rules with
    | nil =>
      exact ⟨t, rfl, h⟩
    | cons bad _ =>
      exact .inr ⟨_, rfl⟩
  · next e t heq =>
    simp only [heq]
    exact .inl h

end ScannerGen
