import ScannerGen.Proofs.Ensures
import ScannerGen.Proofs.Sorted
import ScannerGen.Proofs.Spec.Macros

/-
  Macro tables that stand for the same. Each definition stays as it is, or what it resolves to takes
  its place, and marks are only added (`Refines`); so an expression resolves to the same over both
  tables (`Refines.resolve_eq`). Marking what an expression uses is such a step
  (`markUses_ensures`).
-/

namespace ScannerGen

/-- An error about a macro that is missing or defined in terms of itself. -/
inductive GenerateError.OfMacros : GenerateError → Prop where
  | cycle (name : String) : OfMacros (.macroCycle name)
  | undefined (name referrer : String) : OfMacros (.macroUndefined name referrer)

namespace MacroTable

variable {t t' t'' : MacroTable} {r : Regex} {name : String}

/-! ## Entries -/

/-- What every table is like that was made by definitions, marks and expansions. -/
structure WellFormed (t : MacroTable) : Prop where
  ascending : t.entries.Pairwise (·.1 < ·.1)
  closed : ∀ x ∈ t.entries, x.2.isExpanded = true → x.2.definition.Closed

instance (t : MacroTable) : Decidable t.WellFormed :=
  decidable_of_iff (t.entries.Pairwise (·.1 < ·.1) ∧
      ∀ x ∈ t.entries, x.2.isExpanded = true → x.2.definition.Closed)
    ⟨fun h => ⟨h.1, h.2⟩, fun h => ⟨h.ascending, h.closed⟩⟩

/-- Whether the definition of `name` has been expanded. -/
def isExpanded (t : MacroTable) (name : String) : Bool := (t.entry? name).any (·.isExpanded)

/-- The table with new entries under the old names. -/
def edit (t : MacroTable) (g : String → MacroEntry → MacroEntry) : MacroTable :=
  ⟨t.entries.map fun (n, e) => (n, g n e)⟩

theorem entry_edit (t : MacroTable) (g : String → MacroEntry → MacroEntry) (name : String) :
    entry? (t.edit g) name = (t.entry? name).map (g name) :=
  lookup_map g t.entries name

theorem names_edit (t : MacroTable) (g : String → MacroEntry → MacroEntry) :
    (t.edit g).names = t.names := by
  unfold names
  rw [edit, List.map_map]
  rfl

theorem update_eq_edit (t : MacroTable) (n : String) (f : MacroEntry → MacroEntry) :
    t.update n f = t.edit fun m e => if m = n then f e else e := rfl

theorem markAll_eq_edit (t : MacroTable) (names : List String) :
    t.markAll names = t.edit fun n e => { e with isUsed := e.isUsed || names.contains n } := by
  unfold markAll edit
  simp only [Std.TreeSet.contains_ofList]

theorem WellFormed.entry_eq_some_iff (ht : t.WellFormed) {e : MacroEntry} :
    t.entry? name = some e ↔ (name, e) ∈ t.entries :=
  lookup_eq_some_iff ht.ascending

theorem WellFormed.edit (ht : t.WellFormed) {g : String → MacroEntry → MacroEntry}
    (hg : ∀ n e, t.entry? n = some e → (g n e).isExpanded = true → (g n e).definition.Closed) :
    (t.edit g).WellFormed where
  ascending := by
    unfold MacroTable.edit
    rw [List.pairwise_map]
    exact ht.ascending
  closed x hx := by
    obtain ⟨⟨n, e⟩, he, rfl⟩ := List.mem_map.1 hx
    exact hg n e (ht.entry_eq_some_iff.2 he)

theorem WellFormed.closed_of_entry (ht : t.WellFormed) {e : MacroEntry}
    (he : t.entry? name = some e) (h : e.isExpanded = true) : e.definition.Closed :=
  ht.closed (name, e) (ht.entry_eq_some_iff.1 he) h

theorem wellFormed_empty : empty.WellFormed := ⟨List.Pairwise.nil, by simp [empty]⟩

theorem WellFormed.markUsed (ht : t.WellFormed) (name : String) :
    (t.markUsed name).WellFormed := by
  unfold MacroTable.markUsed
  rw [update_eq_edit]
  apply ht.edit
  intro n e he h
  by_cases hn : n = name
  · rw [if_pos hn] at h ⊢
    exact ht.closed_of_entry (e := e) he h
  · rw [if_neg hn] at h ⊢
    exact ht.closed_of_entry he h

/-- Definitions may be added and replaced at any time. -/
theorem WellFormed.define (ht : t.WellFormed) (name : String) (r : Regex) :
    (t.define name r).WellFormed where
  ascending := ascending_upsert ht.ascending name _
  closed x hx hexp := by
    rcases mem_upsert hx with ⟨_, rfl⟩ | hx
    · cases hexp
    · exact ht.closed x hx hexp

/-! ## Refinement -/

/-- The same names; a definition may have given way to what it resolves to, and marks may have been
added. -/
structure Refines (t t' : MacroTable) : Prop where
  names : t'.names = t.names
  definition : ∀ {name d'}, t'.definition? name = some d' → ∃ d, t.definition? name = some d ∧
    (d' = d ∨ t.Grounded d ∧ d' = t.resolve d)
  used : ∀ {name}, t.isUsed name = true → t'.isUsed name = true
  expanded : ∀ {name}, t.isExpanded name = true → t'.isExpanded name = true

theorem Refines.refl (t : MacroTable) : t.Refines t := ⟨rfl, fun h => ⟨_, h, .inl rfl⟩, id, id⟩

theorem definition?_isSome_iff : (t.definition? name).isSome = true ↔ name ∈ t.names := by
  constructor
  · intro h
    obtain ⟨d, hd⟩ := Option.isSome_iff_exists.1 h
    exact mem_names_of_definition? hd
  · intro h
    obtain ⟨x, hx, rfl⟩ := List.mem_map.1 h
    by_contra hnone
    rw [definition?, Option.isSome_map, entry?, Bool.not_eq_true, Option.isSome_eq_false_iff,
      Option.isNone_iff_eq_none, List.lookup_eq_none_iff] at hnone
    have := hnone x hx
    simp at this

theorem Refines.exists_definition (h : t.Refines t') {d : Regex}
    (hd : t.definition? name = some d) : ∃ d', t'.definition? name = some d' ∧
      (d' = d ∨ t.Grounded d ∧ d' = t.resolve d) := by
  have hsome : (t'.definition? name).isSome = true := by
    rw [definition?_isSome_iff, h.names]
    exact mem_names_of_definition? hd
  obtain ⟨d', hd'⟩ := Option.isSome_iff_exists.1 hsome
  obtain ⟨e, he, hor⟩ := h.definition hd'
  rw [hd, Option.some.injEq] at he
  subst he
  exact ⟨d', hd', hor⟩

/-- Every definition is still there, or what it resolves to in its place. -/
def Preserves (t t' : MacroTable) : Prop :=
  ∀ ⦃name d⦄, t.definition? name = some d → ∃ d', t'.definition? name = some d' ∧
    (d' = d ∨ t.Grounded d ∧ d' = t.resolve d)

theorem Refines.preserves (h : t.Refines t') : t.Preserves t' :=
  fun _ _ hd => h.exists_definition hd

theorem Preserves.grounded (h : t.Preserves t') (hr : t.Grounded r) : t'.Grounded r := by
  induction hr with
  | intro hdef _ ih =>
    constructor
    · intro name hn
      obtain ⟨d, hd⟩ := Option.isSome_iff_exists.1 (hdef name hn)
      obtain ⟨d', hd', -⟩ := h hd
      exact Option.isSome_iff_exists.2 ⟨d', hd'⟩
    · intro name hn d' hd'
      obtain ⟨d, hd⟩ := Option.isSome_iff_exists.1 (hdef name hn)
      obtain ⟨d'', hd'', hor⟩ := h hd
      obtain rfl := Option.some.inj (hd'.symm.trans hd'')
      rcases hor with rfl | ⟨hg, rfl⟩
      · exact ih name hn d' hd
      · exact .of_closed hg.closed_resolve

/-- An expression stands for the same over both tables. -/
theorem Preserves.resolve_eq (h : t.Preserves t') (hr : t.Grounded r) :
    t'.resolve r = t.resolve r := by
  induction hr with
  | @intro r hdef hground ih =>
    have hr : t.Grounded r := ⟨hdef, hground⟩
    rw [hr.resolve_eq, (h.grounded hr).resolve_eq]
    apply Regex.compositional_subst.isLocal
    intro name hn
    obtain ⟨d, hd⟩ := Option.isSome_iff_exists.1 (hdef name hn)
    obtain ⟨d', hd', hor⟩ := h hd
    rw [hd, hd', Option.getD_some, Option.getD_some]
    rcases hor with rfl | ⟨hg, rfl⟩
    · exact ih name hn d' hd
    · exact resolve_of_closed hg.closed_resolve

theorem Refines.grounded (h : t.Refines t') (hr : t.Grounded r) : t'.Grounded r :=
  h.preserves.grounded hr

theorem Refines.grounded_of (h : t.Refines t') (hr : t'.Grounded r) : t.Grounded r := by
  induction hr with
  | intro hdef _ ih =>
    constructor
    · intro name hn
      obtain ⟨d', hd'⟩ := Option.isSome_iff_exists.1 (hdef name hn)
      obtain ⟨d, hd, -⟩ := h.definition hd'
      exact Option.isSome_iff_exists.2 ⟨d, hd⟩
    · intro name hn d hd
      obtain ⟨d', hd', hor⟩ := h.exists_definition hd
      rcases hor with rfl | ⟨hg, -⟩
      · exact ih name hn d' hd'
      · exact hg

theorem Refines.resolve_eq (h : t.Refines t') (hr : t.Grounded r) :
    t'.resolve r = t.resolve r := h.preserves.resolve_eq hr

theorem Refines.trans (h : t.Refines t') (h' : t'.Refines t'') : t.Refines t'' where
  names := h'.names.trans h.names
  definition {name d''} hd'' := by
    obtain ⟨d', hd', hor'⟩ := h'.definition hd''
    obtain ⟨d, hd, hor⟩ := h.definition hd'
    refine ⟨d, hd, ?_⟩
    rcases hor with rfl | ⟨hg, rfl⟩
    · apply hor'.imp_right
      intro ⟨hg', heq⟩
      have hg := h.grounded_of hg'
      exact ⟨hg, heq.trans (h.resolve_eq hg)⟩
    · -- what has been resolved stays as it is
      refine .inr ⟨hg, ?_⟩
      rcases hor' with rfl | ⟨-, rfl⟩
      · rfl
      · exact resolve_of_closed hg.closed_resolve
  used hn := h'.used (h.used hn)
  expanded hn := h'.expanded (h.expanded hn)

theorem definition?_eq_some_iff {d : Regex} :
    t.definition? name = some d ↔ ∃ e, t.entry? name = some e ∧ e.definition = d := by
  unfold definition?
  rw [Option.map_eq_some_iff]

theorem isUsed_eq_any (t : MacroTable) (name : String) :
    t.isUsed name = (t.entry? name).any (·.isUsed) := by
  unfold isUsed
  cases t.entry? name <;> rfl

theorem refines_edit {g : String → MacroEntry → MacroEntry}
    (h : ∀ n e, t.entry? n = some e →
      ((g n e).definition = e.definition ∨
        t.Grounded e.definition ∧ (g n e).definition = t.resolve e.definition) ∧
      (e.isUsed = true → (g n e).isUsed = true) ∧
      (e.isExpanded = true → (g n e).isExpanded = true)) :
    t.Refines (t.edit g) where
  names := names_edit t g
  definition {name d'} hd' := by
    obtain ⟨e', he', rfl⟩ := definition?_eq_some_iff.1 hd'
    rw [entry_edit] at he'
    obtain ⟨e, he, rfl⟩ := Option.map_eq_some_iff.1 he'
    exact ⟨_, definition?_eq_some_iff.2 ⟨e, he, rfl⟩, (h name e he).1⟩
  used {name} hu := by
    rw [isUsed_eq_any, Option.any_eq_true] at hu
    obtain ⟨e, he, hu⟩ := hu
    rw [isUsed_eq_any, entry_edit, he]
    exact (h name e he).2.1 hu
  expanded {name} hx := by
    unfold isExpanded at hx
    rw [Option.any_eq_true] at hx
    obtain ⟨e, he, hx⟩ := hx
    unfold isExpanded
    rw [entry_edit, he]
    exact (h name e he).2.2 hx

/-! ## Marks -/

theorem refines_markUsed (t : MacroTable) (name : String) : t.Refines (t.markUsed name) := by
  unfold MacroTable.markUsed
  rw [update_eq_edit]
  apply refines_edit
  intro n e _
  split
  · exact ⟨.inl rfl, fun _ => rfl, id⟩
  · exact ⟨.inl rfl, id, id⟩

theorem isUsed_markUsed (h : t.contains name = true) : (t.markUsed name).isUsed name = true := by
  obtain ⟨e, he⟩ := Option.isSome_iff_exists.1 h
  rw [isUsed_eq_any, MacroTable.markUsed, update_eq_edit, entry_edit, he, Option.map_some,
    if_pos rfl]
  rfl

/-- A table to which only marks have been added, and those of `names` among them. -/
structure Marks (t t' : MacroTable) (names : List String) : Prop where
  refines : t.Refines t'
  wellFormed : t.WellFormed → t'.WellFormed
  used : ∀ name ∈ names, t'.isUsed name = true

theorem Marks.refl (t : MacroTable) : t.Marks t [] := ⟨.refl t, id, by simp⟩

theorem Marks.trans {names names' : List String} (h : t.Marks t' names)
    (h' : t'.Marks t'' names') : t.Marks t'' (names ++ names') where
  refines := h.refines.trans h'.refines
  wellFormed ht := h'.wellFormed (h.wellFormed ht)
  used name hn := by
    rcases List.mem_append.1 hn with hn | hn
    · exact h'.refines.used (h.used name hn)
    · exact h'.used name hn

/-- Everything that the expression uses is marked, or the first name without an entry reported. -/
theorem markUses_ensures (r : Regex) (referrer : String) (t : MacroTable) :
    Ensures (markUses r referrer) t (fun _ t' => t.Marks t' r.macroUses)
      (fun e t' => e.OfMacros ∧ ∃ done, t.Marks t' done) := by
  refine ensures_forM (I := fun done t' => t.Marks t' done) (.refl t) ?_
  intro done name _ t' hmarks
  refine ensures_bind (ensures_get ?_)
  split
  · next hc =>
    refine ensures_set (hmarks.trans ⟨refines_markUsed t' name, fun ht => ht.markUsed name, ?_⟩)
    simpa using isUsed_markUsed hc
  · exact ensures_throw ⟨.undefined _ _, done, hmarks⟩

end MacroTable

end ScannerGen
