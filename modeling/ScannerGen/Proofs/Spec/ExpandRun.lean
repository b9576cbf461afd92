import ScannerGen.Proofs.Spec.Expansion
import ScannerGen.Proofs.Spec.UseGraph

/-
  What a run of the expansion comes to. The expansion of one macro is the same at any time of the
  run (`Refines.expansion_eq`): what was rewritten meanwhile stood for the same before. So the table
  depends only on the set of macros that have been expanded (`after`), and the run expands all that
  are in use, or all before the first one that cannot be expanded (`expandRounds_of_grounded`,
  `expandRounds_of_blamed`).
-/

namespace ScannerGen

open Relation

namespace Regex

theorem substM_congr {m : Type → Type} [Monad m] {f g : String → m Regex} {r : Regex}
    (h : ∀ n ∈ r.macroUses, f n = g n) : r.substM f = r.substM g := by
  induction r with
  | alt r s hr hs | cat r s hr hs =>
    simp only [macroUses_alt, macroUses_cat, List.mem_append] at h
    rw [substM, substM, hr fun n hn => h n (.inl hn), hs fun n hn => h n (.inr hn)]
  | star r hr | plus r hr | opt r hr | compl r hr | upTo r hr => rw [substM, substM, hr h]
  | leaf l =>
    cases l with
    | use name => exact h name (List.mem_singleton_self name)
    | _ => rfl

/-- Where all effects succeed, only the substitution is left. -/
theorem substM_eq_subst {ε : Type} {f : String → Except ε Regex} {g : String → Regex} {r : Regex}
    (h : ∀ n ∈ r.macroUses, f n = .ok (g n)) : r.substM f = .ok (r.subst g) := by
  have hsome : ∀ s : Regex, s.substM (fun n => (.ok (g n) : Except ε Regex)) = .ok (s.subst g) := by
    intro s
    induction s with
    | alt r s hr hs | cat r s hr hs =>
      simp only [substM, hr, hs]
      rfl
    | star r hr | plus r hr | opt r hr | compl r hr | upTo r hr =>
      rw [substM, hr]
      rfl
    | leaf l => cases l <;> rfl
  rw [substM_congr h, hsome]

end Regex

namespace MacroTable

variable {t t' : MacroTable} {r d : Regex} {m n name current : String} {outer : List String}
  {depth : Nat}

/-! ## The expansion of one macro -/

/-- The macros whose definitions are being expanded, `current` inside of all the others. -/
structure Trail (t : MacroTable) (current : String) (outer : List String) : Prop where
  nodup : (current :: outer).Nodup
  defined : ∀ n ∈ current :: outer, n ∈ t.names
  leads : ∀ n ∈ outer, TransGen t.Uses n current

theorem Trail.single (h : name ∈ t.names) : t.Trail name [] :=
  ⟨by simp, by simpa using h, by simp⟩

theorem Trail.push (h : t.Trail current outer) (hu : t.Uses current n) (hn : n ∈ t.names)
    (hnew : n ∉ current :: outer) : t.Trail n (current :: outer) where
  nodup := List.nodup_cons.2 ⟨hnew, h.nodup⟩
  defined := List.forall_mem_cons.2 ⟨hn, h.defined⟩
  leads := List.forall_mem_cons.2 ⟨.single hu, fun m hm => (h.leads m hm).tail hu⟩

/-- Different macros of the table are no more than it has entries. -/
theorem Trail.length_lt (h : t.Trail current outer) : outer.length < t.size := by
  have hle := (h.nodup.subperm h.defined).length_le
  rwa [List.length_cons, names, List.length_map] at hle

/-- To come back to a macro on the way closes a cycle. -/
theorem Trail.closes (h : t.Trail current outer) (hu : t.Uses current n)
    (hmem : n ∈ current :: outer) : TransGen t.Uses n n := by
  rcases List.mem_cons.1 hmem with rfl | hmem
  · exact .single hu
  · exact (h.leads n hmem).tail hu

/-- What a grounded macro on the way uses is not on the way. -/
theorem Trail.fresh (h : t.Trail current outer) (hu : t.Uses current n)
    (hn : t.Grounded (.use n)) : n ∉ current :: outer :=
  fun hmem => hn.sound.2 (h.closes hu hmem)

theorem expandWithin_of_closed (h : r.Closed) :
    t.expandWithin depth current outer r = .ok r := by
  cases depth with
  | zero => rfl
  | succ depth =>
    unfold Regex.Closed at h
    have hsubst : r.substM (t.enter depth current outer) = .ok (r.subst .use) :=
      Regex.substM_eq_subst (by simp [h])
    rw [expandWithin_succ, hsubst, Regex.subst_of_closed h]

/-- What is grounded can be expanded. -/
theorem Trail.expandWithin_eq_ok (h : t.Trail current outer)
    (hr : ∀ n ∈ r.macroUses, t.Uses current n) (hg : t.Grounded r)
    (hdepth : t.size ≤ depth + outer.length) :
    t.expandWithin depth current outer r = .ok (t.resolve r) := by
  induction depth generalizing current outer r with
  | zero =>
    have := h.length_lt
    omega
  | succ depth ih =>
    rw [expandWithin_succ, hg.resolve_eq]
    apply Regex.substM_eq_subst
    intro n hn
    have hnew := h.fresh (hr n hn) (hg.use hn)
    obtain ⟨d, hd, hgd⟩ := hg.exists_definition hn
    rw [enter_of_some hnew hd, hd]
    refine ih (h.push (hr n hn) (mem_names_of_definition? hd) hnew) (fun m hm => ⟨d, hd, hm⟩) hgd ?_
    rw [List.length_cons]
    omega

theorem Refines.definition?_eq_none (h : t.Refines t') (hd : t.definition? n = none) :
    t'.definition? n = none := by
  by_contra hnot
  obtain ⟨d', hd'⟩ := Option.ne_none_iff_exists'.1 hnot
  obtain ⟨d, hd'', -⟩ := h.definition hd'
  rw [hd] at hd''
  cases hd''

/-- Rewriting definitions changes nothing on the way, nor does room for more of them. -/
theorem Trail.expandWithin_congr (h : t.Trail current outer) (href : t.Refines t')
    (hr : ∀ n ∈ r.macroUses, t.Uses current n) {depth' : Nat}
    (hdepth : t.size ≤ depth + outer.length) (hdepth' : t.size ≤ depth' + outer.length) :
    t'.expandWithin depth' current outer r = t.expandWithin depth current outer r := by
  induction depth generalizing current outer r depth' with
  | zero =>
    have := h.length_lt
    omega
  | succ depth ih =>
    have hlt := h.length_lt
    obtain ⟨depth', rfl⟩ : ∃ k, depth' = k + 1 := ⟨depth' - 1, by omega⟩
    rw [expandWithin_succ, expandWithin_succ]
    apply Regex.substM_congr
    intro n hn
    by_cases hmem : n ∈ current :: outer
    · rw [enter_of_mem hmem, enter_of_mem hmem]
    · cases hd : t.definition? n with
      | none => rw [enter_of_none hmem hd, enter_of_none hmem (href.definition?_eq_none hd)]
      | some d =>
        have htrail := h.push (hr n hn) (mem_names_of_definition? hd) hmem
        have hlen : t.size ≤ depth + (current :: outer).length := by
          rw [List.length_cons]
          omega
        have hlen' : t.size ≤ depth' + (current :: outer).length := by
          rw [List.length_cons]
          omega
        have hd_uses : ∀ m ∈ d.macroUses, t.Uses n m := fun m hm => ⟨d, hd, hm⟩
        obtain ⟨d', hd', hor⟩ := href.exists_definition hd
        rw [enter_of_some hmem hd, enter_of_some hmem hd']
        rcases hor with rfl | ⟨hg, rfl⟩
        · exact ih htrail hd_uses hlen hlen'
        · rw [expandWithin_of_closed hg.closed_resolve, htrail.expandWithin_eq_ok hd_uses hg hlen]

/-- What comes of a macro when it is expanded. -/
def expansion (t : MacroTable) (name : String) : Except GenerateError Regex :=
  match t.definition? name with
  | none => .error (.macroUndefined name name)
  | some d => t.expandWithin t.size name [] d

theorem expansion_eq (hd : t.definition? name = some d) :
    t.expansion name = t.expandWithin t.size name [] d := by
  unfold expansion
  rw [hd]

theorem expansion_of_grounded (hd : t.definition? name = some d) (hg : t.Grounded d) :
    t.expansion name = .ok (t.resolve d) := by
  rw [expansion_eq hd]
  exact (Trail.single (mem_names_of_definition? hd)).expandWithin_eq_ok
    (fun n hn => ⟨d, hd, hn⟩) hg (Nat.le_refl _)

/-- Only what is grounded can be expanded. -/
theorem exists_expansion_iff :
    (∃ r, t.expansion name = .ok r) ↔ t.Grounded (.use name) := by
  constructor
  · rintro ⟨r, hr⟩
    cases hd : t.definition? name with
    | none =>
      unfold expansion at hr
      rw [hd] at hr
      cases hr
    | some d =>
      rw [expansion_eq hd] at hr
      exact (grounded_use_iff hd).2 (expandWithin_eq_ok hr (by simp)
        (by simpa using mem_names_of_definition? hd) (by simp)).1
  · intro h
    obtain ⟨d, hd, hg⟩ := h.defined
    exact ⟨_, expansion_of_grounded hd hg⟩

theorem exists_expansion_error (h : ¬t.Grounded (.use name)) :
    ∃ e, t.expansion name = .error e := by
  cases hx : t.expansion name with
  | ok r => exact absurd (exists_expansion_iff.1 ⟨r, hx⟩) h
  | error e => exact ⟨e, rfl⟩

theorem Refines.size_eq (h : t.Refines t') : t'.size = t.size := by
  have hlen := congrArg List.length h.names
  unfold MacroTable.names at hlen
  rwa [List.length_map, List.length_map] at hlen

theorem Refines.grounded_use_iff (h : t.Refines t') :
    t'.Grounded (.use n) ↔ t.Grounded (.use n) := ⟨h.grounded_of, h.grounded⟩

/-- A macro comes to the same when it is expanded later. -/
theorem Refines.expansion_eq (h : t.Refines t') (name : String) :
    t'.expansion name = t.expansion name := by
  cases hd : t.definition? name with
  | none =>
    unfold expansion
    rw [hd, h.definition?_eq_none hd]
  | some d =>
    obtain ⟨d', hd', hor⟩ := h.exists_definition hd
    rcases hor with rfl | ⟨hg, rfl⟩
    · rw [MacroTable.expansion_eq hd, MacroTable.expansion_eq hd', h.size_eq]
      exact (Trail.single (mem_names_of_definition? hd)).expandWithin_congr h
        (fun n hn => ⟨_, hd, hn⟩) (Nat.le_refl _) (Nat.le_refl _)
    · rw [expansion_of_grounded hd hg, expansion_of_grounded hd' (.of_closed hg.closed_resolve),
        resolve_of_closed hg.closed_resolve]

/-! ## The table after some macros have been expanded -/

theorem edit_edit (t : MacroTable) (g h : String → MacroEntry → MacroEntry) :
    (t.edit g).edit h = t.edit fun n e => h n (g n e) := by
  unfold edit
  rw [List.map_map]
  rfl

theorem WellFormed.edit_congr (ht : t.WellFormed) {g h : String → MacroEntry → MacroEntry}
    (hgh : ∀ n e, t.entry? n = some e → g n e = h n e) : t.edit g = t.edit h := by
  unfold MacroTable.edit
  congr 1
  apply List.map_congr_left
  intro ⟨n, e⟩ hne
  show (n, g n e) = (n, h n e)
  rw [hgh n e (ht.entry_eq_some_iff.2 hne)]

open Classical in
/-- The table after the macros of `S` have been expanded, and what they lead to marked. -/
noncomputable def after (t : MacroTable) (S : Set String) : MacroTable :=
  t.edit fun n e =>
    { definition := if n ∈ S then t.resolve e.definition else e.definition
      isUsed := e.isUsed || decide (∃ s ∈ S, TransGen t.Uses s n)
      isExpanded := e.isExpanded || decide (n ∈ S) }

variable {S : Set String}

/-- Only macros that can be expanded are. -/
def AllGrounded (t : MacroTable) (S : Set String) : Prop := ∀ s ∈ S, t.Grounded (.use s)

theorem AllGrounded.insert (hS : t.AllGrounded S) (hn : t.Grounded (.use n)) :
    t.AllGrounded (insert n S) := by
  rintro s (rfl | hs)
  · exact hn
  · exact hS s hs

/-- An edit that leaves every entry as it is. -/
theorem WellFormed.edit_eq_self (ht : t.WellFormed) {g : String → MacroEntry → MacroEntry}
    (hg : ∀ n e, t.entry? n = some e → g n e = e) : t.edit g = t := by
  rw [ht.edit_congr hg]
  unfold MacroTable.edit
  rw [List.map_id']

theorem WellFormed.after_empty (ht : t.WellFormed) : t.after ∅ = t :=
  ht.edit_eq_self fun n e _ => by simp

theorem refines_after (hS : t.AllGrounded S) : t.Refines (t.after S) := by
  refine refines_edit fun n e he => ⟨?_, fun hu => ?_, fun hx => ?_⟩
  · by_cases hn : n ∈ S
    · refine .inr ⟨?_, by rw [if_pos hn]⟩
      exact (grounded_use_iff (definition?_eq_some_iff.2 ⟨e, he, rfl⟩)).1 (hS n hn)
    · exact .inl (by rw [if_neg hn])
  · simp [hu]
  · simp [hx]

theorem definition?_after :
    (t.after S).definition? n = (t.definition? n).map fun d => by
      classical exact if n ∈ S then t.resolve d else d := by
  unfold definition? after
  rw [entry_edit, Option.map_map, Option.map_map]
  rfl

theorem isUsed_after_iff : (t.after S).isUsed n = true ↔
    t.isUsed n = true ∨ n ∈ t.names ∧ ∃ s ∈ S, TransGen t.Uses s n := by
  rw [isUsed_eq_any, after, entry_edit, isUsed_eq_any, ← definition?_isSome_iff, definition?]
  cases t.entry? n with
  | none => simp
  | some e => simp

theorem isExpanded_after_iff : (t.after S).isExpanded n = true ↔
    t.isExpanded n = true ∨ n ∈ t.names ∧ n ∈ S := by
  rw [isExpanded, after, entry_edit, isExpanded, ← definition?_isSome_iff, definition?]
  cases t.entry? n with
  | none => simp
  | some e => simp

theorem WellFormed.after (ht : t.WellFormed) (hS : t.AllGrounded S) : (t.after S).WellFormed := by
  refine ht.edit fun n e he hx => ?_
  by_cases hn : n ∈ S
  · rw [if_pos hn]
    exact ((grounded_use_iff (definition?_eq_some_iff.2 ⟨e, he, rfl⟩)).1 (hS n hn)).closed_resolve
  · rw [if_neg hn]
    simp only [hn, decide_false, Bool.or_false] at hx
    exact ht.closed_of_entry (e := e) he hx

theorem uses_after (hS : t.AllGrounded S) : (t.after S).Uses m n ↔ m ∉ S ∧ t.Uses m n := by
  unfold Uses
  rw [definition?_after]
  cases hd : t.definition? m with
  | none => simp
  | some d =>
    by_cases hm : m ∈ S
    · -- nothing is used any more
      have hclosed := ((grounded_use_iff hd).1 (hS m hm)).closed_resolve
      unfold Regex.Closed at hclosed
      simp [hm, hclosed]
    · simp [hm]

/-- The ways that the expansions cut off start at the macros that were expanded. -/
theorem transGen_after (hS : t.AllGrounded S) :
    (∃ s ∈ S, TransGen t.Uses s n) ∨ TransGen (t.after S).Uses m n ↔
      (∃ s ∈ S, TransGen t.Uses s n) ∨ TransGen t.Uses m n := by
  constructor
  · exact fun h => h.imp_right (TransGen.mono (fun _ _ hu => ((uses_after hS).1 hu).2) m n)
  · rintro (h | h)
    · exact .inl h
    · induction h with
      | single hu =>
        by_cases hm : m ∈ S
        · exact .inl ⟨m, hm, .single hu⟩
        · exact .inr (.single ((uses_after hS).2 ⟨hm, hu⟩))
      | @tail b n _ hu ih =>
        by_cases hb : b ∈ S
        · exact .inl ⟨b, hb, .single hu⟩
        · rcases ih with ⟨s, hs, h⟩ | h
          · exact .inl ⟨s, hs, h.tail hu⟩
          · exact .inr (h.tail ((uses_after hS).2 ⟨hb, hu⟩))

theorem transGen_iff_exists (hd : t.definition? m = some d) :
    TransGen t.Uses m n ↔ ∃ k ∈ d.macroUses, ReflTransGen t.Uses k n := by
  rw [TransGen.head'_iff]
  exact exists_congr fun k => and_congr_left' (uses_iff hd)

/-! ## Runs -/

open Classical in
theorem WellFormed.markAll_update_after (ht : t.WellFormed) (hd : t.definition? name = some d)
    {marks : List String} (hmarks : ∀ n, (∃ s ∈ S, TransGen t.Uses s n) ∨ n ∈ marks ↔
      ∃ s ∈ insert name S, TransGen t.Uses s n) :
    ((t.after S).update name ({ · with definition := t.resolve d, isExpanded := true })).markAll
      marks = t.after (insert name S) := by
  rw [update_eq_edit, markAll_eq_edit, edit_edit]
  unfold MacroTable.after
  rw [edit_edit]
  refine ht.edit_congr fun n e he => ?_
  have hused : ((e.isUsed || decide (∃ s ∈ S, TransGen t.Uses s n)) || marks.contains n) =
      (e.isUsed || decide (∃ s ∈ insert name S, TransGen t.Uses s n)) := by
    rw [Bool.or_assoc, List.contains_eq_mem, ← Bool.decide_or]
    simp only [hmarks]
  by_cases hn : n = name
  · subst hn
    rw [definition?, he] at hd
    obtain rfl := Option.some.inj hd
    rw [if_pos rfl, hused]
    simp
  · rw [if_neg hn, hused]
    simp [hn]

/-- One step: the definition is resolved, and what it leads to is marked. -/
theorem expandEntry_eq_ok (ht : t.WellFormed) (hS : t.AllGrounded S)
    (hname : t.Grounded (.use name)) :
    expandEntry name (t.after S) = .ok () (t.after (insert name S)) := by
  obtain ⟨d, hd, hg⟩ := hname.defined
  have href := refines_after hS
  obtain ⟨d', hd', -⟩ := href.exists_definition hd
  have hg' := (grounded_use_iff hd').1 (href.grounded hname)
  have hexp : (t.after S).expandWithin (t.after S).size name [] d' = .ok (t.resolve d) := by
    rw [← expansion_eq hd', href.expansion_eq, expansion_of_grounded hd hg]
  have hrun : expandEntry name (t.after S) = .ok () (((t.after S).update name
      ({ · with definition := t.resolve d, isExpanded := true })).markAll
        ((t.after S).usesWithin (t.after S).size d')) := by
    unfold expandEntry
    rw [run_get_bind, hd']
    simp only [hexp]
    rfl
  rw [hrun, ht.markAll_update_after hd]
  intro n
  rw [hg'.mem_usesWithin_iff, ← transGen_iff_exists hd', transGen_after hS]
  simp [or_comm]

theorem expandEntry_eq_error {e : GenerateError} (hS : t.AllGrounded S)
    (hd : (t.definition? name).isSome) (he : t.expansion name = .error e) :
    expandEntry name (t.after S) = .error e (t.after S) := by
  obtain ⟨d, hd⟩ := Option.isSome_iff_exists.1 hd
  have href := refines_after hS
  obtain ⟨d', hd', -⟩ := href.exists_definition hd
  have hexp : (t.after S).expandWithin (t.after S).size name [] d' = .error e := by
    rw [← expansion_eq hd', href.expansion_eq, he]
  unfold expandEntry
  rw [run_get_bind, hd']
  simp only [hexp]
  rfl

theorem expandAll_eq_ok (ht : t.WellFormed) {names : List String} (hS : t.AllGrounded S)
    (hnames : ∀ n ∈ names, t.Grounded (.use n)) :
    names.forM expandEntry (t.after S) = .ok () (t.after (S ∪ {n | n ∈ names})) := by
  induction names generalizing S with
  | nil =>
    simp only [List.not_mem_nil, Set.ofPred_false, Set.union_empty]
    rfl
  | cons name names ih =>
    obtain ⟨hname, hnames⟩ := List.forall_mem_cons.1 hnames
    have hset : insert name S ∪ {n | n ∈ names} = S ∪ {n | n ∈ name :: names} := by
      ext n
      simp only [Set.mem_union, Set.mem_insert_iff, Set.mem_ofPred_eq, List.mem_cons]
      exact or_right_comm.trans or_comm
    rw [List.forM_eq_forM, List.forM_cons, run_bind_ok (expandEntry_eq_ok ht hS hname), ← hset]
    exact ih (hS.insert hname) hnames

/-- The first macro that cannot be expanded ends the run. -/
theorem expandAll_eq_error (ht : t.WellFormed) {pre post : List String} {e : GenerateError}
    (hpre : ∀ n ∈ pre, t.Grounded (.use n)) (hd : (t.definition? name).isSome)
    (he : t.expansion name = .error e) :
    (pre ++ name :: post).forM expandEntry t = .error e (t.after {n | n ∈ pre}) := by
  have hrun := expandAll_eq_ok (S := ∅) ht (by simp [AllGrounded]) hpre
  rw [ht.after_empty, Set.empty_union, List.forM_eq_forM] at hrun
  rw [List.forM_eq_forM, List.forM_append, run_bind_ok hrun, List.forM_cons]
  exact run_bind_error (expandEntry_eq_error hpre hd he)

theorem WellFormed.expanded_or_pending (ht : t.WellFormed) (hu : t.isUsed n = true) :
    t.isExpanded n = true ∨ n ∈ t.pending := by
  cases hx : t.isExpanded n with
  | true => exact .inl rfl
  | false => exact .inr ((mem_pending ht).2 ⟨hu, hx⟩)

theorem WellFormed.exists_closed (ht : t.WellFormed) (hx : t.isExpanded n = true) :
    ∃ d, t.definition? n = some d ∧ d.Closed := by
  obtain ⟨e, he, hx⟩ := (Option.any_eq_true ..).1 hx
  exact ⟨e.definition, definition?_eq_some_iff.2 ⟨e, he, rfl⟩, ht.closed_of_entry he hx⟩

theorem WellFormed.grounded_of_expanded (ht : t.WellFormed) (hx : t.isExpanded n = true) :
    t.Grounded (.use n) := by
  obtain ⟨d, hd, hclosed⟩ := ht.exists_closed hx
  exact (grounded_use_iff hd).2 (.of_closed hclosed)

theorem WellFormed.no_uses (ht : t.WellFormed) (hx : t.isExpanded m = true) :
    ¬TransGen t.Uses m n := by
  obtain ⟨d, hd, hclosed⟩ := ht.exists_closed hx
  unfold Regex.Closed at hclosed
  rw [transGen_iff_exists hd, hclosed]
  simp

open Classical in
/-- To expand again what is expanded changes nothing. -/
theorem WellFormed.after_eq (ht : t.WellFormed) {S' : Set String} (hsub : S ⊆ S')
    (hdone : ∀ n ∈ S', t.isExpanded n = true ∨ n ∈ S) : t.after S' = t.after S := by
  refine ht.edit_congr fun n e he => ?_
  have hreach : (∃ s ∈ S', TransGen t.Uses s n) ↔ ∃ s ∈ S, TransGen t.Uses s n := by
    constructor
    · intro ⟨s, hs, h⟩
      exact ⟨s, (hdone s hs).resolve_left fun hx => ht.no_uses hx h, h⟩
    · intro ⟨s, hs, h⟩
      exact ⟨s, hsub hs, h⟩
  have hused : decide (∃ s ∈ S', TransGen t.Uses s n) = decide (∃ s ∈ S, TransGen t.Uses s n) := by
    simp only [hreach]
  rw [hused]
  by_cases hn : n ∈ S
  · simp [hn, hsub hn]
  · by_cases hn' : n ∈ S'
    · have hx := (hdone n hn').resolve_right hn
      rw [isExpanded, he] at hx
      have hclosed := ht.closed_of_entry he hx
      rw [Option.any_some] at hx
      simp [hn, hn', hx, resolve_of_closed hclosed]
    · simp [hn, hn']

/-- Where nothing is pending, all that is in use has been expanded. -/
theorem WellFormed.after_inUse (ht : t.WellFormed) (hS : t.AllGrounded S)
    (hin : ∀ s ∈ S, t.InUse s) (hpending : (t.after S).pending = []) :
    t.after {n | t.InUse n} = t.after S := by
  have hdone : ∀ n, (t.after S).isUsed n = true → t.isExpanded n = true ∨ n ∈ S := by
    intro n hu
    by_contra hnot
    have hmem : n ∈ (t.after S).pending := by
      rw [mem_pending (ht.after hS), Bool.eq_false_iff, ne_eq, isExpanded_after_iff]
      tauto
    rw [hpending] at hmem
    exact absurd hmem List.not_mem_nil
  refine ht.after_eq hin fun n ⟨u, hu, hr⟩ => ?_
  rcases reflTransGen_iff_eq_or_transGen.1 hr with rfl | h
  · exact hdone n (isUsed_after_iff.2 (.inl hu))
  · rcases hdone u (isUsed_after_iff.2 (.inl hu)) with hx | hu
    · exact absurd h (ht.no_uses hx)
    · have hn := mem_names_of_sound ((hS u hu).of_reach hr).sound
      exact hdone n (isUsed_after_iff.2 (.inr ⟨hn, u, hu, h⟩))

theorem expandRounds_of_nil (h : t.pending = []) (rounds : Nat) :
    expandRounds rounds t = .ok () t := by
  cases rounds with
  | zero => rfl
  | succ rounds =>
    unfold expandRounds
    rw [run_get_bind, if_pos (List.isEmpty_iff.2 h)]
    rfl

/-- In as many rounds as there are macros left to expand, all that are in use are expanded. -/
theorem expandRounds_eq_ok (ht : t.WellFormed) (hall : ∀ n, t.InUse n → t.Grounded (.use n))
    {rounds : Nat} (hin : ∀ s ∈ S, t.InUse s) (hrounds : (t.after S).unexpanded.card ≤ rounds) :
    expandRounds rounds (t.after S) = .ok () (t.after {n | t.InUse n}) := by
  induction rounds generalizing S with
  | zero =>
    have hS : t.AllGrounded S := fun s hs => hall s (hin s hs)
    rw [ht.after_inUse hS hin (pending_of_unexpanded (ht.after hS) (Nat.le_zero.1 hrounds))]
    rfl
  | succ rounds ih =>
    have hS : t.AllGrounded S := fun s hs => hall s (hin s hs)
    by_cases hnil : (t.after S).pending = []
    · rw [ht.after_inUse hS hin hnil]
      exact expandRounds_of_nil hnil _
    · have hpending : ∀ n ∈ (t.after S).pending, t.InUse n := by
        intro n hn
        rcases isUsed_after_iff.1 ((mem_pending (ht.after hS)).1 hn).1 with hu | ⟨-, s, hs, h⟩
        · exact .of_isUsed hu
        · exact (hin s hs).of_reach h.to_reflTransGen
      have hrun := expandAll_eq_ok ht hS fun n hn => hall n (hpending n hn)
      have hlt := (expands_round (ht.after hS) hnil hrun).2
      unfold expandRounds
      rw [run_get_bind, if_neg (by simpa using hnil), run_bind_ok hrun]
      refine ih ?_ (by omega)
      rintro s (hs | hs)
      · exact hin s hs
      · exact hpending s hs

theorem expandRounds_of_grounded (ht : t.WellFormed)
    (hall : ∀ n, t.InUse n → t.Grounded (.use n)) {rounds : Nat} (hrounds : t.size ≤ rounds) :
    expandRounds rounds t = .ok () (t.after {n | t.InUse n}) := by
  have hcard : (t.after ∅).unexpanded.card ≤ rounds := by
    rw [ht.after_empty]
    exact (card_unexpanded_le t).trans hrounds
  have hrun := expandRounds_eq_ok ht hall (by simp) hcard
  rwa [ht.after_empty] at hrun

/-- The macro that an expansion stops at. -/
structure Blamed (t : MacroTable) (name : String) : Prop where
  pending : name ∈ t.pending
  stuck : ¬t.Grounded (.use name)
  before : ∀ n ∈ t.pending, n < name → t.Grounded (.use n)

theorem exists_least {l : List String} {p : String → Prop} (hl : l.Pairwise (· < ·))
    (h : ∃ x ∈ l, p x) : ∃ x ∈ l, p x ∧ ∀ y ∈ l, y < x → ¬p y := by
  induction l with
  | nil =>
    obtain ⟨x, hx, -⟩ := h
    exact absurd hx List.not_mem_nil
  | cons a l ih =>
    obtain ⟨ha, hl⟩ := List.pairwise_cons.1 hl
    by_cases hp : p a
    · refine ⟨a, List.mem_cons_self, hp, fun y hy hlt => ?_⟩
      rcases List.mem_cons.1 hy with rfl | hy
      · exact absurd hlt (String.lt_irrefl y)
      · exact absurd (String.lt_trans hlt (ha y hy)) (String.lt_irrefl y)
    · obtain ⟨x, hx, hpx⟩ := h
      have hne : x ∈ l := (List.mem_cons.1 hx).resolve_left fun h => hp (h ▸ hpx)
      obtain ⟨x, hx, hpx, hbefore⟩ := ih hl ⟨x, hne, hpx⟩
      refine ⟨x, List.mem_cons_of_mem a hx, hpx, fun y hy hlt => ?_⟩
      rcases List.mem_cons.1 hy with rfl | hy
      · exact hp
      · exact hbefore y hy hlt

theorem WellFormed.pending_ascending (ht : t.WellFormed) : t.pending.Pairwise (· < ·) := by
  unfold MacroTable.pending
  refine List.Pairwise.filterMap _ (fun x y hxy a ha b hb => ?_) ht.ascending
  obtain ⟨-, ha⟩ := Option.ite_none_right_eq_some.1 ha
  obtain ⟨-, hb⟩ := Option.ite_none_right_eq_some.1 hb
  exact Option.some.inj ha ▸ Option.some.inj hb ▸ hxy

/-- All that are in use can be expanded, or there is a first one that cannot. -/
theorem WellFormed.exists_blamed (ht : t.WellFormed) (h : ∃ n, t.InUse n ∧ ¬t.Grounded (.use n)) :
    ∃ name, t.Blamed name := by
  obtain ⟨n, ⟨u, hu, hr⟩, hn⟩ := h
  have hu_stuck : ¬t.Grounded (.use u) := fun hg => hn (hg.of_reach hr)
  have hmem : u ∈ t.pending :=
    (ht.expanded_or_pending hu).resolve_left fun hx => hu_stuck (ht.grounded_of_expanded hx)
  obtain ⟨name, hname, hstuck, hbefore⟩ :=
    exists_least (p := fun m => ¬t.Grounded (.use m)) ht.pending_ascending ⟨u, hmem, hu_stuck⟩
  exact ⟨name, hname, hstuck, fun n hn hlt => not_not.1 (hbefore n hn hlt)⟩

theorem expandRounds_of_blamed (ht : t.WellFormed) (hname : t.Blamed name) {e : GenerateError}
    (he : t.expansion name = .error e) {rounds : Nat} (hrounds : t.size ≤ rounds) :
    expandRounds rounds t = .error e (t.after {n | n ∈ t.pending ∧ n < name}) := by
  have hu := ((mem_pending ht).1 hname.pending).1
  have hd := definition?_isSome_iff.2 (mem_names_of_isUsed hu)
  obtain ⟨rounds, rfl⟩ : ∃ k, rounds = k + 1 := by
    have hpos : 0 < t.size := by
      rw [size, ← List.length_map (·.1)]
      exact List.length_pos_of_mem (mem_names_of_isUsed hu)
    exact ⟨rounds - 1, by omega⟩
  obtain ⟨pre, post, hsplit⟩ := List.append_of_mem hname.pending
  have hpre : ∀ n, n ∈ pre ↔ n ∈ t.pending ∧ n < name := by
    have hasc := ht.pending_ascending
    rw [hsplit, List.pairwise_append, List.pairwise_cons] at hasc
    obtain ⟨-, ⟨hpost, -⟩, hpre⟩ := hasc
    intro n
    constructor
    · intro hn
      refine ⟨?_, hpre n hn name List.mem_cons_self⟩
      rw [hsplit]
      exact List.mem_append_left _ hn
    · rintro ⟨hn, hlt⟩
      rw [hsplit, List.mem_append, List.mem_cons] at hn
      rcases hn with hn | rfl | hn
      · exact hn
      · exact absurd hlt (String.lt_irrefl n)
      · exact absurd (String.lt_trans hlt (hpost n hn)) (String.lt_irrefl n)
  have hgrounded : ∀ n ∈ pre, t.Grounded (.use n) := fun n hn =>
    hname.before n ((hpre n).1 hn).1 ((hpre n).1 hn).2
  have hrun : t.pending.forM expandEntry t =
      .error e (t.after {n | n ∈ t.pending ∧ n < name}) := by
    rw [hsplit, expandAll_eq_error ht hgrounded hd he, ← hsplit]
    simp only [hpre]
  unfold expandRounds
  rw [run_get_bind, if_neg, run_bind_error hrun]
  rw [List.isEmpty_iff]
  exact List.ne_nil_of_mem hname.pending

end MacroTable

end ScannerGen
