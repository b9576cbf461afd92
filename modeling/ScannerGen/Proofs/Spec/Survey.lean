import ScannerGen.Proofs.Alphabet.ClassOf
import ScannerGen.Proofs.Spec.Expansion

/-
  The partition of a specification. The survey meets every leaf that the rules reach through any
  definitions (`Survey.ofRules_meets`), so the partition is valid and fine for all of them
  (`Partition.ofRules_spec`).
-/

namespace ScannerGen

namespace MacroTable

/-- The leaf stands in the expression or in a definition that it reaches. -/
inductive Occurs (t : MacroTable) (l : Leaf) : Regex → Prop where
  | here {r : Regex} (h : l ∈ r.leaves) : Occurs t l r
  | through {r d : Regex} {name : String} (hn : name ∈ r.macroUses)
      (hd : t.definition? name = some d) (h : Occurs t l d) : Occurs t l r

theorem mem_leaves_subst {f : String → Regex} {r : Regex} {l : Leaf}
    (h : l ∈ (r.subst f).leaves) : l ∈ r.leaves ∨ ∃ name ∈ r.macroUses, l ∈ (f name).leaves := by
  rw [Regex.leaves_subst] at h
  obtain ⟨l', hl', h⟩ := List.mem_flatMap.1 h
  cases l' with
  | use name => exact .inr ⟨name, Regex.mem_macroUses.2 hl', h⟩
  | _ =>
    obtain rfl := List.mem_singleton.1 h
    exact .inl hl'

/-- The leaves of what an expression resolves to occur in the expression. -/
theorem Grounded.occurs_of_mem_resolve {t : MacroTable} {r : Regex} {l : Leaf} (h : t.Grounded r)
    (hl : l ∈ (t.resolve r).leaves) : t.Occurs l r := by
  induction h with
  | @intro r hdef hground ih =>
    rw [Grounded.resolve_eq ⟨hdef, hground⟩] at hl
    rcases mem_leaves_subst hl with hl | ⟨name, hn, hl⟩
    · exact .here hl
    · obtain ⟨d, hd⟩ := Option.isSome_iff_exists.1 (hdef name hn)
      rw [hd] at hl
      exact .through hn hd (ih name hn d hd hl)

/-- What holds of the leaves of the expression and of all definitions holds of what occurs. -/
theorem Occurs.of_forall {t : MacroTable} {r : Regex} {l : Leaf} {P : Leaf → Prop}
    (ht : ∀ x ∈ t.entries, ∀ l ∈ x.2.definition.leaves, P l) (hr : ∀ l ∈ r.leaves, P l)
    (h : t.Occurs l r) : P l := by
  induction h with
  | here h => exact hr _ h
  | through _ hd _ ih =>
    obtain ⟨x, hx, -, rfl⟩ := exists_entry hd
    exact ih (ht x hx)

end MacroTable

namespace Survey

variable {t : MacroTable} {v v' v'' : Survey} {l : Leaf} {leaves : List Leaf}

/-- The sets of the leaf have been met, or the definition of its macro visited. -/
structure Met (v : Survey) (l : Leaf) : Prop where
  sets : ∀ s ∈ l.sets, s ∈ v.sets
  visited : ∀ name, l = .use name → name ∈ v.visited

/-- The leaves of a visited definition have been met. -/
def Through (v : Survey) (t : MacroTable) (name : String) : Prop :=
  ∀ d, t.definition? name = some d → ∀ l ∈ d.leaves, v.Met l

/-- What a visit adds: the given leaves and those of every definition that is visited first. -/
structure Adds (t : MacroTable) (v v' : Survey) (leaves : List Leaf) : Prop where
  sets : ∀ s ∈ v.sets, s ∈ v'.sets
  visited : v.visited ⊆ v'.visited
  met : ∀ l ∈ leaves, v'.Met l
  through : ∀ name ∈ v'.visited, name ∈ v.visited ∨ v'.Through t name

theorem Adds.refl (t : MacroTable) (v : Survey) : Adds t v v [] :=
  ⟨fun _ h => h, List.Subset.refl _, by simp, fun _ h => .inl h⟩

theorem Met.mono (h : v.Met l) (hs : ∀ s ∈ v.sets, s ∈ v'.sets) (hv : v.visited ⊆ v'.visited) :
    v'.Met l := ⟨fun s h' => hs s (h.sets s h'), fun n h' => hv (h.visited n h')⟩

theorem Adds.trans {leaves' : List Leaf} (h : Adds t v v' leaves) (h' : Adds t v' v'' leaves') :
    Adds t v v'' (leaves ++ leaves') where
  sets s hs := h'.sets s (h.sets s hs)
  visited := fun _ hn => h'.visited (h.visited hn)
  met l hl :=
    (List.mem_append.1 hl).elim (fun hl => (h.met l hl).mono h'.sets h'.visited) (h'.met l)
  through name hn := by
    rcases h'.through name hn with hn | hn
    · apply (h.through name hn).imp_right
      intro hthrough d hd l hl
      exact (hthrough d hd l hl).mono h'.sets h'.visited
    · exact .inr hn

/-- The macros that have not been visited. -/
def unvisited (t : MacroTable) (v : Survey) : Finset String :=
  t.names.toFinset.filter (· ∉ v.visited)

theorem Adds.unvisited_subset (h : Adds t v v' leaves) : unvisited t v' ⊆ unvisited t v := by
  intro name hn
  unfold unvisited at hn ⊢
  rw [Finset.mem_filter] at hn ⊢
  exact ⟨hn.1, fun h' => hn.2 (h.visited h')⟩

theorem unvisited_lt {name : String} {d : Regex} (hd : t.definition? name = some d)
    (hn : name ∉ v.visited) :
    (unvisited t { v with visited := name :: v.visited }).card < (unvisited t v).card := by
  have hmem : name ∈ unvisited t v :=
    Finset.mem_filter.2 ⟨List.mem_toFinset.2 (MacroTable.mem_names_of_definition? hd), hn⟩
  refine Finset.card_lt_card ⟨fun n h => ?_, fun hsub => ?_⟩
  · unfold unvisited at h ⊢
    rw [Finset.mem_filter] at h ⊢
    exact ⟨h.1, fun h' => h.2 (List.mem_cons_of_mem _ h')⟩
  · have := hsub hmem
    unfold unvisited at this
    rw [Finset.mem_filter] at this
    exact this.2 (List.mem_cons_self ..)

theorem mem_sets_append {s : CodeSet} {sets : List CodeSet} :
    s ∈ ({ v with sets := v.sets ++ sets } : Survey).sets ↔ s ∈ v.sets ∨ s ∈ sets := by
  rw [← Array.mem_toList_iff, Array.toList_appendList, List.mem_append, Array.mem_toList_iff]

theorem visitLeaf_adds {enter : Survey → List Leaf → Survey} {n : Nat}
    (henter : ∀ v leaves, (unvisited t v).card < n → Adds t v (enter v leaves) leaves)
    (h : (unvisited t v).card < n + 1) (l : Leaf) : Adds t v (v.visitLeaf t enter l) [l] := by
  cases l with
  | use name =>
    have hmet {w : Survey} (h : name ∈ w.visited) : ∀ l ∈ [Leaf.use name], w.Met l := by
      rw [List.forall_mem_singleton]
      exact ⟨by simp [Leaf.sets], by simpa using h⟩
    rw [visitLeaf]
    split
    · next hc => exact ⟨fun _ h => h, fun _ h => h, hmet (List.contains_iff_mem.1 hc),
        fun _ h => .inl h⟩
    · next hc =>
      have hnew : name ∉ v.visited := fun h => hc (List.contains_iff_mem.2 h)
      dsimp only
      cases hd : t.definition? name with
      | none =>
        refine ⟨fun _ h => h, List.subset_cons_self .., hmet (List.mem_cons_self ..), ?_⟩
        intro n hn
        rcases List.mem_cons.1 hn with rfl | hn
        · exact .inr fun d hd' => absurd (hd.symm.trans hd') (by simp)
        · exact .inl hn
      | some d =>
        have hadds := henter { v with visited := name :: v.visited } d.leaves
          (by have := unvisited_lt hd hnew; omega)
        refine ⟨hadds.sets, fun n hn => hadds.visited (List.mem_cons_of_mem _ hn),
          hmet (hadds.visited (List.mem_cons_self ..)), fun n hn => ?_⟩
        rcases hadds.through n hn with hn | hn
        · rcases List.mem_cons.1 hn with rfl | hn
          · refine .inr fun d' hd' => ?_
            rw [hd, Option.some.injEq] at hd'
            exact hd' ▸ hadds.met
          · exact .inl hn
        · exact .inr hn
  | one q | text s caseless =>
    rw [visitLeaf]
    · exact ⟨fun s hs => mem_sets_append.2 (.inl hs), fun _ h => h, List.forall_mem_singleton.2
        ⟨fun s hs => mem_sets_append.2 (.inr hs), by simp⟩, fun _ h => .inl h⟩
    · simp

/-- A visit goes deep enough as long as fewer macros are unvisited than it may go deep. -/
theorem visit_adds (v : Survey) (depth : Nat) (leaves : List Leaf)
    (h : (unvisited t v).card < depth) : Adds t v (v.visit t depth leaves) leaves := by
  induction depth generalizing v leaves with
  | zero => omega
  | succ depth ih =>
    unfold visit
    induction leaves generalizing v with
    | nil => exact .refl t v
    | cons l leaves ihl =>
      have hstep := visitLeaf_adds ih h l
      have hrest := ihl _ (Nat.lt_of_le_of_lt (Finset.card_le_card hstep.unvisited_subset) h)
      exact hstep.trans hrest

theorem card_unvisited_le (t : MacroTable) (v : Survey) : (unvisited t v).card ≤ t.size := by
  calc (unvisited t v).card ≤ t.names.toFinset.card := Finset.card_filter_le ..
    _ ≤ t.names.length := List.toFinset_card_le _
    _ = t.size := by rw [MacroTable.names, List.length_map, MacroTable.size]

theorem visitExprs_adds (exprs : List Regex) (v : Survey) :
    Adds t v (exprs.foldl (fun v r => v.visit t (t.size + 1) r.leaves) v)
      (exprs.flatMap Regex.leaves) := by
  induction exprs generalizing v with
  | nil => exact .refl t v
  | cons r exprs ih =>
    exact (visit_adds v _ _ (Nat.lt_succ_of_le (card_unvisited_le t v))).trans (ih _)

theorem ofRules_eq (rules : List Rule) (t : MacroTable) :
    ofRules rules t = (rules.flatMap Rule.exprs).foldl (fun v r => v.visit t (t.size + 1) r.leaves)
      ⟨#[], []⟩ := by
  unfold ofRules
  rw [List.foldl_flatMap]
  rfl

/-- Whatever occurs in the expressions of the rules is met. -/
theorem ofRules_meets {rules : List Rule} {r : Regex} (hr : r ∈ rules.flatMap Rule.exprs)
    (hl : t.Occurs l r) : ∀ s ∈ l.sets, s ∈ (ofRules rules t).sets := by
  have hadds := visitExprs_adds (t := t) (rules.flatMap Rule.exprs) ⟨#[], []⟩
  rw [← ofRules_eq] at hadds
  have hthrough : ∀ name ∈ (ofRules rules t).visited, (ofRules rules t).Through t name :=
    fun name hn => (hadds.through name hn).resolve_left List.not_mem_nil
  -- every expression whose own leaves are met has all met that occurs in it
  have hmet : ∀ l ∈ r.leaves, (ofRules rules t).Met l := fun l hl =>
    hadds.met l (List.mem_flatMap.2 ⟨r, hr, hl⟩)
  clear hr
  induction hl with
  | here h => exact (hmet _ h).sets
  | through hn hd _ ih =>
    have hvisited := (hmet _ (Regex.mem_macroUses.1 hn)).visited _ rfl
    exact ih (hthrough _ hvisited _ hd)

end Survey

namespace Partition

variable {rules : List Rule} {t : MacroTable}

/-- The partition of the rules does not fail, is valid, and fine for all sets that are met. -/
theorem ofRules_fine (rules : List Rule) (t : MacroTable) (top : Nat) :
    ofRules? rules t top = .ok (ofRules rules t top) ∧ (ofRules rules t top).Valid ∧
      (ofRules rules t top).top = top ∧
      ∀ s ∈ (Survey.ofRules rules t).sets, (ofRules rules t top).Fine s := by
  obtain ⟨hvalid, htop, -, hfine⟩ :=
    (valid_whole top).foldl_refine (Survey.ofRules rules t).sets.toList
  exact ⟨foldlM_refine?_eq_ok .., hvalid, htop, fun s hs => hfine s (Array.mem_toList_iff.2 hs)⟩

/-- So it is fine for all leaves that occur. -/
theorem ofRules_spec (rules : List Rule) (t : MacroTable) (top : Nat) :
    ofRules? rules t top = .ok (ofRules rules t top) ∧ (ofRules rules t top).Valid ∧
      (ofRules rules t top).top = top ∧
      ∀ r ∈ rules.flatMap Rule.exprs, ∀ l, t.Occurs l r → (ofRules rules t top).FineFor l := by
  obtain ⟨hok, hvalid, htop, hfine⟩ := ofRules_fine rules t top
  exact ⟨hok, hvalid, htop, fun r hr l hl s hs => hfine s (Survey.ofRules_meets hr hl s hs)⟩

end Partition

end ScannerGen
