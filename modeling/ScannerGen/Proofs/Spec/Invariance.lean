import ScannerGen.Proofs.Spec.Analyses
import ScannerGen.Proofs.Spec.ExactExpansion

/-
  Expansion shows nowhere but in the definitions. A survey goes into each definition once, but that
  makes no difference to the partition: all that it leaves out it has met before, and to refine by a
  set again changes nothing (`Survey.visit_covers`). So the partition is that of what the
  expressions resolve to (`Partition.ofRules_eq_resolved`), the same before and after an expansion,
  and so are the answers of all analyses (`expansion_changes_no_analysis`).
-/

namespace ScannerGen

open Relation

/-! ## The sets of what an expression resolves to -/

namespace Regex

/-- The sets that the leaves tell apart, from left to right. -/
def sets (r : Regex) : List CodeSet := r.leaves.flatMap Leaf.sets

end Regex

namespace MacroTable

variable {t t' : MacroTable} {r d : Regex} {l : Leaf} {name : String}

theorem Grounded.of_leaf (h : t.Grounded r) (hl : l ∈ r.leaves) : t.Grounded (.leaf l) := by
  refine h.of_subset fun n hn => ?_
  rw [Regex.mem_macroUses] at hn ⊢
  obtain rfl := List.mem_singleton.1 hn
  exact hl

/-- What the leaf calls for, through all definitions. -/
def leafSets (t : MacroTable) (l : Leaf) : List CodeSet := (t.resolve (.leaf l)).sets

theorem Grounded.sets_resolve (h : t.Grounded r) :
    (t.resolve r).sets = r.leaves.flatMap t.leafSets := by
  unfold Regex.sets
  rw [h.resolve_eq, Regex.leaves_subst, List.flatMap_assoc]
  refine List.flatMap_congr fun l hl => ?_
  unfold leafSets Regex.sets
  rw [(h.of_leaf hl).resolve_eq]

theorem leafSets_of_not_use (h : ∀ name, l ≠ .use name) : t.leafSets l = l.sets := by
  have hclosed : (Regex.leaf l).Closed := by
    unfold Regex.Closed
    rw [List.eq_nil_iff_forall_not_mem]
    intro n hn
    rw [Regex.mem_macroUses] at hn
    exact h n (List.mem_singleton.1 hn).symm
  unfold leafSets
  rw [resolve_of_closed hclosed, Regex.sets, Regex.leaves, List.flatMap_singleton]

theorem leafSets_use (hd : t.definition? name = some d) (hg : t.Grounded d) :
    t.leafSets (.use name) = d.leaves.flatMap t.leafSets := by
  have huse : t.resolve (.leaf (.use name)) = t.resolve d := by
    have h : t.Grounded (.leaf (.use name)) := (grounded_use_iff hd).2 hg
    rw [h.resolve_eq, Regex.subst, hd, Option.getD_some]
  rw [← hg.sets_resolve, ← huse]
  rfl

end MacroTable

/-! ## Definitions are visited only once -/

namespace Survey

open MacroTable

variable {t : MacroTable} {v v' v'' : Survey} {l : Leaf} {leaves leaves' : List Leaf} {top : Nat}

/-- The partition by the sets met so far. -/
def partition (v : Survey) (top : Nat) : Partition :=
  v.sets.toList.foldl Partition.refine (.whole top)

theorem partition_append (v : Survey) (sets : List CodeSet) (top : Nat) :
    ({ v with sets := v.sets ++ sets } : Survey).partition top =
      sets.foldl Partition.refine (v.partition top) := by
  unfold partition
  rw [Array.toList_appendList, List.foldl_append]

theorem partition_spec (v : Survey) (top : Nat) :
    (v.partition top).Valid ∧ ∀ s ∈ v.sets, (v.partition top).Fine s := by
  obtain ⟨hvalid, -, -, hfine⟩ := (Partition.valid_whole top).foldl_refine v.sets.toList
  exact ⟨hvalid, fun s hs => hfine s (Array.mem_toList_iff.2 hs)⟩

/-- All that the macro stands for has been met. -/
def Complete (v : Survey) (t : MacroTable) (name : String) : Prop :=
  ∀ s ∈ t.leafSets (.use name), s ∈ v.sets

/-- A visit comes to the same as one that goes into a definition wherever it is used. -/
structure Covers (t : MacroTable) (top : Nat) (v v' : Survey) (leaves : List Leaf) : Prop where
  sets : ∀ s ∈ v.sets, s ∈ v'.sets
  met : ∀ l ∈ leaves, ∀ s ∈ t.leafSets l, s ∈ v'.sets
  complete : ∀ n ∈ v'.visited, n ∈ v.visited ∨ v'.Complete t n
  partition : v'.partition top =
    (leaves.flatMap t.leafSets).foldl Partition.refine (v.partition top)

theorem Covers.refl (t : MacroTable) (top : Nat) (v : Survey) : Covers t top v v [] :=
  ⟨fun _ h => h, by simp, fun _ h => .inl h, rfl⟩

theorem Covers.trans (h : Covers t top v v' leaves) (h' : Covers t top v' v'' leaves') :
    Covers t top v v'' (leaves ++ leaves') where
  sets s hs := h'.sets s (h.sets s hs)
  met l hl s hs := by
    rcases List.mem_append.1 hl with hl | hl
    · exact h'.sets s (h.met l hl s hs)
    · exact h'.met l hl s hs
  complete n hn := by
    rcases h'.complete n hn with hn | hn
    · exact (h.complete n hn).imp_right fun hc s hs => h'.sets s (hc s hs)
    · exact .inr hn
  partition := by rw [h'.partition, h.partition, List.flatMap_append, List.foldl_append]

/-- A macro that has been visited, and all of whose sets were met, may be passed over. -/
theorem covers_visited {name : String} (hc : v.Complete t name) :
    Covers t top v v [.use name] where
  sets _ h := h
  met := by rwa [List.forall_mem_singleton]
  complete _ h := .inl h
  partition := by
    obtain ⟨hvalid, hfine⟩ := v.partition_spec top
    rw [List.flatMap_singleton]
    exact (hvalid.foldl_refine_eq_self fun s hs => hfine s (hc s hs)).symm

theorem covers_entered {name : String} {d : Regex} (hd : t.definition? name = some d)
    (hg : t.Grounded d)
    (h : Covers t top { v with visited := name :: v.visited } v' d.leaves) :
    Covers t top v v' [.use name] := by
  have hsets := leafSets_use hd hg
  have hmet : ∀ s ∈ t.leafSets (.use name), s ∈ v'.sets := by
    intro s hs
    rw [hsets] at hs
    obtain ⟨l, hl, hs⟩ := List.mem_flatMap.1 hs
    exact h.met l hl s hs
  refine ⟨h.sets, by rwa [List.forall_mem_singleton], fun n hn => ?_, ?_⟩
  · rcases h.complete n hn with hn | hn
    · rcases List.mem_cons.1 hn with rfl | hn
      · exact .inr hmet
      · exact .inl hn
    · exact .inr hn
  · rw [List.flatMap_singleton, hsets, h.partition]
    rfl

theorem covers_leaf (huse : ∀ name, l ≠ .use name) :
    Covers t top v { v with sets := v.sets ++ l.sets } [l] where
  sets s hs := mem_sets_append.2 (.inl hs)
  met := by
    rw [List.forall_mem_singleton, leafSets_of_not_use huse]
    exact fun s hs => mem_sets_append.2 (.inr hs)
  complete _ h := .inl h
  partition := by rw [partition_append, List.flatMap_singleton, leafSets_of_not_use huse]

/-- All that the leaves lead to and that is visited has been met: no macro is being visited that
they lead back to. -/
def Done (v : Survey) (t : MacroTable) (leaves : List Leaf) : Prop :=
  ∀ m, .use m ∈ leaves → ∀ n ∈ v.visited, ReflTransGen t.Uses m n → v.Complete t n

theorem visitLeaf_covers {enter : Survey → List Leaf → Survey} {depth : Nat}
    (henter : ∀ {v leaves}, (unvisited t v).card < depth →
      (∀ l ∈ leaves, t.Grounded (.leaf l)) → v.Done t leaves →
        Covers t top v (enter v leaves) leaves)
    (hdepth : (unvisited t v).card < depth + 1) (hg : t.Grounded (.leaf l))
    (hdone : v.Done t [l]) :
    Covers t top v (v.visitLeaf t enter l) [l] := by
  cases l with
  | use name =>
    have hdone := hdone name (List.mem_singleton_self _)
    rw [visitLeaf]
    split
    · next hc => exact covers_visited (hdone name (List.contains_iff_mem.1 hc) .refl)
    · next hc =>
      have hnew : name ∉ v.visited := fun h => hc (List.contains_iff_mem.2 h)
      obtain ⟨d, hd, hgd⟩ := Grounded.defined hg
      have hless := unvisited_lt hd hnew
      dsimp only
      rw [hd]
      refine covers_entered hd hgd (henter (by omega) (fun l hl => hgd.of_leaf hl)
        fun m hm n hn hr => ?_)
      have huse : t.Uses name m := ⟨d, hd, Regex.mem_macroUses.2 hm⟩
      rcases List.mem_cons.1 hn with rfl | hn
      · -- `name` does not lead back to itself
        exact absurd (TransGen.head' huse hr) (Grounded.sound hg).2
      · exact hdone n hn (hr.head huse)
  | one q | text s caseless =>
    rw [visitLeaf]
    · exact covers_leaf (by simp)
    · simp

/-- Only what was met is left out. -/
theorem visit_covers {depth : Nat} (hdepth : (unvisited t v).card < depth)
    (hg : ∀ l ∈ leaves, t.Grounded (.leaf l)) (hdone : v.Done t leaves) :
    Covers t top v (v.visit t depth leaves) leaves := by
  induction depth generalizing v leaves with
  | zero => omega
  | succ depth ih =>
    induction leaves generalizing v with
    | nil => exact .refl t top v
    | cons l leaves ihl =>
      obtain ⟨hgl, hgs⟩ := List.forall_mem_cons.1 hg
      have hstep : Covers t top v (v.visit t (depth + 1) [l]) [l] :=
        visitLeaf_covers ih hdepth hgl fun m hm =>
          hdone m (List.mem_singleton.1 hm ▸ List.mem_cons_self)
      have hsub := (visit_adds v (depth + 1) [l] hdepth).unvisited_subset
      refine hstep.trans (ihl (Nat.lt_of_le_of_lt (Finset.card_le_card hsub) hdepth) hgs
        fun m hm n hn hr => ?_)
      rcases hstep.complete n hn with hn | hn
      · exact fun s hs => hstep.sets s (hdone m (List.mem_cons_of_mem l hm) n hn hr s hs)
      · exact hn

theorem visitExprs_covers {exprs : List Regex} (hg : ∀ r ∈ exprs, t.Grounded r)
    (hdone : ∀ n ∈ v.visited, v.Complete t n) :
    Covers t top v (exprs.foldl (fun v r => v.visit t (t.size + 1) r.leaves) v)
      (exprs.flatMap Regex.leaves) := by
  induction exprs generalizing v with
  | nil => exact .refl t top v
  | cons r exprs ih =>
    obtain ⟨hgr, hg⟩ := List.forall_mem_cons.1 hg
    have hvisit : Covers t top v (v.visit t (t.size + 1) r.leaves) r.leaves :=
      visit_covers (Nat.lt_succ_of_le (card_unvisited_le t v)) (fun l hl => hgr.of_leaf hl)
        fun _ _ n hn _ => hdone n hn
    refine hvisit.trans (ih hg fun n hn => ?_)
    rcases hvisit.complete n hn with hn | hn
    · exact fun s hs => hvisit.sets s (hdone n hn s hs)
    · exact hn

end Survey

namespace Partition

variable {rules : List Rule} {t t' : MacroTable}

/-- The partition of the rules is that of all they resolve to. -/
theorem ofRules_eq_resolved
    (hg : ∀ r ∈ rules.flatMap Rule.exprs, t.Grounded r) (top : Nat) :
    ofRules rules t top = ((rules.flatMap Rule.exprs).flatMap fun r => (t.resolve r).sets).foldl
      refine (.whole top) := by
  have hcovers : Survey.Covers t top ⟨#[], []⟩ (Survey.ofRules rules t)
      ((rules.flatMap Rule.exprs).flatMap Regex.leaves) := by
    rw [Survey.ofRules_eq]
    exact Survey.visitExprs_covers hg (by simp)
  have hsets : (rules.flatMap Rule.exprs).flatMap (fun r => (t.resolve r).sets) =
      (rules.flatMap Rule.exprs).flatMap fun r => r.leaves.flatMap t.leafSets :=
    List.flatMap_congr fun r hr => (hg r hr).sets_resolve
  rw [hsets, ← List.flatMap_assoc]
  exact hcovers.partition

end Partition

namespace MacroTable

variable {t t' : MacroTable}

theorem Refines.ofRules_eq (h : t.Refines t') {rules : List Rule}
    (hrules : ∀ r ∈ rules.flatMap Rule.exprs, t.Grounded r) (top : Nat) :
    Partition.ofRules rules t' top = Partition.ofRules rules t top := by
  rw [Partition.ofRules_eq_resolved hrules,
    Partition.ofRules_eq_resolved fun r hr => h.grounded (hrules r hr)]
  congr 1
  refine List.flatMap_congr fun r hr => ?_
  rw [h.resolve_eq (hrules r hr)]

/-- An expansion that succeeds leaves every answer about a grounded expression as it was. So it does
with the partition for rules with such expressions, which is found before and after. -/
theorem expansion_changes_no_analysis {t t' : MacroTable} (ht : Built t)
    (h : expand t = .ok () t') (top : Nat) :
    (∀ r, t.Grounded r → SameAnswers t t' top r) ∧
      ∀ rules : List Rule, (∀ r ∈ rules.flatMap Rule.exprs, t.Grounded r) →
        ∃ p, Partition.ofRules? rules t top = .ok p ∧
          Partition.ofRules? rules t' top = .ok p := by
  have hexp := expand_ensures ht.wellFormed
  unfold Ensures at hexp
  rw [h] at hexp
  obtain ⟨⟨href, -⟩, -⟩ := hexp
  refine ⟨fun r hr => href.sameAnswers hr top, fun rules hrules => ?_⟩
  refine ⟨_, (Partition.ofRules_fine rules t top).1, ?_⟩
  rw [← href.ofRules_eq hrules top]
  exact (Partition.ofRules_fine rules t' top).1

/-- Numbers, and beside them a measure that is not in use and has two numbers in it. -/
def measures : MacroTable :=
  numbers.define "MEASURE" (.cat (.use "NUMBER") (.alt (.use "NUMBER") (.text "Km" true)))

theorem expansion_changes_no_analysis_measures :
    Built measures ∧ expand measures = .ok () (left expand measures) ∧
      (left expand measures).definition? "NUMBER" ≠ measures.definition? "NUMBER" ∧
      SameAnswers measures (left expand measures) 127 (.use "MEASURE") ∧
      ∃ p, Partition.ofRules? [.new 1 (.use "MEASURE") "measure"] measures 127 = .ok p ∧
        Partition.ofRules? [.new 1 (.use "MEASURE") "measure"] (left expand measures) 127 =
          .ok p := by
  have hbuilt : Built measures :=
    .define (.markUsed ((((Built.empty.define _ _).define _ _).define _ _).define _ _) _) _ _
  have hrun : expand measures = .ok () (left expand measures) := by rfl
  have htwo : ∀ {n m k d}, measures.definition? k = some d → d.macroUses = [n, m] →
      measures.Grounded (.use n) → measures.Grounded (.use m) → measures.Grounded (.use k) := by
    intro n m k d hd huses hn hm
    refine (grounded_use_iff hd).2 (grounded_iff_forall_use.2 ?_)
    simp [huses, hn, hm]
  have hdigit : measures.Grounded (.use "DIGIT") :=
    (grounded_use_iff rfl).2 (.of_closed (by decide))
  have hpair : measures.Grounded (.use "PAIR") := htwo rfl rfl hdigit hdigit
  have hnumber : measures.Grounded (.use "NUMBER") := htwo rfl rfl hpair hdigit
  have hmeasure : measures.Grounded (.use "MEASURE") := htwo rfl rfl hnumber hnumber
  obtain ⟨hanswers, hpartition⟩ := expansion_changes_no_analysis hbuilt hrun 127
  exact ⟨hbuilt, hrun, by decide, hanswers _ hmeasure,
    hpartition _ (List.forall_mem_singleton.2 hmeasure)⟩

end MacroTable

end ScannerGen
