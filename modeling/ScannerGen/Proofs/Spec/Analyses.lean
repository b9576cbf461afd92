import ScannerGen.Proofs.Regex.Edges

/-
  The analyses of expressions over a macro table. What they tell is true of every match
  (`analyses_are_sound`). Each tells the same of an expression and of what the expression resolves
  to (`Grounded.follow_resolve`, `Grounded.edge_resolve`), so to rewrite definitions by what they
  resolve to changes none of the answers (`Refines.sameAnswers`).
-/

namespace ScannerGen

namespace Regex

theorem structural_estimate : Structural estimate where
  alt hr hs := by rw [estimate, estimate, hr, hs]
  cat hr hs := by rw [estimate, estimate, hr, hs]
  star h := by rw [estimate, estimate, h]
  plus h := by rw [estimate, estimate, h]
  opt h := h
  compl h := by rw [estimate, estimate, h]
  upTo h := by rw [estimate, estimate, h]
  one := rfl
  text := rfl
  use _ _ := rfl

end Regex

namespace MacroTable

variable {t t' : MacroTable} {r : Regex} {top : Nat}

/-! ## Answers over a macro table -/

theorem Grounded.matchesEmpty_resolve (h : t.Grounded r) (empties : String → Bool) :
    t.matchesEmpty r = (t.resolve r).matchesEmpty empties :=
  h.follow_resolve Regex.structural_matchesEmpty.isLocal Regex.structural_matchesEmpty.commutes
    empties

theorem Grounded.edge_resolve {edge : (String → Bool) → (String → CodeSet) → Regex → CodeSet}
    (he : Regex.Structural (Regex.withEmpty edge)) (h : t.Grounded r) (empties : String → Bool)
    (ofUse : String → CodeSet) :
    t.follow (fun _ => .upTo top) (edge fun n => t.matchesEmpty (.use n)) r =
      edge empties ofUse (t.resolve r) := by
  induction h with
  | @intro r hdef hground ih =>
    have hg : t.Grounded r := ⟨hdef, hground⟩
    rw [hg.follow_unfold (he.edge_local _), hg.resolve_eq, he.edge_subst]
    apply he.edge_congr
    all_goals
      intro n hn
      obtain ⟨d, hd, hgd⟩ := hg.exists_definition hn
      rw [hd, Option.getD_some]
    · rw [← hgd.matchesEmpty_resolve]
      exact hg.follow_use Regex.structural_matchesEmpty.isLocal Regex.structural_matchesEmpty.use
        hn hd
    · exact ih n hn d hd

/-- Both tables give the same answers about the expression. -/
structure SameAnswers (t t' : MacroTable) (top : Nat) (r : Regex) : Prop where
  estimate : t'.estimate r = t.estimate r
  isCodeClass : t'.isCodeClass r = t.isCodeClass r
  length? : t'.length? r = t.length? r
  matchesEmpty : t'.matchesEmpty r = t.matchesEmpty r
  first : t'.first top r = t.first top r
  last : t'.last top r = t.last top r

/-- An answer that is the same for what the expression resolves to. -/
theorem Refines.follow_eq {α : Type} {unknown : String → α} {eval : (String → α) → Regex → α}
    (h : t.Refines t') (hr : t.Grounded r) (he : Regex.Structural eval) :
    t'.follow unknown eval r = t.follow unknown eval r := by
  rw [hr.follow_resolve he.isLocal he.commutes unknown,
    (h.grounded hr).follow_resolve he.isLocal he.commutes unknown, h.resolve_eq hr]

theorem Refines.edge_eq {edge : (String → Bool) → (String → CodeSet) → Regex → CodeSet}
    (he : Regex.Structural (Regex.withEmpty edge)) (h : t.Refines t') (hr : t.Grounded r) :
    t'.follow (fun _ => .upTo top) (edge fun n => t'.matchesEmpty (.use n)) r =
      t.follow (fun _ => .upTo top) (edge fun n => t.matchesEmpty (.use n)) r := by
  rw [hr.edge_resolve he (fun _ => true) fun _ => ∅,
    (h.grounded hr).edge_resolve he (fun _ => true) fun _ => ∅, h.resolve_eq hr]

/-- To put what definitions resolve to in their place changes no answer. -/
theorem Refines.sameAnswers (h : t.Refines t') (hr : t.Grounded r) (top : Nat) :
    SameAnswers t t' top r where
  estimate := h.follow_eq hr Regex.structural_estimate
  isCodeClass := h.follow_eq hr Regex.structural_isCodeClass
  length? := h.follow_eq hr Regex.structural_length?
  matchesEmpty := h.follow_eq hr Regex.structural_matchesEmpty
  first := h.edge_eq (Regex.structural_first top) hr
  last := h.edge_eq (Regex.structural_last top) hr

/-! ## Answers are true -/

/-- The empty word is a match exactly if it is said to be. Every match has the length that is given,
and, if it is not empty, begins and ends with codes of the sets for the beginning and the end. -/
theorem analyses_are_sound (t : MacroTable) (top : Nat) (r : Regex) (hr : t.Grounded r) :
    (t.matchesEmpty r = true ↔ [] ∈ t.language top r) ∧
      ∀ w ∈ t.language top r,
        (∀ n, t.length? r = some n → w.length = n) ∧
        ∀ hw : w ≠ [], w.head hw ∈ t.first top r ∧ w.getLast hw ∈ t.last top r := by
  refine ⟨hr.matchesEmpty_iff, fun w hw => ⟨fun n hn => hr.length_eq hn w hw, fun hne => ⟨?_, ?_⟩⟩⟩
  · apply hr.first_encloses
    exact ⟨w.tail, by rwa [List.cons_head_tail]⟩
  · apply hr.last_encloses
    exact ⟨w.dropLast, by rwa [List.dropLast_concat_getLast]⟩

/-- Blanks, and comments that end at the first closing mark. -/
def comments : MacroTable :=
  (MacroTable.empty.define "blank" (.star (.text " " false))).define "comment"
    (.cat (.text "/*" false) (.upTo (.text "*/" false)))

/-- A word that is no number, with blanks and a comment before it if need be. -/
def commented : Regex :=
  .cat (.use "blank") (.cat (.opt (.use "comment")) (.compl (.plus (.one (.oneOf .digits)))))

theorem analyses_are_sound_comments :
    comments.Grounded commented ∧
      comments.matchesEmpty commented = true ∧ [] ∈ comments.language 127 commented ∧
      ∀ w ∈ comments.language 127 commented,
        (∀ n, comments.length? commented = some n → w.length = n) ∧
        ∀ hw : w ≠ [], w.head hw ∈ comments.first 127 commented ∧
          w.getLast hw ∈ comments.last 127 commented := by
  have hclosed : ∀ x ∈ comments.entries, x.2.definition.Closed := by decide
  have hg : comments.Grounded commented := .of_closed_entries hclosed (by decide)
  obtain ⟨hempty, hends⟩ := analyses_are_sound comments 127 commented hg
  exact ⟨hg, by decide, hempty.1 (by decide), hends⟩

end MacroTable

end ScannerGen
