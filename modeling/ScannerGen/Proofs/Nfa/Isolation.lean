import ScannerGen.Proofs.Nfa.Thompson

/-
  What building leaves alone. Whatever the partition and the macros are, and also if it fails, the
  building of an expression changes no state that was there before. The fragment that it returns is
  new, has no edge to an old state, is never entered again at its start and never left at its stop
  (`Isolated`). Every operator is wired as for `Builds`; only what is said about words is left out.
-/

namespace ScannerGen

theorem yields_of_forall {ε α : Type} {x : Except ε α} {Q : α → Prop} (h : ∀ a, Q a) :
    Yields x Q fun _ => True := by
  cases x with
  | ok a => exact h a
  | error e => trivial

namespace Nfa

variable {limit : Nat} {base nfa : Nfa} {f : Fragment} {i : Nat} {o : Option Nat}

/-- New states from `start` to `stop`, which no edge enters at the start and none leaves at the
stop; old states have edges to old states only. -/
structure Isolated (limit : Nat) (base nfa : Nfa) (f : Fragment) : Prop
    extends Apart limit base nfa, Ends base nfa f where
  old_target_lt : ∀ {i o j}, i < base.size → nfa.Edge i o j → j < base.size

theorem Ends.isolated (hf : Ends base nfa f) (h : Apart limit base nfa) (hb : base.Linked) :
    Isolated limit base nfa f where
  toApart := h
  toEnds := hf
  old_target_lt hi he := hb ((h.old_edge hi).1 he)

/-- Neither an old state nor a new one has an edge to the start. -/
theorem Isolated.not_entered (hf : Isolated limit base nfa f) : ¬nfa.Edge i o f.start := by
  intro he
  by_cases hi : i < base.size
  · exact Nat.not_lt.2 hf.start_ge (hf.old_target_lt hi he)
  · exact hf.no_entry (Nat.le_of_not_lt hi) he

end Nfa

/-! ## Actions -/

namespace Build

open Nfa

variable {limit : Nat} {base nfa : Nfa} {α : Type} {E : Failure → Nfa → Prop}

theorem ensures_lifted {x : Except Failure α} {Q : α → Nfa → Prop} (h : ∀ a, Q a nfa)
    (he : ∀ e, E e nfa) : Ensures (liftExcept x) nfa Q E := by
  cases x with
  | ok a => exact ensures_pure (h a)
  | error e => exact ensures_throw (he e)

theorem ensures_demanded {x : Except Breach α} {Q : α → Nfa → Prop} (h : ∀ a, Q a nfa)
    (he : ∀ e, E e nfa) : Ensures (demand x) nfa Q E := by
  cases x with
  | ok a => exact ensures_pure (h a)
  | error b => exact ensures_throw (he _)

/-- The action adds a fragment that is isolated, and changes no old state if it fails. -/
def Isolates (limit : Nat) (act : Build Fragment) : Prop :=
  ∀ base : Nfa, base.Linked →
    Ensures act base (fun f nfa => Isolated limit base nfa f) fun _ nfa => Apart limit base nfa

variable {act act' : Build Fragment}

/-- One fragment after what has been built already. -/
theorem Isolates.ensures (hact : Isolates limit act) (hb : base.Linked)
    (h : Apart limit base nfa) {Q : Fragment → Nfa → Prop}
    (hok : ∀ f nfa', Apart limit nfa nfa' → Ends nfa nfa' f → Q f nfa') :
    Ensures act nfa Q fun _ nfa' => Apart limit base nfa' :=
  (hact nfa (h.linked hb)).mono (fun f nfa' h' => hok f nfa' h'.toApart h'.toEnds)
    fun _ _ h' => h.trans h'

/-- Wiring fails only for want of room, and leaves the old states alone. -/
theorem ensures_wired {act : Build α} {Q : α → Nfa → Prop}
    (h : Ensures act nfa Q (Stopped limit base)) :
    Ensures act nfa Q fun _ nfa' => Apart limit base nfa' :=
  h.mono (fun _ _ h => h) fun _ _ h => h.2

theorem isolates_throw (e : Failure) : Isolates limit (throw e) :=
  fun base _ => ensures_throw (.refl limit base)

theorem isolates_insertClasses (classes : Except Failure (List Nat)) :
    Isolates limit (insertClasses limit classes) := by
  intro base hb
  refine ensures_bind (ensures_lifted (fun ks => ?_) fun _ => .refl limit base)
  refine ensures_wired (ensures_wireClasses fun start stop nfa hstart hstop hsize h => ?_)
  exact (isFragment_singles h hb hstart hstop hsize).toEnds.isolated h.apart hb

theorem isolates_insertText (p : Partition) (s : String) (caseless : Bool) :
    Isolates limit (insertText p limit s caseless) := fun _ hb =>
  ensures_wired ((insertText_ensures hb s caseless).mono
    (fun _ _ ⟨h, hf, _⟩ => hf.toEnds.isolated h hb) fun _ _ h => h)

theorem isolates_cat (hact : Isolates limit act) (hact' : Isolates limit act') :
    Isolates limit (do
      let f ← act
      let g ← act'
      addEpsilon f.stop g.start
      pure ⟨f.start, g.stop⟩) := by
  intro base hb
  refine ensures_bind (hact.ensures hb (.refl limit base) fun f nfa₁ h₁ hf => ?_)
  refine ensures_bind (hact'.ensures hb h₁ fun g nfa₂ h₂ hg => ?_)
  refine ensures_bind (ensures_wireEpsilon (.refl (h₁.trans h₂)) (hf.frame h₂).bounds.2
    (hg.lower h₁ h₂).bounds.1 fun nfa _ h => ?_)
  exact ensures_pure ((h.cat_ends (by simp) hf h₁ h₂ hg).isolated h.apart hb)

theorem isolates_opt (hact : Isolates limit act) :
    Isolates limit (do
      let f ← act
      addEpsilon f.start f.stop
      pure f) := by
  intro base hb
  refine ensures_bind (hact.ensures hb (.refl limit base) fun f nfa₁ h₁ hf => ?_)
  refine ensures_bind (ensures_wireEpsilon (.refl h₁) hf.bounds.1 hf.bounds.2 fun nfa _ h => ?_)
  exact ensures_pure ((h.opt_ends (by simp) hf).isolated h.apart hb)

theorem isolates_alt (hact : Isolates limit act) (hact' : Isolates limit act') :
    Isolates limit (do alternatives limit (← act) (← act')) := by
  intro base hb
  refine ensures_bind (hact.ensures hb (.refl limit base) fun f nfa₁ h₁ hf => ?_)
  refine ensures_bind (hact'.ensures hb h₁ fun g nfa₂ h₂ hg => ?_)
  have hf' := hf.frame h₂
  have hg' := hg.lower h₁ h₂
  refine ensures_wired (ensures_wireAlt (h₁.trans h₂) hf' hg'
    fun start stop nfa hstart hstop hlt h => ?_)
  exact (h.alt_ends (fun _ _ _ => .rfl) hb (h₁.trans h₂) hf' hg' (by omega) (by omega)
    (by omega)).isolated h.apart hb

theorem isolates_repeated (hact : Isolates limit act) (skip : Bool) :
    Isolates limit (do repeated limit skip (← act)) := by
  intro base hb
  refine ensures_bind (hact.ensures hb (.refl limit base) fun f mid hm hf => ?_)
  refine ensures_wired (ensures_wireRepeated skip hm hf
    fun start stop nfa hstart hstop hlt h => ?_)
  exact (h.repeated_ends (fun _ _ _ => .rfl) hb hm hf (by omega) (by omega)
    (by omega)).isolated h.apart hb

theorem isolates_complement (f : Fragment) : Isolates limit (complement limit f) := by
  intro base hb
  refine ensures_bind (ensures_get ?_)
  refine ensures_bind (ensures_demanded (fun c => ?_) fun _ => .refl limit base)
  split
  · exact ensures_throw (.refl limit base)
  · next t hrun =>
    obtain ⟨hnum, ht⟩ := (Subsets.ofStart_numbers (P := fun _ => True)
      (fun _ _ => yields_of_forall fun _ _ _ => trivial) fun _ _ => trivial).of_ok hrun
    have hpos : 0 < t.sets.size := hnum.size_le
    refine ensures_wired (ensures_wireComplement ht hpos
      fun start error stop nfa horder hsize h => ?_)
    exact ((complement_ends ht hpos hb h horder hsize).trim h.apart stop).isolated
      (h.apart.trim stop) hb

theorem isolates_compl (hact : Isolates limit act) :
    Isolates limit (do complement limit (← act)) := by
  intro base hb
  refine ensures_bind (hact.ensures hb (.refl limit base) fun f nfa₁ h₁ _ => ?_)
  exact (isolates_complement f).ensures hb h₁ fun g nfa₂ h₂ hg =>
    (hg.lower h₁ h₂).isolated (h₁.trans h₂) hb

theorem isolates_around (hact : Isolates limit act) : Isolates limit (around limit act) := by
  intro base hb
  refine ensures_wireAround And.right fun nfa₁ start before after stop h₁ horder hedge => ?_
  refine hact.ensures hb h₁ fun f mid hm hf => ⟨hm, hf, fun nfa h => ?_⟩
  exact (h.around_ends (fun _ _ _ => .rfl) horder
    (fun ha he => not_edge_of_ge ha _ _ (hedge.1 he)) hm hf).isolated h.apart hb

/-! ## Expressions -/

/-- The fragment of an expression is isolated if those of the macros that it uses are. -/
theorem isolates_insertWith (p : Partition) {isClass : String → Bool}
    {classes : String → Except Failure (List Nat)} {ofUse : String → Build Fragment}
    (huse : ∀ name, Isolates limit (ofUse name)) (r : Regex) :
    Isolates limit (insertWith p limit isClass classes ofUse r) := by
  induction r with
  | alt r s hr hs =>
    unfold insertWith
    split
    · exact isolates_insertClasses _
    · exact isolates_alt hr hs
  | cat r s hr hs => exact isolates_cat hr hs
  | star r hr => exact isolates_repeated hr true
  | plus r hr => exact isolates_repeated hr false
  | opt r hr => exact isolates_opt hr
  | compl r hr => exact isolates_compl hr
  | upTo r hr =>
    rw [insertWith_upTo]
    exact isolates_cat (isolates_compl (isolates_around hr)) hr
  | leaf l =>
    cases l with
    | one q => exact isolates_insertClasses _
    | text s caseless => exact isolates_insertText p s caseless
    | use name =>
      unfold insertWith
      split
      · exact isolates_insertClasses _
      · exact huse name

theorem isolates_insert (p : Partition) (t : MacroTable) (r : Regex) :
    Isolates limit (insert p limit t r) := by
  unfold insert
  generalize t.size * (limit + 1) = depth
  have hunknown : ∀ name, Isolates limit (liftExcept (MacroTable.noDefinition name)) :=
    fun name => isolates_throw _
  induction depth generalizing r with
  | zero => exact isolates_insertWith p hunknown r
  | succ depth ih =>
    refine isolates_insertWith p (fun name => ?_) r
    split
    · next d _ => exact ih d
    · exact hunknown name

/-- Old states stay as they are even if the building fails, whatever the partition and the macros
are. -/
theorem insert_isolates_fragments (p : Partition) (limit : Nat) (t : MacroTable) (r : Regex)
    {nfa : Nfa} (hnfa : nfa.Linked) :
    (∀ f nfa', insert p limit t r nfa = .ok f nfa' → Isolated limit nfa nfa' f) ∧
      ∀ e nfa', insert p limit t r nfa = .error e nfa' →
        ∀ i < nfa.size, nfa'.states[i]? = nfa.states[i]? := by
  have hspec : Ensures (insert p limit t r) nfa _ _ := isolates_insert p t r nfa hnfa
  constructor
  · intro f nfa' hok
    exact hspec.of_ok hok
  · intro e nfa' herror i hi
    exact (hspec.of_error herror).old hi

/-- Two entries into a loop. -/
def entered : Nfa where
  states := #[⟨[], .single 2, false, false, none⟩, ⟨[(1, 2)], ∅, false, false, none⟩,
    ⟨[(0, 2), (1, 2)], .single 0, false, false, none⟩]
  numClasses := 2
  numLex := 1

/-- A macro for a text once or more often. -/
def alpha : MacroTable := .define .empty "alpha" (.plus (.text "aa" false))

/-- All operators, with a macro that is built in two places. -/
def layered : Regex :=
  .cat (.star (.alt (.use "alpha") (.compl (.one (.code 97 false)))))
    (.opt (.cat (.upTo (.use "alpha")) (.text "" false)))

theorem insert_isolates_fragments_layered : entered.Linked ∧
    (∃ f nfa', insert ((Partition.whole 127).refineCode 97 false) 200 alpha layered entered =
      .ok f nfa' ∧ Isolated 200 entered nfa' f) ∧
    ∃ e nfa', insert ((Partition.whole 127).refineCode 97 false) 40 alpha layered entered =
      .error e nfa' ∧ ∀ i < entered.size, nfa'.states[i]? = entered.states[i]? := by
  have h : entered.Linked := (show entered.InRange by decide).target_lt
  refine ⟨h, ?_, ?_⟩
  · obtain ⟨f, nfa', hok⟩ := exists_eq_ok_of_run (show (run (insert
      ((Partition.whole 127).refineCode 97 false) 200 alpha layered) entered).toOption.isSome = true
      by decide +kernel)
    exact ⟨f, nfa', hok, (insert_isolates_fragments _ 200 alpha layered h).1 f nfa' hok⟩
  · have herror : (run (insert ((Partition.whole 127).refineCode 97 false) 40 alpha layered)
      entered).toOption.isSome = false := by decide +kernel
    match hrun : insert ((Partition.whole 127).refineCode 97 false) 40 alpha layered entered with
    | .ok f nfa' =>
      rw [run, hrun] at herror
      cases herror
    | .error e nfa' =>
      exact ⟨e, nfa', rfl, (insert_isolates_fragments _ 40 alpha layered h).2 e nfa' hrun⟩

end Build

end ScannerGen
