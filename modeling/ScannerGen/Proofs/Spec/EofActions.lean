import Mathlib.Data.List.Induction
import Mathlib.Data.List.Nodup
import Mathlib.Data.Set.Function
import ScannerGen.Proofs.Grouping
import ScannerGen.Proofs.Sorted
import ScannerGen.Spec.EofActions

/-
  What is registered for the end of the input. A default replaces the actions of later lines that
  states have when it is set, but an action that is added after it is not compared with it. So a
  state that has actions of its own gets the earliest of these and of the defaults that came after
  the first of them (`isEarliest_action?`), and the order of the calls matters to a state exactly if
  a default is on an earlier line than all its own actions (`action?_agrees_iff`).
-/

namespace ScannerGen

/-- `a?` is an action of the lowest line in `S`, if there is one. -/
def Action.IsEarliest (S : Set Action) : Option Action → Prop
  | none => S = ∅
  | some a => a ∈ S ∧ ∀ b ∈ S, a.priority ≤ b.priority

theorem Action.merge_merge_self (a? : Option Action) (b : Action) :
    merge (merge a? (some b)) (some b) = merge a? (some b) := by
  cases a? with
  | none => simp [merge, earlier]
  | some a =>
    unfold merge earlier
    by_cases h : a.priority < b.priority <;> simp [h]

namespace Action.IsEarliest

variable {S T : Set Action} {a? b? : Option Action}

theorem merge (h : IsEarliest S a?) (b : Action) :
    IsEarliest (insert b S) (Action.merge a? (some b)) := by
  cases a? with
  | none =>
    obtain rfl : S = ∅ := h
    exact ⟨Set.mem_insert .., by simp⟩
  | some a =>
    obtain ⟨ha, hle⟩ := h
    unfold Action.merge earlier
    dsimp only
    split
    · next hlt =>
      exact ⟨.inr ha, Set.forall_mem_insert.2 ⟨Nat.le_of_lt hlt, hle⟩⟩
    · next hlt =>
      have hba : b.priority ≤ a.priority := Nat.le_of_not_lt hlt
      exact ⟨.inl rfl, Set.forall_mem_insert.2
        ⟨Nat.le_refl _, fun c hc => Nat.le_trans hba (hle c hc)⟩⟩

theorem unique (hS : Set.InjOn Action.priority S) (ha : IsEarliest S a?) (hb : IsEarliest S b?) :
    a? = b? := by
  cases a? with
  | none =>
    obtain rfl : S = ∅ := ha
    cases b? with
    | none => rfl
    | some b => exact absurd hb.1 (Set.notMem_empty b)
  | some a =>
    cases b? with
    | none => exact absurd (hb ▸ ha.1) (Set.notMem_empty a)
    | some b => rw [hS ha.1 hb.1 (Nat.le_antisymm (ha.2 b hb.1) (hb.2 a ha.1))]

theorem exists_le (h : IsEarliest S a?) {b : Action} (hb : b ∈ S) :
    ∃ a ∈ S, a? = some a ∧ a.priority ≤ b.priority := by
  cases a? with
  | none => exact absurd (h ▸ hb) (Set.notMem_empty b)
  | some a => exact ⟨a, h.1, rfl, h.2 b hb⟩

/-- What is later than something in `S` makes no difference. -/
theorem of_superset (h : IsEarliest T a?) (hST : S ⊆ T)
    (hlater : ∀ b ∈ T, b ∉ S → ∃ a ∈ S, a.priority < b.priority) : IsEarliest S a? := by
  cases a? with
  | none => exact Set.subset_empty_iff.1 (h ▸ hST)
  | some a =>
    refine ⟨?_, fun b hb => h.2 b (hST hb)⟩
    by_contra ha
    obtain ⟨b, hb, hlt⟩ := hlater a h.1 ha
    exact Nat.not_le_of_lt hlt (h.2 b (hST hb))

end Action.IsEarliest

namespace EofActions

/-- One registration. -/
inductive Call
  | add (states : List Nat) (a : Action)
  | setDefault (a : Action)

namespace Call

/-- The table after a call. -/
def run (t : EofActions) : Call → EofActions
  | add states a => t.add states a
  | setDefault a => t.setDefault a

/-- The action that is registered. -/
def action : Call → Action
  | add _ a => a
  | setDefault a => a

/-- The call is for `state` itself. -/
def addsTo (state : Nat) : Call → Bool
  | add states _ => state ∈ states
  | setDefault _ => false

/-- Whether a default is registered. -/
def isDefault : Call → Bool
  | add _ _ => false
  | setDefault _ => true

theorem eq_setDefault {c : Call} (h : c.isDefault = true) : c = .setDefault c.action := by
  cases c with
  | add => cases h
  | setDefault => rfl

end Call

/-- What is registered after all `calls` in their order. -/
def ofCalls (calls : List Call) : EofActions := calls.foldl Call.run empty

theorem ofCalls_snoc (calls : List Call) (c : Call) :
    ofCalls (calls ++ [c]) = c.run (ofCalls calls) := by
  unfold ofCalls
  rw [List.foldl_append, List.foldl_cons, List.foldl_nil]

/-! ## One call -/

variable {t : EofActions} {state : Nat} {a : Action} {calls calls' : List Call}

/-- The states with an action of their own are in order. -/
def Ascending (t : EofActions) : Prop := t.own.Pairwise (·.1 < ·.1)

theorem add_cons (t : EofActions) (k : Nat) (states : List Nat) (a : Action) :
    t.add (k :: states) a = (t.add [k] a).add states a := rfl

theorem Ascending.add (ht : t.Ascending) (states : List Nat) (a : Action) :
    (t.add states a).Ascending := by
  induction states generalizing t with
  | nil => exact ht
  | cons k states ih =>
    rw [add_cons]
    exact ih (ascending_upsert ht k _)

theorem Ascending.setDefault (ht : t.Ascending) (a : Action) : (t.setDefault a).Ascending :=
  List.pairwise_map.2 ht

theorem lookup_add_single (ht : t.Ascending) (k : Nat) (a : Action) :
    (t.add [k] a).own.lookup k = Action.merge (t.own.lookup k) (some a) := by
  obtain ⟨v?, hv, hasc⟩ := lookup_upsert_self k (fun | none => a | some b => b.earlier a) t.own
  rw [← hasc ht]
  refine Eq.trans hv ?_
  cases v? <;> rfl

/-- Each of the states merges the action into its own one. -/
theorem lookup_add (ht : t.Ascending) (states : List Nat) (a : Action) (state : Nat) :
    (t.add states a).own.lookup state =
      if state ∈ states then Action.merge (t.own.lookup state) (some a)
      else t.own.lookup state := by
  induction states generalizing t with
  | nil => rfl
  | cons k states ih =>
    rw [add_cons, ih (ht.add [k] a)]
    by_cases hk : state = k
    · subst hk
      rw [lookup_add_single ht, Action.merge_merge_self, ite_self, if_pos (List.mem_cons_self ..)]
    · have hkeep : (t.add [k] a).own.lookup state = t.own.lookup state :=
        lookup_upsert_of_ne hk _ t.own
      simp only [hkeep, List.mem_cons, hk, false_or]

theorem lookup_setDefault (t : EofActions) (a : Action) (state : Nat) :
    (t.setDefault a).own.lookup state = (t.own.lookup state).map (·.earlier a) :=
  lookup_map (fun (_ : Nat) (b : Action) => b.earlier a) t.own state

/-! ## A run of calls -/

/-- Some call is for `state` itself. -/
def Named (state : Nat) (calls : List Call) : Prop := ∃ c ∈ calls, c.addsTo state = true

/-- The actions among which `state` gets its own one: those added for it and, after the first of
these, the defaults. -/
def heard (state : Nat) (calls : List Call) : Set Action :=
  {a | ∃ (i : Nat) (c : Call), calls[i]? = some c ∧ c.action = a ∧
    (c.addsTo state = true ∨ c.isDefault = true ∧ Named state (calls.take i))}

theorem mem_heard_snoc {c : Call} : a ∈ heard state (calls ++ [c]) ↔
    a ∈ heard state calls ∨
      c.action = a ∧ (c.addsTo state = true ∨ c.isDefault = true ∧ Named state calls) := by
  constructor
  · rintro ⟨i, b, hi, ha, hb⟩
    rcases getElem?_snoc_eq_some_iff.1 hi with hi | ⟨rfl, rfl⟩
    · rw [List.take_append_of_le_length (Nat.le_of_lt (List.getElem?_eq_some_iff.1 hi).1)] at hb
      exact .inl ⟨i, b, hi, ha, hb⟩
    · rw [List.take_left] at hb
      exact .inr ⟨ha, hb⟩
  · rintro (⟨i, b, hi, ha, hb⟩ | ⟨ha, hc⟩)
    · refine ⟨i, b, getElem?_snoc_eq_some_iff.2 (.inl hi), ha, ?_⟩
      rwa [List.take_append_of_le_length (Nat.le_of_lt (List.getElem?_eq_some_iff.1 hi).1)]
    · refine ⟨calls.length, c, getElem?_snoc_eq_some_iff.2 (.inr ⟨rfl, rfl⟩), ha, ?_⟩
      rwa [List.take_left]

theorem heard_snoc_of_pos {c : Call}
    (h : c.addsTo state = true ∨ c.isDefault = true ∧ Named state calls) :
    heard state (calls ++ [c]) = insert c.action (heard state calls) := by
  ext a
  rw [mem_heard_snoc, Set.mem_insert_iff, eq_comm, or_comm, and_iff_left h]

theorem heard_snoc_of_neg {c : Call}
    (h : ¬(c.addsTo state = true ∨ c.isDefault = true ∧ Named state calls)) :
    heard state (calls ++ [c]) = heard state calls := by
  ext a
  rw [mem_heard_snoc, or_iff_left fun ha => h ha.2]

theorem heard_eq_empty_iff : heard state calls = ∅ ↔ ¬Named state calls := by
  constructor
  · rintro h ⟨c, hc, hadds⟩
    obtain ⟨i, hi⟩ := List.mem_iff_getElem?.1 hc
    have : c.action ∈ heard state calls := ⟨i, c, hi, rfl, .inl hadds⟩
    rw [h] at this
    exact this
  · intro h
    refine Set.eq_empty_iff_forall_notMem.2 fun a ⟨i, c, hi, _, hc⟩ => h ?_
    rcases hc with hc | ⟨-, b, hb, hadds⟩
    · exact ⟨c, List.mem_of_getElem? hi, hc⟩
    · exact ⟨b, List.mem_of_mem_take hb, hadds⟩

theorem ascending_ofCalls (calls : List Call) : (ofCalls calls).Ascending := by
  induction calls using List.reverseRecOn with
  | nil => exact List.Pairwise.nil
  | append_singleton calls c ih =>
    rw [ofCalls_snoc]
    cases c with
    | add states a => exact ih.add states a
    | setDefault a => exact ih.setDefault a

theorem isEarliest_own (state : Nat) (calls : List Call) :
    Action.IsEarliest (heard state calls) ((ofCalls calls).own.lookup state) := by
  induction calls using List.reverseRecOn with
  | nil => exact heard_eq_empty_iff.2 fun ⟨_, hc, _⟩ => List.not_mem_nil hc
  | append_singleton calls c ih =>
    rw [ofCalls_snoc]
    cases c with
    | add states a =>
      rw [Call.run, lookup_add (ascending_ofCalls calls)]
      split
      · next hk =>
        rw [heard_snoc_of_pos (.inl (by simpa [Call.addsTo] using hk))]
        exact ih.merge a
      · next hk =>
        rw [heard_snoc_of_neg (by simp [Call.addsTo, Call.isDefault, hk])]
        exact ih
    | setDefault a =>
      rw [Call.run, lookup_setDefault]
      cases hown : (ofCalls calls).own.lookup state with
      | none =>
        -- nothing has been added for the state, so it does not hear the default
        rw [hown] at ih
        have hnamed : ¬Named state calls := heard_eq_empty_iff.1 ih
        rw [heard_snoc_of_neg (by simp [Call.addsTo, hnamed])]
        exact ih
      | some b =>
        rw [hown] at ih
        have hnamed : Named state calls := by
          by_contra h
          exact absurd (heard_eq_empty_iff.2 h ▸ ih.1) (Set.notMem_empty b)
        rw [heard_snoc_of_pos (.inr ⟨rfl, hnamed⟩)]
        exact ih.merge a

/-- The actions registered as defaults. -/
def defaults (calls : List Call) : Set Action := {a | .setDefault a ∈ calls}

theorem isEarliest_default (calls : List Call) :
    Action.IsEarliest (defaults calls) (ofCalls calls).default? := by
  induction calls using List.reverseRecOn with
  | nil => simp [defaults, Action.IsEarliest, ofCalls, empty]
  | append_singleton calls c ih =>
    rw [ofCalls_snoc]
    cases c with
    | add states a =>
      have hdefaults : defaults (calls ++ [.add states a]) = defaults calls := by
        ext b
        simp [defaults]
      exact hdefaults ▸ ih
    | setDefault a =>
      have hdefaults : defaults (calls ++ [.setDefault a]) = insert a (defaults calls) := by
        ext b
        simp [defaults, or_comm]
      exact hdefaults ▸ ih.merge a

/-- A state without actions of its own has the default. -/
theorem isEarliest_action? (state : Nat) (calls : List Call) :
    (Named state calls →
        Action.IsEarliest (heard state calls) ((ofCalls calls).action? state)) ∧
      (¬Named state calls →
        Action.IsEarliest (defaults calls) ((ofCalls calls).action? state)) := by
  have hown := isEarliest_own state calls
  unfold action?
  cases h : (ofCalls calls).own.lookup state with
  | none =>
    rw [h] at hown
    exact ⟨fun hnamed => absurd hnamed (heard_eq_empty_iff.1 hown),
      fun _ => isEarliest_default calls⟩
  | some a =>
    rw [h] at hown
    refine ⟨fun _ => hown, fun hnamed => ?_⟩
    exact absurd (heard_eq_empty_iff.2 hnamed ▸ hown.1) (Set.notMem_empty a)

/-! ## Other orders -/

/-- Every default is on a later line than some action for `state`. -/
def Leads (state : Nat) (calls : List Call) : Prop :=
  ∀ d ∈ calls, d.isDefault = true →
    ∃ c ∈ calls, c.addsTo state = true ∧ c.action.priority < d.action.priority

/-- The actions added for `state`. -/
def added (state : Nat) (calls : List Call) : Set Action :=
  {a | ∃ c ∈ calls, c.addsTo state = true ∧ c.action = a}

theorem added_subset_heard : added state calls ⊆ heard state calls := by
  rintro _ ⟨c, hc, hadds, rfl⟩
  obtain ⟨i, hi⟩ := List.mem_iff_getElem?.1 hc
  exact ⟨i, c, hi, rfl, .inl hadds⟩

theorem Leads.isEarliest (h : Leads state calls) (hnamed : Named state calls) :
    Action.IsEarliest (added state calls) ((ofCalls calls).action? state) := by
  refine ((isEarliest_action? state calls).1 hnamed).of_superset added_subset_heard ?_
  rintro _ ⟨i, c, hi, rfl, hc⟩ hnot
  have hmem := List.mem_of_getElem? hi
  rcases hc with hadds | ⟨hdefault, -⟩
  · exact absurd ⟨c, hmem, hadds, rfl⟩ hnot
  · obtain ⟨b, hb, hadds, hlt⟩ := h c hmem hdefault
    exact ⟨b.action, ⟨b, hb, hadds, rfl⟩, hlt⟩

section Perm

variable (hperm : calls'.Perm calls)
include hperm

theorem named_perm : Named state calls' ↔ Named state calls := by
  simp only [Named, hperm.mem_iff]

theorem leads_perm : Leads state calls' ↔ Leads state calls := by
  simp only [Leads, hperm.mem_iff]

theorem added_perm : added state calls' = added state calls := by
  simp only [added, hperm.mem_iff]

theorem defaults_perm : defaults calls' = defaults calls := by
  simp only [defaults, hperm.mem_iff]

end Perm

section Lines

variable (hlines : (calls.map (·.action.priority)).Nodup)
include hlines

theorem eq_of_priority_eq {c c' : Call} (hc : c ∈ calls) (hc' : c' ∈ calls)
    (h : c.action.priority = c'.action.priority) : c = c' :=
  List.inj_on_of_nodup_map hlines hc hc' h

theorem injOn_added : Set.InjOn Action.priority (added state calls) := by
  rintro _ ⟨c, hc, -, rfl⟩ _ ⟨c', hc', -, rfl⟩ h
  rw [eq_of_priority_eq hlines hc hc' h]

theorem injOn_defaults : Set.InjOn Action.priority (defaults calls) := by
  intro a ha b hb h
  exact congrArg Call.action (eq_of_priority_eq hlines ha hb h)

theorem action?_eq_of_perm (hperm : calls'.Perm calls) (h : Named state calls → Leads state calls) :
    (ofCalls calls').action? state = (ofCalls calls).action? state := by
  by_cases hnamed : Named state calls
  · have h' := ((leads_perm hperm).2 (h hnamed)).isEarliest ((named_perm hperm).2 hnamed)
    rw [added_perm hperm] at h'
    exact h'.unique (injOn_added hlines) ((h hnamed).isEarliest hnamed)
  · have h' := (isEarliest_action? state calls').2 (mt (named_perm hperm).1 hnamed)
    rw [defaults_perm hperm] at h'
    exact h'.unique (injOn_defaults hlines) ((isEarliest_action? state calls).2 hnamed)

end Lines

/-- The calls with those for `state` moved to the front. -/
def ownFirst (state : Nat) (calls : List Call) : List Call :=
  calls.filter (·.addsTo state) ++ calls.filter (!·.addsTo state)

/-- The calls with those for `state` moved to the end. -/
def ownLast (state : Nat) (calls : List Call) : List Call :=
  calls.filter (!·.addsTo state) ++ calls.filter (·.addsTo state)

theorem ownFirst_perm (state : Nat) (calls : List Call) : (ownFirst state calls).Perm calls :=
  List.filter_append_perm ..

theorem ownLast_perm (state : Nat) (calls : List Call) : (ownLast state calls).Perm calls :=
  List.perm_append_comm.trans (ownFirst_perm state calls)

theorem Call.addsTo_of_isDefault {c : Call} (h : c.isDefault = true) (state : Nat) :
    c.addsTo state = false := by
  rw [eq_setDefault h]
  rfl

/-- A state whose actions are all there before hears every default. -/
theorem mem_heard_ownFirst {d : Call} (hnamed : Named state calls) (hd : d ∈ calls)
    (hdefault : d.isDefault = true) : d.action ∈ heard state (ownFirst state calls) := by
  have hmem : d ∈ calls.filter (!·.addsTo state) := by
    simp [hd, d.addsTo_of_isDefault hdefault]
  obtain ⟨i, hi⟩ := List.mem_iff_getElem?.1 hmem
  refine ⟨(calls.filter (·.addsTo state)).length + i, d, ?_, rfl, .inr ⟨hdefault, ?_⟩⟩
  · rw [ownFirst, List.getElem?_append_right (Nat.le_add_right ..), Nat.add_sub_cancel_left, hi]
  · obtain ⟨c, hc, hadds⟩ := hnamed
    rw [ownFirst, List.take_length_add_append]
    exact ⟨c, List.mem_append_left _ (List.mem_filter.2 ⟨hc, hadds⟩), hadds⟩

/-- A state whose actions are added last hears no default. -/
theorem heard_ownLast : heard state (ownLast state calls) ⊆ added state calls := by
  rintro _ ⟨i, c, hi, rfl, hc⟩
  have hmem : c ∈ calls := (ownLast_perm state calls).mem_iff.1 (List.mem_of_getElem? hi)
  rcases hc with hadds | ⟨hdefault, b, hb, hadds⟩
  · exact ⟨c, hmem, hadds, rfl⟩
  · rw [ownLast, List.getElem?_append] at hi
    split at hi
    · next hlt =>
      rw [ownLast, List.take_append_of_le_length (Nat.le_of_lt hlt)] at hb
      have := (List.mem_filter.1 (List.mem_of_mem_take hb)).2
      simp [hadds] at this
    · have := (List.mem_filter.1 (List.mem_of_getElem? hi)).2
      simp [c.addsTo_of_isDefault hdefault] at this

/-- The state has the same action after the calls in any order exactly if no default is on an
earlier line than all the actions added for it. -/
theorem action?_agrees_iff (hlines : (calls.map (·.action.priority)).Nodup) :
    (∀ calls', calls'.Perm calls →
        (ofCalls calls').action? state = (ofCalls calls).action? state) ↔
      (Named state calls → Leads state calls) := by
  refine ⟨fun h hnamed d hd hdefault => ?_, fun h calls' hperm => action?_eq_of_perm hlines hperm h⟩
  have hfirst := (isEarliest_action? state (ownFirst state calls)).1
    ((named_perm (ownFirst_perm state calls)).2 hnamed)
  have hlast := (isEarliest_action? state (ownLast state calls)).1
    ((named_perm (ownLast_perm state calls)).2 hnamed)
  rw [h _ (ownFirst_perm state calls)] at hfirst
  rw [h _ (ownLast_perm state calls)] at hlast
  -- the default is heard in the first order, so what the state has is on no later line
  obtain ⟨a, -, ha, hle⟩ := hfirst.exists_le (mem_heard_ownFirst hnamed hd hdefault)
  rw [ha] at hlast
  obtain ⟨c, hc, hadds, rfl⟩ := heard_ownLast hlast.1
  refine ⟨c, hc, hadds, Nat.lt_of_le_of_ne hle fun heq => ?_⟩
  obtain rfl := eq_of_priority_eq hlines hc hd heq
  rw [c.addsTo_of_isDefault hdefault] at hadds
  cases hadds

/-- Of actions on lines of their own, a state has the earliest of those added for it and of the
defaults after the first of these, or the earliest default if none is added for it. The order of the
calls makes no difference to it exactly if no default is on an earlier line than all the actions
added for it. -/
theorem order_matters_for_early_defaults (calls : List Call)
    (hlines : (calls.map (·.action.priority)).Nodup) (state : Nat) :
    (Named state calls → Action.IsEarliest (heard state calls) ((ofCalls calls).action? state)) ∧
      (¬Named state calls →
        Action.IsEarliest (defaults calls) ((ofCalls calls).action? state)) ∧
      ((∀ calls', calls'.Perm calls →
          (ofCalls calls').action? state = (ofCalls calls).action? state) ↔
        (Named state calls → Leads state calls)) := by
  obtain ⟨hnamed, hdefaults⟩ := isEarliest_action? state calls
  exact ⟨hnamed, hdefaults, action?_agrees_iff hlines⟩

/-- Lexical state 1 has an action on a later line than the default, state 2 also one on an earlier
line. -/
def lateDefault : List Call :=
  [.add [1, 2] ⟨"own", 20, false⟩, .setDefault ⟨"default", 5, false⟩, .add [2] ⟨"first", 3, false⟩]

theorem order_matters_for_early_defaults_lateDefault :
    (lateDefault.map (·.action.priority)).Nodup ∧
      (Named 1 lateDefault →
        Action.IsEarliest (heard 1 lateDefault) ((ofCalls lateDefault).action? 1)) ∧
      (¬Named 1 lateDefault →
        Action.IsEarliest (defaults lateDefault) ((ofCalls lateDefault).action? 1)) ∧
      ((∀ calls', calls'.Perm lateDefault →
          (ofCalls calls').action? 1 = (ofCalls lateDefault).action? 1) ↔
        (Named 1 lateDefault → Leads 1 lateDefault)) :=
  ⟨by decide, order_matters_for_early_defaults lateDefault (by decide) 1⟩

/-- An action is added to a state beside a default of an earlier line, but the default replaces it
if it is set afterwards. -/
theorem add_ignores_earlier_default :
    ¬∀ calls calls' : List Call, (calls.map (·.action.priority)).Nodup → calls'.Perm calls →
      ∀ state, (ofCalls calls').action? state = (ofCalls calls).action? state := by
  intro h
  have hswap := h [.add [1] ⟨"own", 20, false⟩, .setDefault ⟨"default", 5, false⟩]
    [.setDefault ⟨"default", 5, false⟩, .add [1] ⟨"own", 20, false⟩]
    (by decide) (.swap _ _ _) 1
  exact absurd hswap (by decide)

end EofActions

end ScannerGen
