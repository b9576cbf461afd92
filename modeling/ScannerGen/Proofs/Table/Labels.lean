import Mathlib.Data.List.Forall2
import ScannerGen.Proofs.Grouping
import ScannerGen.Proofs.Table.Folding

/-
  Labels of actions. Two entries share a label exactly if their actions are alike, the labels in use
  are those from 1 on without a gap, and the action kept under a label is that of the first entry
  with this label (`Labels`, proved for `labelActions` in `labels_labelActions`). In the tables the
  states come first and the ends of the input after them (`Dfa.labels_tables`). So the action of a
  state in the tables is that of the lowest state with its label (`Dfa.exists_lowest`).
-/

namespace ScannerGen

/-- A label stands for actions with one code or, if `strict`, of one line and with one text. -/
def Action.Alike (strict : Bool) (a b : Action) : Prop :=
  if strict then a.priority = b.priority ∧ a.content = b.content else a.code = b.code

theorem Action.labelKey_eq_iff {strict : Bool} {a b : Action} :
    a.labelKey strict = b.labelKey strict ↔ a.Alike strict b := by
  cases strict <;> simp [labelKey, Alike]

namespace Action.Alike

variable {strict : Bool} {a b : Action}

theorem code_eq (h : a.Alike strict b) : a.code = b.code := by
  cases strict with
  | false => exact h
  | true => exact congrArg trim h.2

theorem priority_eq (h : a.Alike strict b) (hstrict : strict = true) : a.priority = b.priority := by
  subst hstrict
  exact h.1

end Action.Alike

/-- `labels` are the labels of `entries`, and `actions` what the labels from 1 on stand for. -/
structure Labels (strict : Bool) (entries : List (Option Action)) (labels : List Nat)
    (actions : Array Action) : Prop where
  length_eq : labels.length = entries.length
  zero_iff : ∀ {i : Nat}, i < entries.length → (labels[i]? = some 0 ↔ entries[i]? = some none)
  eq_iff : ∀ {i j : Nat} {a b : Action}, entries[i]? = some (some a) →
    entries[j]? = some (some b) → (labels[i]? = labels[j]? ↔ a.Alike strict b)
  /-- Apart from 0, the labels in use are those from 1 to the number of `actions`. -/
  mem_iff : ∀ n : Nat, n + 1 ∈ labels ↔ n < actions.size
  alike : ∀ {i n : Nat} {a : Action}, entries[i]? = some (some a) → labels[i]? = some (n + 1) →
    ∃ b, actions[n]? = some b ∧ b.Alike strict a
  /-- The first entry with a label has the action that is kept. -/
  first : ∀ {n : Nat} {b : Action}, actions[n]? = some b →
    ∃ i : Nat, entries[i]? = some (some b) ∧ labels[i]? = some (n + 1) ∧
      ∀ j : Nat, labels[j]? = some (n + 1) → i ≤ j

/-- The first entry with the label of an action has the action that is kept. -/
theorem Labels.exists_first {strict : Bool} {entries : List (Option Action)} {labels : List Nat}
    {actions : Array Action} (h : Labels strict entries labels actions) {i : Nat} {a : Action}
    (hi : entries[i]? = some (some a)) :
    ∃ n b j, labels[i]? = some (n + 1) ∧ actions[n]? = some b ∧ b.Alike strict a ∧ j ≤ i ∧
      entries[j]? = some (some b) ∧ labels[j]? = some (n + 1) ∧
      ∀ l : Nat, labels[l]? = some (n + 1) → j ≤ l := by
  have hlt : i < entries.length := (List.getElem?_eq_some_iff.1 hi).1
  obtain ⟨m, hlabel⟩ : ∃ m, labels[i]? = some m :=
    ⟨_, List.getElem?_eq_getElem (h.length_eq ▸ hlt)⟩
  cases m with
  | zero =>
    rw [h.zero_iff hlt, hi] at hlabel
    cases hlabel
  | succ n =>
    obtain ⟨b, hb, halike⟩ := h.alike hi hlabel
    obtain ⟨j, hj, hjlabel, hfirst⟩ := h.first hb
    exact ⟨n, b, j, hlabel, hb, halike, hfirst i hlabel, hj, hjlabel, hfirst⟩

section Labelling

variable {strict : Bool} {entries : List (Option Action)} {labels : List Nat}
  {actions : Array Action}

/-- The label stands for an action with the key of `a?`, or for none. -/
def IsLabel (strict : Bool) (actions : Array Action) (label : Nat) (a? : Option Action) : Prop :=
  match a? with
  | none => label = 0
  | some a => ∃ j b, label = j + 1 ∧ actions[j]? = some b ∧ b.labelKey strict = a.labelKey strict

theorem spread_spec {l : List (Option Action)} {groups : List Nat}
    (h : List.Forall₂ (fun j a => ∃ b, actions[j]? = some b ∧
      b.labelKey strict = a.labelKey strict) groups (l.filterMap id)) :
    List.Forall₂ (IsLabel strict actions) (labelActions.spread groups l) l := by
  induction l generalizing groups with
  | nil => cases groups <;> exact .nil
  | cons a? l ih =>
    cases a? with
    | none =>
      rw [List.filterMap_cons_none rfl] at h
      cases groups <;> exact .cons rfl (ih h)
    | some a =>
      change List.Forall₂ _ groups (a :: l.filterMap id) at h
      cases h with
      | @cons j _ groups _ hj h =>
        obtain ⟨b, hb, hkey⟩ := hj
        exact .cons ⟨j, b, rfl, hb, hkey⟩ (ih h)

theorem labelActions_spec (strict : Bool) (l : List (Option Action)) :
    List.Forall₂ (IsLabel strict (labelActions strict l).1) (labelActions strict l).2 l := by
  have hg := Grouping.ofKeys_ofList (Action.labelKey strict) (l.filterMap id)
  refine spread_spec (List.forall₂_iff_get.2 ⟨?_, fun j hj hj' => ?_⟩)
  · rw [Array.length_toList, hg.size_groups]
  · refine hg.leader_key (i := j) (List.getElem?_eq_getElem hj') ?_
    rw [← Array.getElem?_toList, List.getElem?_eq_getElem hj]
    rfl

section

variable (h : List.Forall₂ (IsLabel strict actions) labels entries)
include h

theorem isLabel_getElem? {i : Nat} {a? : Option Action} (hi : entries[i]? = some a?) :
    ∃ n, labels[i]? = some n ∧ IsLabel strict actions n a? := by
  obtain ⟨hlt, rfl⟩ := List.getElem?_eq_some_iff.1 hi
  have hlt' : i < labels.length := h.length_eq ▸ hlt
  exact ⟨labels[i], List.getElem?_eq_getElem hlt', h.get hlt' hlt⟩

theorem isLabel_some {i : Nat} {a : Action} (hi : entries[i]? = some (some a)) :
    ∃ n b, labels[i]? = some (n + 1) ∧ actions[n]? = some b ∧
      b.labelKey strict = a.labelKey strict := by
  obtain ⟨_, hn, n, b, rfl, hb, hkey⟩ := isLabel_getElem? h hi
  exact ⟨n, b, hn, hb, hkey⟩

theorem isLabel_succ {i n : Nat} (hi : labels[i]? = some (n + 1)) :
    ∃ a b, entries[i]? = some (some a) ∧ actions[n]? = some b ∧
      b.labelKey strict = a.labelKey strict := by
  have hlt : i < entries.length := h.length_eq ▸ (List.getElem?_eq_some_iff.1 hi).1
  obtain ⟨m, hm, hlabel⟩ := isLabel_getElem? h (List.getElem?_eq_getElem hlt)
  rw [hi, Option.some.injEq] at hm
  subst hm
  cases ha : entries[i] with
  | none =>
    rw [ha] at hlabel
    exact absurd hlabel (Nat.succ_ne_zero n)
  | some a =>
    rw [ha] at hlabel
    obtain ⟨_, b, hn, hb, hkey⟩ := hlabel
    rw [← Nat.succ.inj hn] at hb
    exact ⟨a, b, ha ▸ List.getElem?_eq_getElem hlt, hb, hkey⟩

end

/-- An action is kept under one label only. -/
theorem labelActions_unique {n m : Nat} {a b : Action}
    (ha : (labelActions strict entries).1[n]? = some a)
    (hb : (labelActions strict entries).1[m]? = some b)
    (h : a.labelKey strict = b.labelKey strict) : n = m :=
  (Grouping.ofKeys_ofList (Action.labelKey strict) (entries.filterMap id)).leader_unique ha hb h

/-- The action kept under a label is the first of those that may have this label. -/
theorem find?_labelActions {n : Nat} {b : Action}
    (hb : (labelActions strict entries).1[n]? = some b) :
    entries.find? (Option.any fun a => a.labelKey strict = b.labelKey strict) = some (some b) := by
  have hg := Grouping.ofKeys_ofList (Action.labelKey strict) (entries.filterMap id)
  have hfind := hg.find?_leader hb
  rw [List.find?_filterMap] at hfind
  obtain ⟨_, hentry, rfl⟩ := Option.bind_eq_some_iff.1 hfind
  exact hentry

theorem labelActions_first {n : Nat} {b : Action}
    (hb : (labelActions strict entries).1[n]? = some b) :
    ∃ i : Nat, entries[i]? = some (some b) ∧ (labelActions strict entries).2[i]? = some (n + 1) ∧
      ∀ j : Nat, (labelActions strict entries).2[j]? = some (n + 1) → i ≤ j := by
  have hspec := labelActions_spec strict entries
  obtain ⟨-, i, hlt, hi, hbefore⟩ := List.find?_eq_some_iff_getElem.1 (find?_labelActions hb)
  have hi : entries[i]? = some (some b) := hi ▸ List.getElem?_eq_getElem hlt
  obtain ⟨m, c, hm, hc, hkey⟩ := isLabel_some hspec hi
  refine ⟨i, hi, labelActions_unique hc hb hkey ▸ hm, fun j hj => Nat.le_of_not_lt fun hji => ?_⟩
  -- an earlier entry with this label would have been found first
  obtain ⟨a, c, ha, hc, hkey⟩ := isLabel_succ hspec hj
  obtain rfl : b = c := Option.some.inj (hb.symm.trans hc)
  have := hbefore j hji
  rw [(List.getElem?_eq_some_iff.1 ha).2] at this
  simp [hkey] at this

theorem labels_labelActions (strict : Bool) (entries : List (Option Action)) :
    Labels strict entries (labelActions strict entries).2 (labelActions strict entries).1 := by
  have hspec := labelActions_spec strict entries
  exact {
    length_eq := hspec.length_eq
    zero_iff {i} hi := by
      cases ha : entries[i] with
      | none =>
        have hnone : entries[i]? = some none := ha ▸ List.getElem?_eq_getElem hi
        obtain ⟨_, hn, rfl⟩ := isLabel_getElem? hspec hnone
        exact iff_of_true hn hnone
      | some a =>
        have hsome : entries[i]? = some (some a) := ha ▸ List.getElem?_eq_getElem hi
        obtain ⟨n, _, hn, -, -⟩ := isLabel_some hspec hsome
        simp [hn, hsome]
    eq_iff {i j a b} hi hj := by
      obtain ⟨n, a', hn, ha', hkeya⟩ := isLabel_some hspec hi
      obtain ⟨m, b', hm, hb', hkeyb⟩ := isLabel_some hspec hj
      rw [hn, hm, ← Action.labelKey_eq_iff, ← hkeya, ← hkeyb, Option.some.injEq,
        Nat.add_right_cancel_iff]
      constructor
      · rintro rfl
        rw [Option.some.inj (ha'.symm.trans hb')]
      · exact labelActions_unique ha' hb'
    mem_iff n := by
      constructor
      · intro hn
        obtain ⟨i, hi⟩ := List.mem_iff_getElem?.1 hn
        obtain ⟨_, _, -, hb, -⟩ := isLabel_succ hspec hi
        exact (Array.getElem?_eq_some_iff.1 hb).1
      · intro hn
        obtain ⟨i, -, hi, -⟩ := labelActions_first (Array.getElem?_eq_getElem hn)
        exact List.mem_of_getElem? hi
    alike {i n a} hi hn := by
      obtain ⟨a', b, ha, hb, hkey⟩ := isLabel_succ hspec hn
      obtain rfl : a' = a := Option.some.inj (Option.some.inj (ha.symm.trans hi))
      exact ⟨b, hb, Action.labelKey_eq_iff.1 hkey⟩
    first := labelActions_first }

end Labelling

/-- The actions that have labels in the tables: those of the states, then those of the ends of the
input. -/
def Dfa.entries (d : Dfa) (eof : EofActions) (numLex : Nat) : List (Option Action) :=
  d.states.toList.map (·.action?) ++ (List.range numLex).map eof.action?

/-- The action of a state in the automaton itself. -/
def Dfa.ownAction? (d : Dfa) (i : Nat) : Option Action := d.states[i]?.bind (·.action?)

/-- The labels of all states, then those of the ends of the input. -/
def Tables.labels (t : Tables) : List Nat := t.actionMap.toList ++ t.eofActionMap.toList

theorem Tables.getElem?_labels {t : Tables} {i : Nat} (hi : i < t.actionMap.size) :
    t.labels[i]? = t.actionMap[i]? := by
  rw [labels, List.getElem?_append_left (by simpa using hi), Array.getElem?_toList]

/-- `j` is the lowest state with the label of state `i`. -/
structure Tables.IsLowest (t : Tables) (i j : Nat) : Prop where
  label_eq : t.actionMap[j]? = t.actionMap[i]?
  le : ∀ l : Nat, t.actionMap[l]? = t.actionMap[i]? → j ≤ l

namespace Dfa

variable (d : Dfa) (eof : EofActions) (numLex : Nat) (encoding : Encoding) (strict : Bool)

@[simp] theorem length_entries : (d.entries eof numLex).length = d.size + numLex := by
  simp [entries, size]

theorem getElem?_entries {i : Nat} {a : Action} :
    i < d.size ∧ (d.entries eof numLex)[i]? = some (some a) ↔ d.ownAction? i = some a := by
  by_cases hi : i < d.size
  · have hget : (d.entries eof numLex)[i]? = some (d.states[i].action?) := by
      rw [entries, List.getElem?_append_left (by simpa [size] using hi), List.getElem?_map,
        Array.getElem?_toList, Array.getElem?_eq_getElem hi, Option.map_some]
    rw [and_iff_right hi, hget, ownAction?, Array.getElem?_eq_getElem hi, Option.bind_some,
      Option.some.injEq]
  · rw [ownAction?, Array.getElem?_eq_none (Nat.le_of_not_lt hi)]
    simp [hi]

/-- The tables label the states and the ends of the input in one go. -/
theorem labels_tables : Labels strict (d.entries eof numLex)
    (d.tables eof numLex encoding strict).labels (d.tables eof numLex encoding strict).actions := by
  have hsplit : (d.tables eof numLex encoding strict).labels =
      (labelActions strict (d.entries eof numLex)).2 := by
    simp [Tables.labels, tables, foldTables, entries]
  rw [hsplit]
  exact labels_labelActions strict (d.entries eof numLex)

theorem length_labelActions :
    (labelActions strict (d.entries eof numLex)).2.length = d.size + numLex := by
  rw [(labels_labelActions strict _).length_eq, length_entries]

@[simp] theorem size_actionMap :
    (d.tables eof numLex encoding strict).actionMap.size = d.size := by
  show ((labelActions strict (d.entries eof numLex)).2.take d.size).toArray.size = d.size
  simp [length_labelActions]

@[simp] theorem size_eofActionMap :
    (d.tables eof numLex encoding strict).eofActionMap.size = numLex := by
  show ((labelActions strict (d.entries eof numLex)).2.drop d.size).toArray.size = numLex
  simp [length_labelActions]

/-- There is a label for every state and every lexical state, and together they are the labels of
all the actions. -/
theorem tables_are_labelled :
    (d.tables eof numLex encoding strict).actionMap.size = d.size ∧
      (d.tables eof numLex encoding strict).eofActionMap.size = numLex ∧
      Labels strict (d.entries eof numLex) (d.tables eof numLex encoding strict).labels
        (d.tables eof numLex encoding strict).actions :=
  ⟨size_actionMap .., size_eofActionMap .., labels_tables ..⟩

/-- The codes "a" and " a " have one label, unless `strict`; the end of the input comes last. -/
example : (repeats.tables (EofActions.empty.add [1] ⟨"b", 7, false⟩) 2 .dense false).labels =
    [0, 1, 1, 0, 0, 2] := by decide +kernel

example : (repeats.tables (EofActions.empty.add [1] ⟨"b", 7, false⟩) 2 .dense true).labels =
    [0, 1, 2, 0, 0, 3] := by decide +kernel

/-- The action of a state in the tables is that of the lowest state with its label. -/
theorem exists_lowest {i : Nat} {own : Action} (hown : d.ownAction? i = some own) :
    ∃ a j, (d.tables eof numLex encoding strict).action? i = some a ∧ a.Alike strict own ∧
      (d.tables eof numLex encoding strict).IsLowest i j ∧ d.ownAction? j = some a := by
  have hsize := size_actionMap d eof numLex encoding strict
  obtain ⟨hilt, hentry⟩ := (getElem?_entries d eof numLex).2 hown
  obtain ⟨n, a, j, hi, ha, halike, hle, hj, hjlabel, hfirst⟩ :=
    (labels_tables d eof numLex encoding strict).exists_first hentry
  have hjlt : j < d.size := Nat.lt_of_le_of_lt hle hilt
  rw [Tables.getElem?_labels (hsize ▸ hilt)] at hi
  rw [Tables.getElem?_labels (hsize ▸ hjlt)] at hjlabel
  refine ⟨a, j, ?_, halike, ⟨hjlabel.trans hi.symm, fun l hl => ?_⟩,
    (getElem?_entries d eof numLex).1 ⟨hjlt, hj⟩⟩
  · unfold Tables.action?
    rw [hi]
    exact ha
  · rw [hi] at hl
    refine hfirst l ?_
    rw [Tables.getElem?_labels (Array.getElem?_eq_some_iff.1 hl).1, hl]

/-- The action of a state in the tables has the code of its own one, and if `strict` its line. -/
theorem exists_action {d : Dfa} {eof : EofActions} {numLex : Nat} {encoding : Encoding}
    {strict : Bool} {i : Nat} {s : DfaState} {a : Action} (hs : d.states[i]? = some s)
    (ha : s.action? = some a) :
    ∃ b, (d.tables eof numLex encoding strict).action? i = some b ∧ b.code = a.code ∧
      (strict = true → b.priority = a.priority) := by
  have hown : d.ownAction? i = some a := by rw [ownAction?, hs, Option.bind_some, ha]
  obtain ⟨b, -, hb, halike, -⟩ := d.exists_lowest eof numLex encoding strict hown
  exact ⟨b, hb, halike.code_eq, halike.priority_eq⟩

end Dfa

end ScannerGen
