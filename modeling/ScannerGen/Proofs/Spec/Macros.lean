import Mathlib.Data.Finset.Card
import Mathlib.Order.Monotone.Basic
import ScannerGen.Spec.MacroTable

/-
  Expressions over a macro table. An expression is grounded if all macros that it reaches are
  defined and none is defined in terms of itself. Following definitions as deep as the table has
  entries is then deep enough, and the value of a use is that of its definition (`follow_eq`). Of
  a grounded expression nothing is left to resolve in what it resolves to, and a function that
  commutes with substitution has the same value there (`follow_resolve`).
-/

namespace ScannerGen

namespace Regex

/-- The value hangs on no macros but those that the expression uses. -/
def Local {α : Type} (eval : (String → α) → Regex → α) : Prop :=
  ∀ f g r, (∀ name ∈ r.macroUses, f name = g name) → eval f r = eval g r

/-- To substitute first makes no difference. -/
def Commutes {α : Type} (eval : (String → α) → Regex → α) : Prop :=
  ∀ f g r, eval f (r.subst g) = eval (fun name => eval f (g name)) r

/-- The expression uses no macros. -/
def Closed (r : Regex) : Prop := r.macroUses = []

instance (r : Regex) : Decidable r.Closed := inferInstanceAs (Decidable (_ = _))

@[simp] theorem macroUses_alt (r s : Regex) : (alt r s).macroUses = r.macroUses ++ s.macroUses := by
  simp [macroUses, leaves]

@[simp] theorem macroUses_cat (r s : Regex) : (cat r s).macroUses = r.macroUses ++ s.macroUses := by
  simp [macroUses, leaves]

@[simp] theorem macroUses_use (name : String) : (leaf (.use name)).macroUses = [name] := rfl

theorem mem_macroUses {r : Regex} {name : String} : name ∈ r.macroUses ↔ .use name ∈ r.leaves := by
  unfold macroUses
  rw [List.mem_filterMap]
  constructor
  · intro ⟨l, hl, h⟩
    cases l <;> simp_all
  · exact fun h => ⟨_, h, rfl⟩

/-- The value hangs on those of the parts, and that of a use on that of the macro. -/
structure Compositional {α : Type} (eval : (String → α) → Regex → α) : Prop where
  alt : ∀ {f g r s}, eval f r = eval g r → eval f s = eval g s →
    eval f (.alt r s) = eval g (.alt r s)
  cat : ∀ {f g r s}, eval f r = eval g r → eval f s = eval g s →
    eval f (.cat r s) = eval g (.cat r s)
  star : ∀ {f g r}, eval f r = eval g r → eval f (.star r) = eval g (.star r)
  plus : ∀ {f g r}, eval f r = eval g r → eval f (.plus r) = eval g (.plus r)
  opt : ∀ {f g r}, eval f r = eval g r → eval f (.opt r) = eval g (.opt r)
  compl : ∀ {f g r}, eval f r = eval g r → eval f (.compl r) = eval g (.compl r)
  upTo : ∀ {f g r}, eval f r = eval g r → eval f (.upTo r) = eval g (.upTo r)
  one : ∀ {f g q}, eval f (.one q) = eval g (.one q)
  text : ∀ {f g s caseless}, eval f (.text s caseless) = eval g (.text s caseless)
  use : ∀ {f g name}, f name = g name → eval f (.use name) = eval g (.use name)

theorem Compositional.isLocal {α : Type} {eval : (String → α) → Regex → α}
    (he : Compositional eval) : Local eval := by
  intro f g r h
  induction r with
  | alt r s hr hs =>
    simp only [macroUses_alt, List.mem_append] at h
    exact he.alt (hr fun n hn => h n (.inl hn)) (hs fun n hn => h n (.inr hn))
  | cat r s hr hs =>
    simp only [macroUses_cat, List.mem_append] at h
    exact he.cat (hr fun n hn => h n (.inl hn)) (hs fun n hn => h n (.inr hn))
  | star r hr => exact he.star (hr h)
  | plus r hr => exact he.plus (hr h)
  | opt r hr => exact he.opt (hr h)
  | compl r hr => exact he.compl (hr h)
  | upTo r hr => exact he.upTo (hr h)
  | leaf l =>
    cases l with
    | one q => exact he.one
    | text s caseless => exact he.text
    | use name => exact he.use (h name (List.mem_singleton_self _))

/-- The value is made of those of the parts alone, and that of a use is that of the macro. -/
structure Structural {α : Type} (eval : (String → α) → Regex → α) : Prop where
  alt : ∀ {f g r r' s s'}, eval f r = eval g r' → eval f s = eval g s' →
    eval f (.alt r s) = eval g (.alt r' s')
  cat : ∀ {f g r r' s s'}, eval f r = eval g r' → eval f s = eval g s' →
    eval f (.cat r s) = eval g (.cat r' s')
  star : ∀ {f g r r'}, eval f r = eval g r' → eval f (.star r) = eval g (.star r')
  plus : ∀ {f g r r'}, eval f r = eval g r' → eval f (.plus r) = eval g (.plus r')
  opt : ∀ {f g r r'}, eval f r = eval g r' → eval f (.opt r) = eval g (.opt r')
  compl : ∀ {f g r r'}, eval f r = eval g r' → eval f (.compl r) = eval g (.compl r')
  upTo : ∀ {f g r r'}, eval f r = eval g r' → eval f (.upTo r) = eval g (.upTo r')
  one : ∀ {f g q}, eval f (.one q) = eval g (.one q)
  text : ∀ {f g s caseless}, eval f (.text s caseless) = eval g (.text s caseless)
  use : ∀ f name, eval f (.use name) = f name

theorem Structural.isLocal {α : Type} {eval : (String → α) → Regex → α}
    (he : Structural eval) : Local eval :=
  Compositional.isLocal
    { alt := he.alt, cat := he.cat, star := he.star, plus := he.plus, opt := he.opt,
      compl := he.compl, upTo := he.upTo, one := he.one, text := he.text,
      use := fun h => by rw [he.use, he.use, h] }

theorem Structural.commutes {α : Type} {eval : (String → α) → Regex → α}
    (he : Structural eval) : Commutes eval := by
  intro f g r
  induction r with
  | alt r s hr hs => exact he.alt hr hs
  | cat r s hr hs => exact he.cat hr hs
  | star r hr => exact he.star hr
  | plus r hr => exact he.plus hr
  | opt r hr => exact he.opt hr
  | compl r hr => exact he.compl hr
  | upTo r hr => exact he.upTo hr
  | leaf l =>
    cases l with
    | one q => exact he.one
    | text s caseless => exact he.text
    | use name => exact (he.use (fun n => eval f (g n)) name).symm

theorem compositional_subst : Compositional subst where
  alt hr hs := by rw [subst, subst, hr, hs]
  cat hr hs := by rw [subst, subst, hr, hs]
  star h := by rw [subst, subst, h]
  plus h := by rw [subst, subst, h]
  opt h := by rw [subst, subst, h]
  compl h := by rw [subst, subst, h]
  upTo h := by rw [subst, subst, h]
  one := rfl
  text := rfl
  use h := h

theorem structural_isCodeClass : Structural isCodeClass where
  alt hr hs := by rw [isCodeClass, isCodeClass, hr, hs]
  cat _ _ := rfl
  star _ := rfl
  plus _ := rfl
  opt _ := rfl
  compl _ := rfl
  upTo _ := rfl
  one := rfl
  text := rfl
  use _ _ := rfl

theorem leaves_subst (f : String → Regex) (r : Regex) :
    (r.subst f).leaves = r.leaves.flatMap fun l => ((leaf l).subst f).leaves := by
  induction r with
  | alt r s hr hs | cat r s hr hs => rw [subst, leaves, leaves, List.flatMap_append, hr, hs]
  | star r hr | plus r hr | opt r hr | compl r hr | upTo r hr => exact hr
  | leaf l => rw [leaves, List.flatMap_singleton]

/-- What is used after a substitution is used by what was put in. -/
theorem macroUses_subst (f : String → Regex) (r : Regex) :
    (r.subst f).macroUses = r.macroUses.flatMap fun name => (f name).macroUses := by
  induction r with
  | alt r s hr hs => rw [subst, macroUses_alt, macroUses_alt, List.flatMap_append, hr, hs]
  | cat r s hr hs => rw [subst, macroUses_cat, macroUses_cat, List.flatMap_append, hr, hs]
  | star r hr | plus r hr | opt r hr | compl r hr | upTo r hr => exact hr
  | leaf l =>
    cases l with
    | use name => exact (List.flatMap_singleton ..).symm
    | _ => rfl

theorem closed_subst {f : String → Regex} {r : Regex}
    (h : ∀ name ∈ r.macroUses, (f name).Closed) : (r.subst f).Closed := by
  unfold Closed at h ⊢
  rw [macroUses_subst, List.flatMap_eq_nil_iff]
  exact h

theorem subst_of_closed {r : Regex} (h : r.Closed) (f : String → Regex) : r.subst f = r := by
  unfold Closed at h
  induction r with
  | alt r s hr hs | cat r s hr hs =>
    simp only [macroUses_alt, macroUses_cat, List.append_eq_nil_iff] at h
    unfold subst
    rw [hr h.1, hs h.2]
  | star r hr | plus r hr | opt r hr | compl r hr | upTo r hr => rw [subst, hr h]
  | leaf l =>
    cases l with
    | use name => simp at h
    | _ => rfl

end Regex

namespace MacroTable

variable {t : MacroTable} {r : Regex} {α : Type}

/-- All macros that the expression reaches are defined, and none in terms of itself. -/
inductive Grounded (t : MacroTable) : Regex → Prop where
  | intro {r : Regex} (defined : ∀ name ∈ r.macroUses, (t.definition? name).isSome)
      (grounded : ∀ name ∈ r.macroUses, ∀ d, t.definition? name = some d → Grounded t d) :
      Grounded t r

theorem Grounded.of_closed (h : r.Closed) : t.Grounded r := by
  unfold Regex.Closed at h
  constructor <;> simp [h]

theorem exists_entry {name : String} {d : Regex} (h : t.definition? name = some d) :
    ∃ x ∈ t.entries, x.1 = name ∧ x.2.definition = d := by
  obtain ⟨e, he, rfl⟩ := Option.map_eq_some_iff.1 h
  unfold entry? at he
  obtain ⟨l₁, l₂, hl, -⟩ := List.lookup_eq_some_iff.1 he
  exact ⟨(name, e), by simp [hl], rfl, rfl⟩

/-- Definitions that use no macros cannot use themselves. -/
theorem Grounded.of_closed_entries (h : ∀ x ∈ t.entries, x.2.definition.Closed)
    (hr : ∀ name ∈ r.macroUses, (t.definition? name).isSome) : t.Grounded r := by
  refine ⟨hr, fun name _ d hd => .of_closed ?_⟩
  obtain ⟨x, hx, -, rfl⟩ := exists_entry hd
  exact h x hx

theorem Grounded.exists_definition (h : t.Grounded r) {name : String} (hn : name ∈ r.macroUses) :
    ∃ d, t.definition? name = some d ∧ t.Grounded d := by
  obtain ⟨hdef, hground⟩ := h
  obtain ⟨d, hd⟩ := Option.isSome_iff_exists.1 (hdef name hn)
  exact ⟨d, hd, hground name hn d hd⟩

/-- An expression is grounded if it uses only what a grounded one uses. -/
theorem Grounded.of_subset {s : Regex} (h : t.Grounded s) (hs : r.macroUses ⊆ s.macroUses) :
    t.Grounded r := by
  obtain ⟨hdef, hground⟩ := h
  exact ⟨fun n hn => hdef n (hs hn), fun n hn => hground n (hs hn)⟩

/-! ## How deep definitions nest -/

/-- The definition of a macro and those below it nest less than `m` deep. -/
def Nests (t : MacroTable) : Nat → String → Prop
  | 0, _ => False
  | m + 1, name => ∃ d, t.definition? name = some d ∧ ∀ n ∈ d.macroUses, t.Nests m n

theorem Nests.succ {m : Nat} {name : String} (h : t.Nests m name) : t.Nests (m + 1) name := by
  induction m generalizing name with
  | zero => exact h.elim
  | succ m ih =>
    obtain ⟨d, hd, huses⟩ := h
    exact ⟨d, hd, fun n hn => ih (huses n hn)⟩

theorem Nests.mono {m n : Nat} {name : String} (h : t.Nests m name) (hmn : m ≤ n) :
    t.Nests n name := by
  induction hmn with
  | refl => exact h
  | step _ ih => exact ih.succ

theorem exists_nests {l : List String} (h : ∀ name ∈ l, ∃ m, t.Nests m name) :
    ∃ m, ∀ name ∈ l, t.Nests m name := by
  induction l with
  | nil => exact ⟨0, by simp⟩
  | cons a l ih =>
    obtain ⟨ha, hl⟩ := List.forall_mem_cons.1 h
    obtain ⟨m, hm⟩ := ha
    obtain ⟨n, hn⟩ := ih hl
    refine ⟨max m n, List.forall_mem_cons.2 ⟨hm.mono (Nat.le_max_left ..), ?_⟩⟩
    exact fun name hname => (hn name hname).mono (Nat.le_max_right ..)

/-- The names that have an entry. -/
def names (t : MacroTable) : List String := t.entries.map (·.1)

theorem mem_names_of_definition? {name : String} {d : Regex} (h : t.definition? name = some d) :
    name ∈ t.names := by
  obtain ⟨x, hx, rfl, -⟩ := exists_entry h
  exact List.mem_map_of_mem hx

open Classical in
/-- The macros that nest less than `m` deep. -/
noncomputable def nesting (t : MacroTable) (m : Nat) : Finset String :=
  t.names.toFinset.filter (t.Nests m)

open Classical in
theorem nesting_subset (t : MacroTable) (m : Nat) : t.nesting m ⊆ t.names.toFinset := by
  unfold nesting
  exact Finset.filter_subset ..

open Classical in
theorem mem_nesting {m : Nat} {name : String} : name ∈ t.nesting m ↔ t.Nests m name := by
  unfold nesting
  rw [Finset.mem_filter, List.mem_toFinset, and_iff_right_iff_imp]
  intro h
  cases m with
  | zero => exact h.elim
  | succ m =>
    obtain ⟨d, hd, -⟩ := h
    exact mem_names_of_definition? hd

/-- No more macros nest deeper than the table has entries. -/
theorem Nests.le_size {m : Nat} {name : String} (h : t.Nests m name) : t.Nests t.size name := by
  have hmono : Monotone t.nesting := by
    intro m n hmn name hname
    exact mem_nesting.2 ((mem_nesting.1 hname).mono hmn)
  have hbound : ∀ m, (t.nesting m).card ≤ t.size := by
    intro m
    calc (t.nesting m).card ≤ t.names.toFinset.card := Finset.card_le_card (t.nesting_subset m)
      _ ≤ t.names.length := List.toFinset_card_le _
      _ = t.size := by rw [names, List.length_map, size]
  -- a round that adds no macro is followed by rounds that add none
  have hstable : ∀ m, (t.nesting m).card = (t.nesting (m + 1)).card →
      (t.nesting (m + 1)).card = (t.nesting (m + 2)).card := by
    intro m hm
    have heq : t.nesting m = t.nesting (m + 1) :=
      Finset.eq_of_subset_of_card_le (hmono (Nat.le_succ m)) (Nat.le_of_eq hm.symm)
    have hsame : ∀ n, t.Nests m n ↔ t.Nests (m + 1) n := fun n => by
      rw [← mem_nesting, heq, mem_nesting]
    congr 1
    ext n
    rw [mem_nesting, mem_nesting]
    exact exists_congr fun d => and_congr_right' (forall₂_congr fun n' _ => hsame n')
  by_cases hle : m ≤ t.size
  · exact h.mono hle
  · have hcard := Nat.stabilises_of_monotone (fun m n hmn => Finset.card_le_card (hmono hmn)) hbound
      hstable (Nat.le_of_not_le hle)
    have heq := Finset.eq_of_subset_of_card_le (hmono (Nat.le_of_not_le hle)) (Nat.le_of_eq hcard)
    rw [← mem_nesting, heq, mem_nesting]
    exact h

theorem Grounded.nests (h : t.Grounded r) : ∀ name ∈ r.macroUses, t.Nests t.size name := by
  have hsome : ∀ name ∈ r.macroUses, ∃ m, t.Nests m name := by
    induction h with
    | @intro r hdef _ ih =>
      intro name hn
      obtain ⟨d, hd⟩ := Option.isSome_iff_exists.1 (hdef name hn)
      obtain ⟨m, hm⟩ := exists_nests (ih name hn d hd)
      exact ⟨m + 1, d, hd, hm⟩
  intro name hn
  obtain ⟨m, hm⟩ := hsome name hn
  exact hm.le_size

/-! ## Following definitions -/

section Follow

variable {unknown unknown' : String → α} {eval : (String → α) → Regex → α}

theorem followWithin_congr (he : Regex.Local eval) {m d e : Nat}
    (h : ∀ name ∈ r.macroUses, t.Nests m name) (hd : m ≤ d) (he' : m ≤ e) :
    t.followWithin unknown eval d r = t.followWithin unknown' eval e r := by
  induction m generalizing r d e with
  | zero =>
    -- nothing is used, so the values of the macros do not matter
    cases d <;> cases e <;> exact he _ _ _ fun name hn => (h name hn).elim
  | succ m ih =>
    obtain ⟨d, rfl⟩ := Nat.exists_eq_add_of_le hd
    obtain ⟨e, rfl⟩ := Nat.exists_eq_add_of_le he'
    rw [Nat.add_right_comm m 1 d, Nat.add_right_comm m 1 e]
    apply he
    intro name hn
    obtain ⟨s, hs, huses⟩ := h name hn
    simp only [hs]
    exact ih huses (Nat.le_add_right m d) (Nat.le_add_right m e)

/-- To go deeper than the size of the table makes no difference. -/
theorem Grounded.followWithin_eq (h : t.Grounded r) (he : Regex.Local eval) {depth : Nat}
    (hd : t.size ≤ depth) :
    t.followWithin unknown eval depth r = t.follow unknown' eval r :=
  followWithin_congr he h.nests hd (Nat.le_refl _)

/-- The value of a use is that of the definition. -/
theorem Grounded.follow_eq (h : t.Grounded r) (he : Regex.Local eval) {f : String → α}
    (hf : ∀ name ∈ r.macroUses, ∀ d, t.definition? name = some d →
      f name = t.follow unknown eval d) :
    t.follow unknown eval r = eval f r := by
  rw [← h.followWithin_eq he (Nat.le_succ _), followWithin]
  · apply he
    intro name hn
    obtain ⟨d, hd, hg⟩ := h.exists_definition hn
    rw [hf name hn d hd]
    simp only [hd]
    rfl

theorem Grounded.follow_unfold (h : t.Grounded r) (he : Regex.Local eval) :
    t.follow unknown eval r =
      eval (fun name => t.follow unknown eval ((t.definition? name).getD (.use name))) r := by
  apply h.follow_eq he
  intro name _ d hd
  rw [hd]
  rfl

/-- Two values of an expression are related if they are as soon as those of its macros are. -/
theorem Grounded.follow_rel {β : Type} {R : α → β → Prop} {unknown' : String → β}
    {eval' : (String → β) → Regex → β} (h : t.Grounded r) (he : Regex.Local eval)
    (he' : Regex.Local eval')
    (hstep : ∀ f g s, (∀ name ∈ s.macroUses, R (f name) (g name)) → R (eval f s) (eval' g s)) :
    R (t.follow unknown eval r) (t.follow unknown' eval' r) := by
  induction h with
  | @intro r hdef hground ih =>
    have hg : t.Grounded r := ⟨hdef, hground⟩
    rw [hg.follow_unfold he, hg.follow_unfold he']
    apply hstep
    intro name hn
    obtain ⟨d, hd, -⟩ := hg.exists_definition hn
    rw [hd]
    exact ih name hn d hd

/-- What stands for a macro has the value of the definition. -/
theorem Grounded.follow_use (h : t.Grounded r) (he : Regex.Local eval)
    (huse : ∀ f name, eval f (.use name) = f name) {name : String} (hn : name ∈ r.macroUses)
    {d : Regex} (hd : t.definition? name = some d) :
    t.follow unknown eval (.use name) = t.follow unknown eval d := by
  have hg : t.Grounded (.use name) := h.of_subset fun n hn' => by
    unfold Regex.use at hn'
    rw [Regex.macroUses_use, List.mem_singleton] at hn'
    rwa [hn']
  rw [hg.follow_unfold he, huse, hd]
  rfl

/-! ## Resolving -/

theorem Grounded.resolve_eq (h : t.Grounded r) :
    t.resolve r = r.subst fun name => t.resolve ((t.definition? name).getD (.use name)) :=
  h.follow_unfold Regex.compositional_subst.isLocal

theorem Grounded.closed_resolve (h : t.Grounded r) : (t.resolve r).Closed := by
  induction h with
  | @intro r hdef hground ih =>
    rw [Grounded.resolve_eq ⟨hdef, hground⟩]
    apply Regex.closed_subst
    intro name hn
    obtain ⟨d, hd⟩ := Option.isSome_iff_exists.1 (hdef name hn)
    rw [hd]
    exact ih name hn d hd

theorem resolve_of_closed (h : r.Closed) : t.resolve r = r := by
  rw [(Grounded.of_closed h).resolve_eq]
  exact Regex.subst_of_closed h _

/-- The value of an expression is that of what it resolves to. -/
theorem Grounded.follow_resolve (h : t.Grounded r) (he : Regex.Local eval)
    (hc : Regex.Commutes eval) (f : String → α) :
    t.follow unknown eval r = eval f (t.resolve r) := by
  induction h with
  | @intro r hdef hground ih =>
    have hg : t.Grounded r := ⟨hdef, hground⟩
    rw [hg.resolve_eq, hc]
    apply hg.follow_eq he
    intro name hn d hd
    rw [ih name hn d hd, hd]
    rfl

end Follow

end MacroTable

end ScannerGen
