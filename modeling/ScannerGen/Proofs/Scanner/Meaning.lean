import ScannerGen.Proofs.Generate

/-
  What a specification means, apart from any automaton: which rules are active where, and which
  words they match. The clauses that the automata are built for mean the same of the classes of a
  word, each what the rule in its place means (`Generated.matchesAt_iff`).
-/

namespace ScannerGen

open Computability

/-- The rule is active in lexical state `k`, where the scanner may be at the beginning of a line. -/
def Rule.IsActive (lex : LexStates) (k : Nat) (atLineStart : Bool) (rule : Rule) : Prop :=
  (k ∈ rule.states ∨ rule.states = [] ∧ k ∈ lex.inclusive) ∧
    (rule.atLineStart = true → atLineStart = true)

/-- The words of codes that a rule matches, together with what its lookahead matches. -/
def Rule.language (t : MacroTable) (top : Nat) (rule : Rule) : Language Nat :=
  match rule.lookahead? with
  | some r => t.language top rule.regex * t.language top r
  | none => t.language top rule.regex

/-- The action of a rule, as one for a lookahead if the rule has one. -/
def Rule.effect (rule : Rule) : Action :=
  { rule.action with isLookahead := rule.action.isLookahead || rule.lookahead?.isSome }

/-- A rule with action `a` is active and matches `w`; the last rule is the one that echoes. -/
def Spec.Matches (spec : Spec) (top k : Nat) (atLineStart : Bool) (w : List Nat) (a : Action) :
    Prop :=
  (∃ rule ∈ spec.rules, rule.IsActive spec.states k atLineStart ∧
    w ∈ rule.language spec.macros top ∧ rule.effect = a) ∨
    spec.standalone = true ∧ w.length = 1 ∧ Build.echo = a

/-- The rule at place `n`, with action `a`, is active and matches `w`. The place of the rule that
echoes is behind those of all that are listed. -/
def Spec.MatchesAt (spec : Spec) (top k : Nat) (atLineStart : Bool) (w : List Nat) (n : Nat)
    (a : Action) : Prop :=
  (∃ rule, spec.rules[n]? = some rule ∧ rule.IsActive spec.states k atLineStart ∧
    w ∈ rule.language spec.macros top ∧ rule.effect = a) ∨
    n = spec.rules.length ∧ spec.standalone = true ∧ w.length = 1 ∧ Build.echo = a

variable {spec : Spec} {config : Config} {t : MacroTable} {p : Partition} {nfa : Nfa} {full : Dfa}
  {scanner : Scanner} {rule : Rule} {lex : LexStates} {k : Nat} {atLineStart : Bool} {w : List Nat}

theorem Spec.matches_iff_matchesAt {top : Nat} {a : Action} :
    spec.Matches top k atLineStart w a ↔ ∃ n, spec.MatchesAt top k atLineStart w n a := by
  unfold Spec.Matches Spec.MatchesAt
  rw [exists_or, exists_eq_left, exists_comm]
  simp only [exists_and_right, ← List.mem_iff_getElem?]

theorem Spec.getElem?_clauses_eq_some {c : Clause} {n : Nat} :
    (spec.clauses p)[n]? = some c ↔
      (∃ rule, spec.rules[n]? = some rule ∧ rule.clause p spec.macros spec.states = c) ∨
        n = spec.rules.length ∧ spec.standalone = true ∧
          echoClause p.numClasses spec.states.size = c := by
  unfold Spec.clauses
  cases spec.standalone with
  | false =>
    simp only [Bool.false_eq_true, if_false, List.append_nil, false_and, and_false, or_false,
      List.getElem?_map, Option.map_eq_some_iff]
  | true =>
    simp only [if_true, true_and, getElem?_snoc_eq_some_iff, List.length_map, List.getElem?_map,
      Option.map_eq_some_iff]

theorem isActive_iff : rule.IsActive lex k atLineStart ↔
    (rule.clause p t lex).entries (2 * k + atLineStart.toNat) := by
  have hstates : ∀ l, l ∈ Build.statesOf lex rule ↔
      l ∈ rule.states ∨ rule.states = [] ∧ l ∈ lex.inclusive := by
    intro l
    unfold Build.statesOf
    cases rule.states with
    | nil => simp
    | cons a states => simp
  have henters : ∀ l, Build.EntersAt rule l (2 * k + atLineStart.toNat) ↔
      l = k ∧ (rule.atLineStart = true → atLineStart = true) := by
    intro l
    unfold Build.EntersAt
    cases atLineStart <;> cases rule.atLineStart <;> simp <;> omega
  simp only [Rule.clause, Rule.IsActive, hstates, henters]
  constructor
  · exact fun ⟨hk, hline⟩ => ⟨k, hk, rfl, hline⟩
  · rintro ⟨l, hl, rfl, hline⟩
    exact ⟨hl, hline⟩

theorem clause_action : (rule.clause p t lex).action = rule.effect := by
  unfold Rule.clause Rule.effect
  cases rule.lookahead? with
  | none => simp
  | some r => simp [Action.asLookahead]

/-- All codes of the word belong to the alphabet. -/
def IsText (top : Nat) (w : List Nat) : Prop := ∀ c ∈ w, c ≤ top

instance (top : Nat) (w : List Nat) : Decidable (IsText top w) :=
  inferInstanceAs (Decidable (∀ _ ∈ _, _))

namespace Generated

variable (g : Generated spec config t p nfa full scanner)

include g

/-- The language of an expression over the expanded macros is the one over the given ones. -/
theorem language_eq {r : Regex} (hr : r ∈ spec.exprs) :
    t.language p.top r = spec.macros.language config.maxCode r := by
  have hg := g.ready.grounded hr
  have hg' := g.ready.refines.grounded_of hg
  rw [g.top_eq]
  exact MacroTable.language_eq_of_resolve_eq hg' hg (g.ready.refines.resolve_eq hg') _

theorem mirrors {r : Regex} (hr : r ∈ spec.exprs) : Mirrors p.classOf {c | c ≤ p.top}
    (spec.macros.language config.maxCode r) (p.languageOver t r) := by
  rw [← g.language_eq hr]
  exact g.valid.languageOver_mirrors (g.ready.grounded hr) (g.resolves r hr)

theorem clause_mirrors (hrule : rule ∈ spec.rules) : Mirrors p.classOf {c | c ≤ p.top}
    (rule.language spec.macros config.maxCode) (rule.clause p t lex).language := by
  have hexpr : ∀ r ∈ rule.exprs, r ∈ spec.exprs := fun r hr =>
    List.mem_flatMap.2 ⟨rule, hrule, hr⟩
  have hregex := g.mirrors (hexpr rule.regex List.mem_cons_self)
  unfold Rule.language Rule.clause
  cases hlook : rule.lookahead? with
  | none => exact hregex
  | some r =>
    refine hregex.mul (g.mirrors (hexpr r ?_))
    simp [Rule.exprs, hlook]

theorem rule_matches_iff (hrule : rule ∈ spec.rules) (hw : IsText config.maxCode w) :
    (rule.clause p t lex).Matches (2 * k + atLineStart.toNat) (w.map p.classOf) ↔
      rule.IsActive lex k atLineStart ∧ w ∈ rule.language spec.macros config.maxCode :=
  and_congr isActive_iff.symm (g.clause_mirrors hrule w (g.top_eq ▸ hw))

theorem echo_matches_iff (hk : k < spec.states.size) (hw : IsText config.maxCode w) :
    (echoClause p.numClasses spec.states.size).Matches (2 * k + atLineStart.toNat)
      (w.map p.classOf) ↔ w.length = 1 := by
  constructor
  · intro ⟨_, k', _, hw'⟩
    have := congrArg List.length hw'
    rwa [List.length_map] at this
  · intro hlen
    obtain ⟨c, rfl⟩ := List.length_eq_one_iff.1 hlen
    have hc : c ≤ p.top := g.top_eq ▸ hw c List.mem_cons_self
    refine ⟨?_, p.classOf c, g.valid.classOf_lt hc, rfl⟩
    have := atLineStart.toNat_le
    show 2 * k + atLineStart.toNat < 2 * spec.states.size
    omega

/-- The clause in a place matches the classes of the words that the rule in this place matches. -/
theorem matchesAt_iff (hk : k < spec.states.size) (hw : IsText config.maxCode w) {n : Nat}
    {a : Action} :
    (∃ c, (({ spec with macros := t } : Spec).clauses p)[n]? = some c ∧
      c.Matches (2 * k + atLineStart.toNat) (w.map p.classOf) ∧ c.action = a) ↔
      spec.MatchesAt config.maxCode k atLineStart w n a := by
  unfold Spec.MatchesAt
  simp only [Spec.getElem?_clauses_eq_some, or_and_right, exists_or]
  apply or_congr
  · constructor
    · rintro ⟨_, ⟨rule, hrule, rfl⟩, hmatch, rfl⟩
      obtain ⟨hactive, hlang⟩ := (g.rule_matches_iff (List.mem_of_getElem? hrule) hw).1 hmatch
      exact ⟨rule, hrule, hactive, hlang, clause_action.symm⟩
    · rintro ⟨rule, hrule, hactive, hlang, rfl⟩
      exact ⟨_, ⟨rule, hrule, rfl⟩,
        (g.rule_matches_iff (List.mem_of_getElem? hrule) hw).2 ⟨hactive, hlang⟩, clause_action⟩
  · constructor
    · rintro ⟨_, ⟨hn, hstandalone, rfl⟩, hmatch, rfl⟩
      exact ⟨hn, hstandalone, (g.echo_matches_iff hk hw).1 hmatch, rfl⟩
    · rintro ⟨hn, hstandalone, hlen, rfl⟩
      exact ⟨_, ⟨hn, hstandalone, rfl⟩, (g.echo_matches_iff hk hw).2 hlen, rfl⟩

/-- The clauses of the rules match the classes of the words that the rules match. -/
theorem matches_iff (hk : k < spec.states.size) (hw : IsText config.maxCode w) {a : Action} :
    (∃ c ∈ ({ spec with macros := t } : Spec).clauses p,
      c.Matches (2 * k + atLineStart.toNat) (w.map p.classOf) ∧ c.action = a) ↔
      spec.Matches config.maxCode k atLineStart w a := by
  simp only [Spec.matches_iff_matchesAt, ← g.matchesAt_iff hk hw, List.mem_iff_getElem?]
  rw [exists_comm]
  simp only [exists_and_right]

end Generated

end ScannerGen
