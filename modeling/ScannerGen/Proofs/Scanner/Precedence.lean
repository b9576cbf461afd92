import ScannerGen.Proofs.Scanner.Correctness

/-
  Which rule owns a match. Without minimization the state that a word leads to has the action of a
  rule of lowest priority among those that match it, and of several such that of the rule that is
  listed last (`Generated.exists_wins`). If the rules are listed in the order of their lines, the
  first of them that matches owns the match, unless it shares its line with others: then the last
  of these does (`generate_prefers_last_of_line`).
-/

namespace ScannerGen

/-! ## Clauses -/

/-- The clause at place `n` matches `w`, those of lower priority do not, and of those of its own
priority none does that comes later. -/
structure Clause.Wins (cs : List Clause) (i : Nat) (w : List Nat) (n : Nat) (c : Clause) :
    Prop where
  get : cs[n]? = some c
  isMatch : c.Matches i w
  le : ∀ m b, cs[m]? = some b → b.Matches i w →
    c.action.priority < b.action.priority ∨ c.action.priority = b.action.priority ∧ m ≤ n

namespace Nfa

variable {nfa : Nfa} {cs : List Clause} {rank : Nat → Nat} {s : IdSet} {i : Nat} {w : List Nat}

/-- Where final states are merged in their order, clauses are merged in theirs. -/
theorem Ranked.exists_wins (h : Ranked nfa cs rank) (hi : i < 2 * nfa.numLex)
    (hs : ∀ l, l ∈ s ↔ nfa.Path i w l)
    (hmatch : ∃ (n : Nat) (c : Clause), cs[n]? = some c ∧ c.Matches i w) :
    ∃ n c, Clause.Wins cs i w n c ∧ nfa.actionOf s = some c.action := by
  have hfinal : ∀ {n c}, cs[n]? = some c → c.Matches i w →
      ∃ l ∈ s, nfa.finalAction l = some c.action ∧ rank l = n := by
    intro n c hc ⟨hentry, hw⟩
    obtain ⟨l, p, ha, hrank⟩ := (h.accepts_iff hi).2 ⟨c, hc, hentry, hw, rfl⟩
    exact ⟨l, (hs l).2 p, finalAction_eq_some.2 ha, hrank⟩
  obtain ⟨n, c, hc, hcw⟩ := hmatch
  obtain ⟨l, hl, hla, -⟩ := hfinal hc hcw
  have hchoice := isChoice_actionOf nfa s
  cases haction : nfa.actionOf s with
  | none =>
    rw [haction] at hchoice
    rw [hchoice l hl] at hla
    cases hla
  | some a =>
    rw [haction] at hchoice
    obtain ⟨l, hl, hla, hle⟩ := hchoice
    obtain ⟨c, hc, hentry, hw, ha⟩ := (h.accepts_iff hi).1
      ⟨l, (hs l).1 hl, finalAction_eq_some.1 hla, rfl⟩
    rw [Option.some.injEq] at ha
    subst ha
    refine ⟨rank l, c, ⟨hc, ⟨hentry, hw⟩, fun m b hb hbw => ?_⟩, rfl⟩
    obtain ⟨l', hl', hla', rfl⟩ := hfinal hb hbw
    exact (hle l' hl' _ hla').imp_right fun ⟨heq, hll⟩ => ⟨heq, h.mono hll⟩

end Nfa

/-! ## Rules -/

/-- The rule at place `n` matches `w`, those of lower priority do not, and of those of its own
priority none does that is listed later. -/
structure Spec.Wins (spec : Spec) (top k : Nat) (atLineStart : Bool) (w : List Nat) (n : Nat)
    (a : Action) : Prop where
  isMatch : spec.MatchesAt top k atLineStart w n a
  le : ∀ m b, spec.MatchesAt top k atLineStart w m b →
    a.priority < b.priority ∨ a.priority = b.priority ∧ m ≤ n

/-- The rule at place `n` is the first one listed that matches `w`. -/
structure Spec.IsListedFirst (spec : Spec) (top k : Nat) (atLineStart : Bool) (w : List Nat)
    (n : Nat) (a : Action) : Prop where
  isMatch : spec.MatchesAt top k atLineStart w n a
  le : ∀ m b, spec.MatchesAt top k atLineStart w m b → n ≤ m

theorem Spec.exists_isListedFirst {spec : Spec} {top k : Nat} {atLineStart : Bool} {w : List Nat}
    (h : ∃ a, spec.Matches top k atLineStart w a) :
    ∃ n a, spec.IsListedFirst top k atLineStart w n a := by
  classical
  obtain ⟨a, ha⟩ := h
  have hplace : ∃ n a, spec.MatchesAt top k atLineStart w n a := by
    obtain ⟨n, hn⟩ := Spec.matches_iff_matchesAt.1 ha
    exact ⟨n, a, hn⟩
  obtain ⟨b, hb⟩ := Nat.find_spec hplace
  exact ⟨Nat.find hplace, b, hb, fun m c hc => Nat.find_min' hplace ⟨c, hc⟩⟩

/-- Rules are listed by their lines, which are the priorities of their actions, and none has a line
after that of the rule that echoes. -/
structure Spec.InLineOrder (spec : Spec) : Prop where
  priority_eq : ∀ rule ∈ spec.rules, rule.action.priority = rule.line
  le_echo : ∀ rule ∈ spec.rules, rule.line ≤ Build.echo.priority
  ordered : spec.rules.Pairwise (·.line ≤ ·.line)

instance (spec : Spec) : Decidable spec.InLineOrder :=
  decidable_of_iff ((∀ rule ∈ spec.rules, rule.action.priority = rule.line) ∧
      (∀ rule ∈ spec.rules, rule.line ≤ Build.echo.priority) ∧
      spec.rules.Pairwise (·.line ≤ ·.line))
    ⟨fun ⟨h, h', h''⟩ => ⟨h, h', h''⟩, fun h => ⟨h.1, h.2, h.3⟩⟩

variable {spec : Spec} {top k n m : Nat} {atLineStart : Bool} {w : List Nat} {a b : Action}

theorem Spec.MatchesAt.unique (h : spec.MatchesAt top k atLineStart w n a)
    (h' : spec.MatchesAt top k atLineStart w n b) : a = b := by
  have hlt : ∀ {rule : Rule}, spec.rules[n]? = some rule → n < spec.rules.length := fun hrule =>
    (List.getElem?_eq_some_iff.1 hrule).1
  rcases h with ⟨rule, hrule, -, -, rfl⟩ | ⟨hn, -, -, rfl⟩
  · rcases h' with ⟨rule', hrule', -, -, rfl⟩ | ⟨hn, -⟩
    · rw [hrule, Option.some.injEq] at hrule'
      rw [hrule']
    · exact absurd (hlt hrule) (Nat.not_lt.2 (Nat.le_of_eq hn.symm))
  · rcases h' with ⟨rule', hrule', -⟩ | ⟨-, -, -, rfl⟩
    · exact absurd (hlt hrule') (Nat.not_lt.2 (Nat.le_of_eq hn.symm))
    · rfl

/-- Only one rule wins. -/
theorem Spec.Wins.unique (h : spec.Wins top k atLineStart w n a)
    (h' : spec.Wins top k atLineStart w m b) : n = m ∧ a = b := by
  have hle := h.le m b h'.isMatch
  have hle' := h'.le n a h.isMatch
  obtain rfl : n = m := by omega
  exact ⟨rfl, h.isMatch.unique h'.isMatch⟩

/-- What is listed later has no lower priority. -/
theorem Spec.InLineOrder.priority_le (h : spec.InLineOrder)
    (hn : spec.MatchesAt top k atLineStart w n a) (hm : spec.MatchesAt top k atLineStart w m b)
    (hnm : n ≤ m) : a.priority ≤ b.priority := by
  rcases hn with ⟨rule, hrule, -, -, rfl⟩ | ⟨rfl, -, -, rfl⟩
  · have hmem := List.mem_of_getElem? hrule
    rcases hm with ⟨rule', hrule', -, -, rfl⟩ | ⟨-, -, -, rfl⟩
    · show rule.action.priority ≤ rule'.action.priority
      rw [h.priority_eq rule hmem, h.priority_eq rule' (List.mem_of_getElem? hrule')]
      obtain ⟨hn', rfl⟩ := List.getElem?_eq_some_iff.1 hrule
      obtain ⟨hm', rfl⟩ := List.getElem?_eq_some_iff.1 hrule'
      rcases Nat.eq_or_lt_of_le hnm with rfl | hlt
      · exact Nat.le_refl _
      · exact List.pairwise_iff_getElem.1 h.ordered n m hn' hm' hlt
    · show rule.action.priority ≤ _
      rw [h.priority_eq rule hmem]
      exact h.le_echo rule hmem
  · rcases hm with ⟨rule', hrule', -⟩ | ⟨-, -, -, rfl⟩
    · have := (List.getElem?_eq_some_iff.1 hrule').1
      omega
    · exact Nat.le_refl _

/-- The rule that wins is on the line of the first one that matches, and it is this one unless
another one on the line matches. -/
theorem Spec.Wins.of_isListedFirst (h : spec.Wins top k atLineStart w n a)
    (hlines : spec.InLineOrder) (hfirst : spec.IsListedFirst top k atLineStart w m b) :
    a.priority = b.priority ∧ ((∀ l c, spec.MatchesAt top k atLineStart w l c →
      c.priority = b.priority → l = m) → a = b) := by
  have hle := hlines.priority_le hfirst.isMatch h.isMatch (hfirst.le n a h.isMatch)
  have hpriority : a.priority = b.priority := by
    have := h.le m b hfirst.isMatch
    omega
  refine ⟨hpriority, fun halone => ?_⟩
  obtain rfl := halone n a h.isMatch hpriority
  exact h.isMatch.unique hfirst.isMatch

/-! ## Scanners -/

namespace Generated

variable {config : Config} {t : MacroTable} {p : Partition} {nfa : Nfa} {full : Dfa}
  {scanner : Scanner} (g : Generated spec config t p nfa full scanner)

include g

/-- The state that a matching word leads to has the action of the rule that wins. -/
theorem exists_wins (hskip : config.skipMinimization = true) (hk : k < spec.states.size)
    (hw : IsText config.maxCode w)
    (hmatch : ∃ n a, spec.MatchesAt config.maxCode k atLineStart w n a) :
    ∃ start state s n a, scanner.dfa.starts[2 * k + atLineStart.toNat]? = some start ∧
      scanner.run start w = .ok (some state) ∧ scanner.dfa.states[state]? = some s ∧
      spec.Wins config.maxCode k atLineStart w n a ∧ s.action? = some a ∧
      s.isLookEnd = a.isLookahead := by
  have hmatchAt : ∀ {n a}, _ ↔ spec.MatchesAt config.maxCode k atLineStart w n a :=
    g.matchesAt_iff hk hw
  have hdfa : scanner.dfa = full := by
    have := g.stages.dfa_eq
    rwa [if_pos hskip] at this
  have hbuilt := g.stages.built
  obtain ⟨t', ht'⟩ := g.stages.determinized
  obtain ⟨rank, hrank⟩ := hbuilt.ranked
  have hentry : 2 * k + atLineStart.toNat < 2 * nfa.numLex := by
    rw [hbuilt.numLex_eq]
    have := atLineStart.toNat_le
    show 2 * k + atLineStart.toNat < 2 * spec.states.size
    omega
  obtain ⟨start, hstart, hwalk⟩ := ht'.exists_start hbuilt.recognizes hentry
  have hlt : start < scanner.dfa.size := by
    rw [hdfa]
    exact g.stages.full_wellFormed.inRange.2 start (Array.mem_of_getElem? hstart)
  obtain ⟨n, a, hna⟩ := hmatch
  obtain ⟨c, hc, hcw, -⟩ := hmatchAt.2 hna
  rcases hwalk (w.map p.classOf) with ⟨-, hnone⟩ | ⟨j, s, row, hj, hrow, hs⟩
  · obtain ⟨l, path, -⟩ := (hrank.accepts_iff hentry).2 ⟨c, hc, hcw.1, hcw.2, rfl⟩
    exact absurd path (hnone l)
  · obtain ⟨n, c, hwins, haction⟩ := hrank.exists_wins hentry hs ⟨n, c, hc, hcw⟩
    refine ⟨start, j, _, n, c.action, hdfa ▸ hstart, ?_, hdfa ▸ hrow, ⟨?_, ?_⟩, haction, ?_⟩
    · rw [g.run_eq hlt hw, hdfa, hj]
    · exact hmatchAt.1 ⟨c, hwins.get, hwins.isMatch, rfl⟩
    · intro m b hb
      obtain ⟨c', hc', hcw', rfl⟩ := hmatchAt.2 hb
      exact hwins.le m c' hc' hcw'
    · show (nfa.actionOf s).any (·.isLookahead) = _
      rw [haction]
      rfl

end Generated

/-- Without minimization, and with the rules in the order of their lines, a match goes to a rule on
the line of the first one listed that matches: to this one if no other one on the line matches, and
to the last of them otherwise. -/
theorem generate_prefers_last_of_line (spec : Spec) (config : Config) (scanner : Scanner)
    (h : spec.macros.WellFormed) (hlines : spec.InLineOrder)
    (hskip : config.skipMinimization = true)
    (hok : (generate spec config).2.result = .ok scanner) (k : Nat) (hk : k < spec.states.size)
    (atLineStart : Bool) (w : List Nat) (hw : IsText config.maxCode w)
    (hmatch : ∃ a, spec.Matches config.maxCode k atLineStart w a) :
    ∃ start state s n a m b, scanner.dfa.starts[2 * k + atLineStart.toNat]? = some start ∧
      scanner.run start w = .ok (some state) ∧ scanner.dfa.states[state]? = some s ∧
      spec.IsListedFirst config.maxCode k atLineStart w n a ∧
      spec.Wins config.maxCode k atLineStart w m b ∧ s.action? = some b ∧
      s.isLookEnd = b.isLookahead ∧ b.priority = a.priority ∧
      ((∀ l c, spec.MatchesAt config.maxCode k atLineStart w l c → c.priority = a.priority →
        l = n) → b = a) := by
  obtain ⟨t, p, nfa, full, g⟩ := (generate_spec h config).of_ok hok
  obtain ⟨n, a, hfirst⟩ := Spec.exists_isListedFirst hmatch
  obtain ⟨start, state, s, m, b, hstart, hrun, hs, hwins, haction, hlook⟩ :=
    g.exists_wins hskip hk hw ⟨n, a, hfirst.isMatch⟩
  exact ⟨start, state, s, n, a, m, b, hstart, hrun, hs, hfirst, hwins, haction, hlook,
    hwins.of_isListedFirst hlines hfirst⟩

/-- Two rules on one line that match the same, and the rule that echoes. -/
def sharedLine : Spec where
  macros := .empty
  rules := [.new 1 (.one (.code 97 false)) "first", .new 1 (.one (.code 97 false)) "second"]
  states := .initial
  eof := .empty
  standalone := true

/-- Settings for a small alphabet and an automaton as it is determinized. -/
def asciiUnminimized : Config := { Config.default with maxCode := 127, skipMinimization := true }

theorem exists_sharedLine_scanner :
    ∃ scanner, (generate sharedLine asciiUnminimized).2.result = .ok scanner :=
  exists_eq_ok (by decide +kernel)

theorem sharedLine_isListedFirst :
    sharedLine.IsListedFirst 127 0 false [97] 0 ⟨"first", 1, false⟩ where
  isMatch := .inl ⟨_, rfl, ⟨.inr ⟨rfl, by decide⟩, fun h => h⟩, ⟨97, ⟨by decide, .inl rfl⟩, rfl⟩,
    rfl⟩
  le m _ _ := Nat.zero_le m

theorem generate_prefers_last_of_line_sharedLine : sharedLine.macros.WellFormed ∧
    sharedLine.InLineOrder ∧ asciiUnminimized.skipMinimization = true ∧
    0 < sharedLine.states.size ∧ IsText asciiUnminimized.maxCode [97] ∧
    (∃ a, sharedLine.Matches asciiUnminimized.maxCode 0 false [97] a) ∧
    ∃ scanner, (generate sharedLine asciiUnminimized).2.result = .ok scanner ∧
      ∃ start state s n a m b, scanner.dfa.starts[2 * 0 + false.toNat]? = some start ∧
        scanner.run start [97] = .ok (some state) ∧ scanner.dfa.states[state]? = some s ∧
        sharedLine.IsListedFirst asciiUnminimized.maxCode 0 false [97] n a ∧
        sharedLine.Wins asciiUnminimized.maxCode 0 false [97] m b ∧ s.action? = some b ∧
        s.isLookEnd = b.isLookahead ∧ b.priority = a.priority ∧
        ((∀ l c, sharedLine.MatchesAt asciiUnminimized.maxCode 0 false [97] l c →
          c.priority = a.priority → l = n) → b = a) := by
  obtain ⟨scanner, hok⟩ := exists_sharedLine_scanner
  have hmatch : ∃ a, sharedLine.Matches asciiUnminimized.maxCode 0 false [97] a :=
    ⟨_, Spec.matches_iff_matchesAt.2 ⟨0, sharedLine_isListedFirst.isMatch⟩⟩
  exact ⟨by decide, by decide, rfl, by decide, by decide, hmatch, scanner, hok,
    generate_prefers_last_of_line sharedLine asciiUnminimized scanner (by decide) (by decide) rfl
      hok 0 (by decide) false [97] (by decide) hmatch⟩

theorem sharedLine_wins : sharedLine.Wins 127 0 false [97] 1 ⟨"second", 1, false⟩ where
  isMatch := .inl ⟨_, rfl, ⟨.inr ⟨rfl, by decide⟩, fun h => h⟩, ⟨97, ⟨by decide, .inl rfl⟩, rfl⟩,
    rfl⟩
  le := by
    rintro m b (⟨rule, hrule, -, -, rfl⟩ | ⟨-, -, -, rfl⟩)
    · have hm : m < 2 := (List.getElem?_eq_some_iff.1 hrule).1
      have hline : rule.action.priority = 1 :=
        (show ∀ rule ∈ sharedLine.rules, rule.action.priority = 1 by decide) rule
          (List.mem_of_getElem? hrule)
      exact .inr ⟨hline.symm, Nat.le_of_lt_succ hm⟩
    · exact .inl (by decide)

/-- The rule that is listed first does not win. -/
theorem sharedLine_prefers_second : sharedLine.macros.WellFormed ∧ sharedLine.InLineOrder ∧
    sharedLine.IsListedFirst 127 0 false [97] 0 ⟨"first", 1, false⟩ ∧
    ∃ scanner start state s, (generate sharedLine asciiUnminimized).2.result = .ok scanner ∧
      scanner.dfa.starts[2 * 0 + false.toNat]? = some start ∧
      scanner.run start [97] = .ok (some state) ∧ scanner.dfa.states[state]? = some s ∧
      s.action? = some ⟨"second", 1, false⟩ := by
  obtain ⟨scanner, hok⟩ := exists_sharedLine_scanner
  have h : sharedLine.macros.WellFormed := by decide
  obtain ⟨t, p, nfa, full, g⟩ := (generate_spec h asciiUnminimized).of_ok hok
  obtain ⟨start, state, s, n, a, hstart, hrun, hs, hwins, haction, -⟩ :=
    g.exists_wins rfl (by decide) (by decide) ⟨1, _, sharedLine_wins.isMatch⟩
  obtain ⟨-, rfl⟩ := hwins.unique sharedLine_wins
  exact ⟨h, by decide, sharedLine_isListedFirst, scanner, start, state, s, hok, hstart, hrun, hs,
    haction⟩

end ScannerGen
