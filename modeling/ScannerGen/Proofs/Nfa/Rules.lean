import ScannerGen.Nfa.OfRules
import ScannerGen.Proofs.Nfa.Links
import ScannerGen.Proofs.Nfa.Thompson

/-
  The automaton of a specification recognizes the clauses of its rules (`ofSpec_spec`). Each rule
  adds its clause to those of the automaton before it (`addRule_ensures`), and in the end the rule
  that echoes what no other rule matches may be added (`addEcho_ensures`).
-/

namespace ScannerGen

namespace Build

open Nfa

variable {limit : Nat} {nfa nfa₁ nfa₂ : Nfa} {start : Nat} {E : Nat → Prop} {p : Partition}
  {t : MacroTable} {lex : LexStates} {rule : Rule}

/-- The entries from which a rule can be in force at lexical state `k`. -/
def EntersAt (rule : Rule) (k i : Nat) : Prop :=
  i = 2 * k + 1 ∨ rule.atLineStart = false ∧ i = 2 * k

theorem EntersAt.lt {k i numLex : Nat} (h : EntersAt rule k i) (hk : k < numLex) :
    i < 2 * numLex := by
  rcases h with rfl | ⟨-, rfl⟩ <;> omega

/-- The failure over a lexical state that the rule lists and that does not exist. -/
def NoLexState (rule : Rule) (numLex : Nat) (e : Failure) : Prop :=
  ∃ k ∈ rule.states, numLex ≤ k ∧ e = .error (.inconsistent (.noSuchLexState rule.line k numLex))

theorem enter_ensures {Q : Unit → Nfa → Prop} {F : Failure → Nfa → Prop} {k : Nat}
    (h : Links E start nfa₁ nfa₂) (hle : 2 * nfa₁.numLex ≤ nfa₁.size)
    (hok : ∀ nfa₃, k < nfa₁.numLex → Links (fun i => E i ∨ EntersAt rule k i) start nfa₁ nfa₃ →
      Q () nfa₃)
    (herr : nfa₁.numLex ≤ k →
      F (.error (.inconsistent (.noSuchLexState rule.line k nfa₁.numLex))) nfa₂) :
    Ensures (enter rule start k) nfa₂ Q F := by
  refine ensures_bind (ensures_get ?_)
  rw [h.numLex]
  by_cases hk : k < nfa₁.numLex
  · have hk₀ : 2 * k < nfa₁.size := by omega
    have hk₁ : 2 * k + 1 < nfa₁.size := by omega
    rw [if_pos hk]
    dsimp only
    split
    · next hline =>
      have h' := h.addEpsilon hk₁
      refine ensures_addEpsilon (by rwa [h.size]) (hok _ hk (h'.congr fun i => ?_))
      simp [EntersAt, hline]
    · next hline =>
      have h' := (h.addEpsilon hk₀).addEpsilon hk₁
      refine ensures_bind (ensures_addEpsilon (by rwa [h.size]) ?_)
      refine ensures_addEpsilon (by rwa [(h.addEpsilon hk₀).size]) (hok _ hk (h'.congr fun i => ?_))
      rw [Bool.not_eq_true] at hline
      simp only [EntersAt, hline, true_and, or_assoc]
      exact or_congr_right or_comm
  · rw [if_neg hk]
    exact ensures_throw (herr (Nat.le_of_not_lt hk))

/-- The lexical states in which a rule is active. -/
def statesOf (lex : LexStates) (rule : Rule) : List Nat :=
  if rule.states.isEmpty then lex.inclusive else rule.states

theorem enterAll_ensures (hle : 2 * nfa.numLex ≤ nfa.size)
    (hlex : ∀ k ∈ lex.inclusive, k < nfa.numLex) :
    Ensures ((statesOf lex rule).forM (enter rule start)) nfa
      (fun _ nfa' => (∀ k ∈ statesOf lex rule, k < nfa.numLex) ∧
        Links (fun i => ∃ k ∈ statesOf lex rule, EntersAt rule k i) start nfa nfa')
      (fun e _ => NoLexState rule nfa.numLex e) := by
  refine ensures_forM (I := fun done nfa' => (∀ k ∈ done, k < nfa.numLex) ∧
    Links (fun i => ∃ k ∈ done, EntersAt rule k i) start nfa nfa')
    ⟨by simp, (Links.refl start nfa).congr (by simp)⟩ ?_
  intro done k hmem nfa₁ ⟨hlt, h⟩
  refine enter_ensures h hle (fun nfa₂ hk h' => ⟨?_, h'.congr fun i => ?_⟩) fun hk => ?_
  · intro k' hk'
    rcases List.mem_append.1 hk' with hk' | hk'
    · exact hlt k' hk'
    · rwa [List.mem_singleton.1 hk']
  · simp only [List.mem_append, List.mem_singleton, or_and_right, exists_or, exists_eq_left]
  · unfold statesOf at hmem
    split at hmem
    · exact absurd (hlex k hmem) (Nat.not_lt.2 hk)
    · exact ⟨k, hmem, hk, rfl⟩

end Build

/-- What a rule means: it is in force in its lexical states, and there matches what its expression
matches, followed by what its lookahead matches. -/
def Rule.clause (p : Partition) (t : MacroTable) (lex : LexStates) (rule : Rule) : Clause where
  entries i := ∃ k ∈ Build.statesOf lex rule, Build.EntersAt rule k i
  language := match rule.lookahead? with
    | some r => p.languageOver t rule.regex * p.languageOver t r
    | none => p.languageOver t rule.regex
  action := match rule.lookahead? with
    | some _ => rule.action.asLookahead
    | none => rule.action

/-- The clause of the rule that echoes any one code. -/
def echoClause (numClasses numLex : Nat) : Clause where
  entries i := i < 2 * numLex
  language := {w | ∃ k < numClasses, w = [k]}
  action := Build.echo

namespace Build

open Nfa

variable {limit : Nat} {nfa nfa₁ nfa₂ : Nfa} {start : Nat} {E : Nat → Prop} {p : Partition}
  {t : MacroTable} {lex : LexStates} {rule : Rule} {cs : List Clause}

/-- The automaton can be built for the expression. -/
def Buildable (p : Partition) (t : MacroTable) (r : Regex) : Prop :=
  t.Grounded r ∧ ∀ l, t.Occurs l r → p.FineFor l

section Accept

variable {nfa₃ : Nfa} {f : Fragment} {K : Language Nat} {a : Action} {Q : Unit → Nfa → Prop}
  {F : Failure → Nfa → Prop} (h : Links E start nfa₁ nfa₂) (h₁ : Grown limit nfa nfa₁)
  (hE : ∀ {i}, E i → i < 2 * nfa.numLex)

include h h₁ hE

theorem accept_ensures (hg : Grown limit (nfa₂.restrict nfa.size) nfa₃)
    (hf : IsFragment (nfa₂.restrict nfa.size) nfa₃ f K) (hstart : f.start = start)
    (hok : ∀ nfa₄, AddsClause limit nfa nfa₄ ⟨E, K, a⟩ start → Q () nfa₄) :
    Ensures (accept f.stop a) nfa₃ Q F := by
  have hsize := h.size_restrict h₁
  refine ensures_change hf.stop_lt (hok _ (h.addsClause h₁ hE hg hf hstart ?_))
  refine finishes_accept (fun hi => hg.not_accepts (hsize.symm ▸ hi)) ⟨?_, hf.stop_lt⟩
  exact hsize ▸ hf.stop_ge

/-- The lookahead `g` is put behind `f`, and the state is marked to which the input goes back. -/
theorem acceptLookahead_ensures {g : Fragment} {L : Language Nat}
    (h₂ : Grown limit (nfa₂.restrict nfa.size) nfa₂)
    (hf : IsFragment (nfa₂.restrict nfa.size) nfa₂ f K) (hstart : f.start = start)
    (h₃ : Grown limit nfa₂ nfa₃) (hg : IsFragment nfa₂ nfa₃ g L)
    (hok : ∀ nfa₄, AddsClause limit nfa nfa₄ ⟨E, K * L, a⟩ start → Q () nfa₄) :
    Ensures (do addEpsilon f.stop g.start; markPushback f.stop; accept g.stop a) nfa₃ Q F := by
  have hsize := h.size_restrict h₁
  have hf₃ := hf.toEnds.frame h₃.toApart
  have hg₃ := hg.toEnds.lower h₂.toApart h₃.toApart
  refine ensures_bind (ensures_wireEpsilon (.refl (h₂.trans h₃).toApart) hf₃.bounds.2 hg₃.bounds.1
    fun nfa₄ h₄ hw => ?_)
  have hcat := hw.cat (by simp) h₂.toApart hf h₃.toApart hg
  have hnone : ∀ {i a?}, nfa.size ≤ i → ¬nfa₄.Accepts i a? := fun hi =>
    hw.apart.not_accepts (hsize.symm ▸ hi)
  refine ensures_bind (ensures_change (h₄.symm ▸ hf₃.stop_lt) ?_)
  have hlt : g.stop < (nfa₄.modify f.stop ({ · with isPushback := true })).size := by
    rw [size_modify]
    exact hcat.stop_lt
  refine ensures_change hlt (hok _ ?_)
  have hmark : nfa.size ≤ f.stop := hsize ▸ hf.stop_ge
  refine h.addsClause h₁ hE (hw.grown (h₂.trans h₃) (by simp)) hcat hstart
    (Finishes.of_pushback hmark ?_)
  refine finishes_accept (fun hi => not_accepts_pushback (hnone hi)) ⟨?_, hlt⟩
  exact hsize ▸ hcat.stop_ge

end Accept

theorem addRule_ensures (hp : p.Valid) (hr : Recognizes nfa cs)
    (hn : nfa.numClasses = p.numClasses) (hlex : ∀ k ∈ lex.inclusive, k < nfa.numLex)
    (hrule : ∀ r ∈ rule.exprs, Buildable p t r) :
    Ensures (addRule p limit t lex rule) nfa
      (fun _ nfa' => ∃ start, AddsClause limit nfa nfa' (rule.clause p t lex) start)
      (fun e _ => e = .error (.stateLimit limit) ∨ NoLexState rule nfa.numLex e) := by
  obtain ⟨hg, hl⟩ := hrule rule.regex List.mem_cons_self
  refine ensures_bind ((builds_insert hp hg hl nfa hr.inRange hn).mono ?_ fun _ _ h => .inl h.1)
  intro f nfa₁ ⟨h₁, hf⟩
  have hle : 2 * nfa₁.numLex ≤ nfa₁.size := by
    rw [h₁.numLex]
    exact Nat.le_trans hr.entries_le h₁.size_le
  refine ensures_bind ((enterAll_ensures hle (by rwa [h₁.numLex])).mono ?_ ?_)
  · intro _ nfa₂ ⟨hstates, h₂⟩
    have hE : ∀ {i}, (∃ k ∈ statesOf lex rule, EntersAt rule k i) → i < 2 * nfa.numLex := by
      intro i ⟨k, hk, hi⟩
      exact hi.lt (h₁.numLex ▸ hstates k hk)
    have hE' : ∀ {i}, (∃ k ∈ statesOf lex rule, EntersAt rule k i) → i < nfa.size := fun hi =>
      Nat.lt_of_lt_of_le (hE hi) hr.entries_le
    have hg₂ := h₂.grown h₁ hE'
    have hf₂ := h₂.isFragment h₁ hE' hf
    unfold Rule.clause
    cases hlook : rule.lookahead? with
    | none => exact accept_ensures h₂ h₁ hE hg₂ hf₂ rfl fun nfa₃ h => ⟨f.start, h⟩
    | some r =>
      obtain ⟨hg', hl'⟩ := hrule r (by simp [Rule.exprs, hlook])
      have hr₂ := h₂.inRange (h₁.inRange hr.inRange) hf.start_lt
      have hn₂ := h₂.numClasses.trans (h₁.numClasses.trans hn)
      refine ensures_bind ((builds_insert hp hg' hl' nfa₂ hr₂ hn₂).mono ?_ fun _ _ h => .inl h.1)
      intro g nfa₃ ⟨h₃, hg⟩
      exact acceptLookahead_ensures h₂ h₁ hE hg₂ hf₂ rfl h₃ hg fun nfa₄ h => ⟨f.start, h⟩
  · intro e nfa₂ he
    rw [h₁.numLex] at he
    exact .inr he

theorem enterEcho_ensures {l : List Nat} {Q : Unit → Nfa → Prop} {F : Failure → Nfa → Prop}
    (hl : ∀ i ∈ l, i < nfa.size)
    (hok : ∀ nfa', Links (· ∈ l) start nfa nfa' → Q () nfa') :
    Ensures (l.forM (addEpsilon · start)) nfa Q F := by
  refine (ensures_forM (I := fun done nfa' => Links (· ∈ done) start nfa nfa')
    ((Links.refl start nfa).congr (by simp)) ?_).mono (fun _ => hok) fun _ _ h => h
  intro done i hi nfa₁ h
  have hi := hl i hi
  exact ensures_addEpsilon (by rwa [h.size]) ((h.addEpsilon hi).congr (by simp))

theorem addEcho_ensures (hr : Recognizes nfa cs) :
    Ensures (addEcho limit) nfa
      (fun _ nfa' => ∃ start,
        AddsClause limit nfa nfa' (echoClause nfa.numClasses nfa.numLex) start)
      (Stopped limit nfa) := by
  have hb := hr.inRange
  refine ensures_bind (ensures_wireState (.refl (.refl limit nfa)) fun nfa₁ h₁ h => ?_)
  refine ensures_bind (ensures_wireState h fun nfa₂ h₂ h => ?_)
  refine ensures_bind (ensures_get ?_)
  have hclasses := h.apart.numClasses
  refine ensures_bind (ensures_wireMoves h (by omega) (by omega) fun nfa₃ h₃ h => ?_)
  have hg : Grown limit nfa nfa₃ := h.grown (.refl limit nfa) (by simp +contextual [hclasses])
  have hf : IsFragment nfa nfa₃ ⟨nfa.size, nfa₁.size⟩ {w | ∃ k < nfa.numClasses, w = [k]} := by
    refine h.direct hb.linked (.refl limit nfa) (O := fun o => ∃ k < nfa.numClasses, o = some k) ?_
      ?_ (by omega) (by omega) (by omega)
    · intro a o b
      simp only [false_or, List.mem_range, hclasses]
    · intro w
      constructor
      · rintro ⟨k, hk, rfl⟩
        exact ⟨some k, ⟨k, hk, rfl⟩, rfl⟩
      · rintro ⟨_, ⟨k, hk, rfl⟩, rfl⟩
        exact ⟨k, hk, rfl⟩
  refine ensures_bind (ensures_get ?_)
  have hle := hr.entries_le
  have hsub : ∀ i ∈ List.range (2 * nfa₃.numLex), i < nfa₃.size := by
    intro i hi
    have := List.mem_range.1 hi
    rw [hg.numLex] at this
    omega
  refine ensures_bind (enterEcho_ensures hsub fun nfa₄ h₄ => ?_)
  have h₄ := h₄.congr fun i => by rw [List.mem_range, hg.numLex]
  have hE : ∀ {i}, i < 2 * nfa.numLex → i < nfa.size := fun hi => Nat.lt_of_lt_of_le hi hle
  exact accept_ensures h₄ hg id (h₄.grown hg hE) (h₄.isFragment hg hE hf) rfl
    fun nfa₅ h₅ => ⟨nfa.size, h₅⟩

end Build

/-! ## Specifications -/

/-- The clauses of a specification, in the order of its rules. -/
def Spec.clauses (spec : Spec) (p : Partition) : List Clause :=
  spec.rules.map (Rule.clause p spec.macros spec.states) ++
    if spec.standalone then [echoClause p.numClasses spec.states.size] else []

namespace Nfa

open Build

variable {limit : Nat} {p : Partition} {spec : Spec}

theorem edge_entries {numClasses numLex i j : Nat} {o : Option Nat} :
    ¬(entries numClasses numLex).Edge i o j := by
  intro h
  have hget : (entries numClasses numLex).states[i]? = some .blank := by
    show (Array.replicate (2 * numLex) NfaState.blank)[i]? = _
    rw [Array.getElem?_replicate, if_pos]
    have := h.lt_size
    rwa [size, entries, Array.size_replicate] at this
  cases o with
  | none =>
    unfold Edge at h
    rw [epsilonOf, hget] at h
    exact IdSet.not_mem_empty h
  | some k =>
    unfold Edge at h
    rw [movesOf, hget] at h
    exact absurd h List.not_mem_nil

theorem size_entries (numClasses numLex : Nat) : (entries numClasses numLex).size = 2 * numLex :=
  Array.size_replicate

theorem not_accepts_entries {numClasses numLex l : Nat} {a? : Option Action} :
    ¬(entries numClasses numLex).Accepts l a? := by
  intro ⟨s, hs, hfinal, _⟩
  have hs : (Array.replicate (2 * numLex) NfaState.blank)[l]? = some s := hs
  rw [Array.getElem?_replicate, Option.ite_none_right_eq_some, Option.some.injEq] at hs
  obtain ⟨-, rfl⟩ := hs
  cases hfinal

theorem recognizes_entries (numClasses numLex : Nat) :
    Recognizes (entries numClasses numLex) [] where
  inRange := ⟨fun h => absurd h edge_entries, fun h => absurd h edge_entries⟩
  entries_le := Nat.le_of_eq (size_entries ..).symm
  not_entered h := absurd h edge_entries
  accepts_iff _ := iff_of_false (fun ⟨_, _, ha⟩ => not_accepts_entries ha) (by simp)

theorem ranked_entries (numClasses numLex : Nat) :
    Ranked (entries numClasses numLex) [] fun _ => 0 where
  mono := monotone_const
  le_length _ _ := Nat.le_refl 0
  accepts_iff _ := iff_of_false (fun ⟨_, _, ha, _⟩ => not_accepts_entries ha) (by simp)

/-- What holds of the automaton while rules are added. -/
structure Built (limit numClasses numLex : Nat) (cs : List Clause) (nfa : Nfa) : Prop where
  recognizes : Recognizes nfa cs
  ranked : ∃ rank, Ranked nfa cs rank
  numClasses_eq : nfa.numClasses = numClasses
  numLex_eq : nfa.numLex = numLex
  size_le : nfa.size ≤ limit

theorem Built.add {numClasses numLex : Nat} {cs : List Clause} {c : Clause} {nfa nfa' : Nfa}
    {start : Nat} (h : Built limit numClasses numLex cs nfa)
    (h' : AddsClause limit nfa nfa' c start) : Built limit numClasses numLex (cs ++ [c]) nfa' where
  recognizes := h.recognizes.add h'
  ranked := by
    obtain ⟨rank, hrank⟩ := h.ranked
    exact ⟨_, hrank.add h.recognizes h'⟩
  numClasses_eq := h'.numClasses.trans h.numClasses_eq
  numLex_eq := h'.numLex.trans h.numLex_eq
  size_le := by
    have := h'.bounded
    have := h.size_le
    omega

theorem start_spec (numClasses numLex estimate limit : Nat) :
    Yields (start numClasses numLex estimate limit)
      (Built limit numClasses numLex []) (fun e => e = .error (.stateLimit limit)) := by
  unfold start
  split
  · exact rfl
  · next h =>
    rw [Bool.or_eq_true, decide_eq_true_eq, not_or] at h
    refine ⟨recognizes_entries .., ⟨_, ranked_entries ..⟩, rfl, rfl, ?_⟩
    rw [size_entries]
    exact Nat.le_of_not_lt h.1

theorem yields_run {α : Type} {act : Build α} {nfa : Nfa} {Q : α → Nfa → Prop}
    {E : Failure → Nfa → Prop} (h : Ensures act nfa Q E) :
    Yields (Build.run act nfa) (fun x => Q x.1 x.2) (fun e => ∃ nfa', E e nfa') := by
  unfold Ensures at h
  unfold Build.run
  split at h
  · next heq =>
    rw [heq]
    exact h
  · next nfa' heq =>
    rw [heq]
    exact ⟨nfa', h⟩

/-- Why an automaton is not built: it would have too many states, or a rule lists a lexical state
that does not exist. -/
def Refused (limit : Nat) (spec : Spec) (e : Failure) : Prop :=
  e = .error (.stateLimit limit) ∨ ∃ rule ∈ spec.rules, NoLexState rule spec.states.size e

theorem addRules_ensures {nfa : Nfa} (hp : p.Valid)
    (hexprs : ∀ r ∈ spec.exprs, Buildable p spec.macros r)
    (h : Built limit p.numClasses spec.states.size [] nfa) :
    Ensures (spec.rules.forM (addRule p limit spec.macros spec.states)) nfa
      (fun _ nfa' => Built limit p.numClasses spec.states.size
        (spec.rules.map (Rule.clause p spec.macros spec.states)) nfa')
      (fun e _ => Refused limit spec e) := by
  refine ensures_forM (I := fun done nfa' => Built limit p.numClasses spec.states.size
    (done.map (Rule.clause p spec.macros spec.states)) nfa') h ?_
  intro done rule hmem nfa₁ h₁
  have hrule : ∀ r ∈ rule.exprs, Buildable p spec.macros r := fun r hr =>
    hexprs r (List.mem_flatMap.2 ⟨rule, hmem, hr⟩)
  refine (addRule_ensures hp h₁.recognizes h₁.numClasses_eq
    (h₁.numLex_eq ▸ spec.states.inclusive_lt) hrule).mono ?_ ?_
  · intro _ nfa₂ ⟨start, h₂⟩
    rw [List.map_append]
    exact h₁.add h₂
  · rintro e _ (he | he)
    · exact .inl he
    · exact .inr ⟨rule, hmem, h₁.numLex_eq ▸ he⟩

/-- The automaton of a specification recognizes the clauses of its rules. -/
theorem ofSpec_spec (hp : p.Valid)
    (hexprs : ∀ r ∈ spec.exprs, Buildable p spec.macros r) :
    Yields (ofSpec spec p limit) (Built limit p.numClasses spec.states.size (spec.clauses p))
      (Refused limit spec) := by
  unfold ofSpec
  refine yields_bind ((start_spec ..).mono (fun nfa h => ?_) fun _ h => .inl h)
  refine yields_bind ((yields_run (Q := fun _ nfa' =>
    Built limit p.numClasses spec.states.size (spec.clauses p) nfa')
    (E := fun e _ => Refused limit spec e) ?_).mono ?_ ?_)
  · refine ensures_bind ((addRules_ensures hp hexprs h).mono (fun _ nfa' h' => ?_)
      fun _ _ h => h)
    unfold Spec.clauses
    split
    · refine (addEcho_ensures h'.recognizes).mono ?_ fun e _ he => .inl he.1
      intro _ nfa'' ⟨start, h''⟩
      rw [h'.numClasses_eq, h'.numLex_eq] at h''
      exact h'.add h''
    · rw [List.append_nil]
      exact ensures_pure h'
  · rintro ⟨_, nfa'⟩ h'
    exact h'
  · intro e ⟨_, he⟩
    exact he

end Nfa

end ScannerGen
