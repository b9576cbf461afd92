import ScannerGen.Proofs.Regex.Language

/-
  What the partition of a specification answers. For every pattern that occurs in the rules, their
  lookaheads or the macros behind them it lists the classes of just the codes that match, and the
  classes outside a set it has met are all but those inside (`ofRules_answers_exactly`).
-/

namespace ScannerGen

/-- The patterns for single codes that a leaf is made of. -/
def Leaf.patterns : Leaf → List CodePattern
  | .one q => [q]
  | .text s caseless => s.toList.map fun d => .code d.toNat caseless
  | .use _ => []

namespace Leaf

variable {l : Leaf} {q : CodePattern}

/-- What a pattern tells apart is told apart by the leaf. -/
theorem sets_pattern (hq : q ∈ l.patterns) : ∀ s ∈ (Leaf.one q).sets, s ∈ l.sets := by
  cases l with
  | one q' =>
    obtain rfl := List.mem_singleton.1 hq
    exact fun s hs => hs
  | text s caseless =>
    obtain ⟨d, hd, rfl⟩ := List.mem_map.1 hq
    intro s' hs
    obtain rfl := List.mem_singleton.1 hs
    exact List.mem_map.2 ⟨d, hd, rfl⟩
  | use name => exact absurd hq List.not_mem_nil

end Leaf

namespace Partition

variable {p : Partition} {s : CodeSet} {q : CodePattern} {ks ls : List Nat} {top : Nat}

/-- `ks` lists the classes of the codes that match. -/
structure ListsMatches (p : Partition) (q : CodePattern) (ks : List Nat) : Prop where
  lt : ∀ k ∈ ks, k < p.numClasses
  classOf_mem : ∀ c ≤ p.top, (p.classOf c ∈ ks ↔ q.Matches p.top c)

theorem Valid.classesOf_matches (hp : p.Valid) (hf : p.FineFor (.one q)) :
    ∃ ks, p.classesOf q = .ok ks ∧ p.ListsMatches q ks := by
  obtain ⟨ks, hks, hlists⟩ := hp.classesOf_spec hf
  refine ⟨ks, hks, hlists.lt, fun c hc => ?_⟩
  rw [hlists.classOf_mem hc, matches_iff_mem_codes hc]

/-- Lists for a set and for its complement share no class and leave none out. -/
theorem Lists.mem_complement_iff (hp : p.Valid) (h : p.Lists s ks)
    (h' : p.Lists (s.complement p.top) ls) (k : Nat) : k ∈ ls ↔ k < p.numClasses ∧ k ∉ ks := by
  constructor
  · intro hk
    have hlt := h'.lt k hk
    obtain ⟨c, hc, rfl⟩ := hp.exists_classOf hlt
    refine ⟨hlt, fun hmem => ?_⟩
    exact (CodeSet.mem_complement.1 ((h'.classOf_mem hc).1 hk)).2 ((h.classOf_mem hc).1 hmem)
  · rintro ⟨hlt, hk⟩
    obtain ⟨c, hc, rfl⟩ := hp.exists_classOf hlt
    rw [h'.classOf_mem hc, CodeSet.mem_complement]
    exact ⟨hc, fun hmem => hk ((h.classOf_mem hc).2 hmem)⟩

/-- The classes inside a set are found, and those outside are all the others. -/
theorem Valid.classesIn_outside (hp : p.Valid) (hf : p.Fine s) :
    ∃ ks, p.classesIn s false = .ok ks ∧
      ∀ k, k ∈ p.classesOutside s ↔ k < p.numClasses ∧ k ∉ ks := by
  obtain ⟨ks, hks, hlists⟩ := hp.classesIn_spec false hf
  exact ⟨ks, hks, hlists.mem_complement_iff hp (hp.classesOutside_spec hf)⟩

/-- The partition of the rules is found without a breach. It was refined by all sets of the leaves
that the rules reach. For every pattern in these leaves it lists, without a breach, the classes of
just the codes that match. Of every set that it was refined by it finds the classes inside, and as
those outside all the others. -/
theorem ofRules_answers_exactly (rules : List Rule) (t : MacroTable) (top : Nat) :
    let p := ofRules rules t top
    ofRules? rules t top = .ok p ∧ p.top = top ∧
      (∀ r ∈ rules.flatMap Rule.exprs, ∀ l, t.Occurs l r →
        (∀ s ∈ l.sets, s ∈ (Survey.ofRules rules t).sets) ∧
          ∀ q ∈ l.patterns, ∃ ks, p.classesOf q = .ok ks ∧ p.ListsMatches q ks) ∧
      ∀ s ∈ (Survey.ofRules rules t).sets, ∃ ks, p.classesIn s false = .ok ks ∧
        ∀ k, k ∈ p.classesOutside s ↔ k < p.numClasses ∧ k ∉ ks := by
  intro p
  obtain ⟨hok, hvalid, htop, hfine⟩ := ofRules_fine rules t top
  refine ⟨hok, htop, fun r hr l hl => ?_, fun s hs => ?_⟩
  · have hmet := Survey.ofRules_meets hr hl
    refine ⟨hmet, fun q hq => ?_⟩
    exact hvalid.classesOf_matches fun s hs => hfine s (hmet s (Leaf.sets_pattern hq s hs))
  · exact hvalid.classesIn_outside (hfine s hs)

/-- Two macros that use each other, one of them with a letter without regard to case. -/
def entangled : MacroTable :=
  let even := MacroTable.empty.define "EVEN" (.alt (.one (.code 107 true)) (.use "ODD"))
  even.define "ODD" (.cat (.one (.noneOf .digits)) (.use "EVEN"))

/-- A rule over them that has to be followed by a text. -/
def entangledRules : List Rule :=
  [(Rule.new 1 (.use "EVEN") "even").withLookahead (.text "Ab" true)]

example : (ofRules entangledRules entangled 127).classesOf (.code 107 true) = .ok [1] ∧
    (ofRules entangledRules entangled 127).classesOf (.noneOf .digits) = .ok [0, 1, 3, 4] := by
  decide +kernel

end Partition

end ScannerGen
