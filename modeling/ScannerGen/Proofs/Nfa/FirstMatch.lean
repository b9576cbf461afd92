import ScannerGen.Proofs.Nfa.Denotation
import ScannerGen.Proofs.Regex.Edges

/-
  Where the text up to a match ends. The fragment of `upTo` has no match before the last copy of its
  expression, but it allows matches that begin there and end inside the copy, and matches that begin
  with the copy and end before it. So it can run past the end of the first match
  (`upTo_runs_past_first_match`), by less than the length of the last one. It never does exactly if
  no match ends inside another one (`insert_upTo_stops_fresh`).
-/

namespace ScannerGen

section Words

variable {α : Type} {L : Language α} {A : Set α} {u v w : List α}

/-- There is a match somewhere in the word. -/
def Contains (L : Language α) (w : List α) : Prop := ∃ v ∈ L, v <:+: w

theorem Contains.mono (h : Contains L u) (hu : u <:+: w) : Contains L w := by
  obtain ⟨v, hv, hvu⟩ := h
  exact ⟨v, hv, hvu.trans hu⟩

theorem contains_nil_iff : Contains L [] ↔ [] ∈ L := by
  constructor
  · intro ⟨v, hv, hinfix⟩
    rwa [List.infix_nil.1 hinfix] at hv
  · exact fun h => ⟨[], h, List.infix_rfl⟩

/-- The word ends where the first match in it does. -/
structure EndsAtFirst (L : Language α) (w : List α) : Prop where
  ends : ∃ v ∈ L, v <:+ w
  first : ∀ u, u <+: w → u ≠ w → ¬Contains L u

/-- The word ends with a match, and there is none in what comes before. -/
def EndsFresh (L : Language α) (w : List α) : Prop := ∃ u v, u ++ v = w ∧ ¬Contains L u ∧ v ∈ L

theorem mem_around_iff (hw : w ∈ words A) : w ∈ words A * L * words A ↔ Contains L w := by
  constructor
  · intro h
    obtain ⟨x, hx, b, -, rfl⟩ := Language.mem_mul.1 h
    obtain ⟨a, -, v, hv, rfl⟩ := Language.mem_mul.1 hx
    exact ⟨v, hv, a, b, rfl⟩
  · rintro ⟨v, hv, a, b, rfl⟩
    rw [append_mem_words, append_mem_words] at hw
    exact Language.append_mem_mul (Language.append_mem_mul hw.1.1 hv) hw.2

theorem mem_upTo_iff (hw : w ∈ words A) :
    w ∈ rejects A (words A * L * words A) * L ↔ EndsFresh L w := by
  rw [Language.mem_mul]
  constructor
  · rintro ⟨u, hu, v, hv, rfl⟩
    exact ⟨u, v, rfl, fun h => hu.2 ((mem_around_iff hu.1).2 h), hv⟩
  · rintro ⟨u, v, rfl, hu, hv⟩
    obtain ⟨huA, -⟩ := append_mem_words.1 hw
    exact ⟨u, ⟨huA, fun h => hu ((mem_around_iff huA).1 h)⟩, v, hv, rfl⟩

theorem EndsAtFirst.endsFresh (h : EndsAtFirst L w) (hempty : [] ∉ L) : EndsFresh L w := by
  obtain ⟨v, hv, u, rfl⟩ := h.ends
  refine ⟨u, v, rfl, h.first u (List.prefix_append u v) fun heq => ?_, hv⟩
  rw [List.self_eq_append_right] at heq
  exact hempty (heq ▸ hv)

/-- Where there is a match, one of them ends first. -/
theorem Contains.exists_first (h : Contains L w) : ∃ u, u <+: w ∧ EndsAtFirst L u := by
  induction w using List.reverseRecOn with
  | nil =>
    refine ⟨[], List.prefix_rfl, ⟨[], contains_nil_iff.1 h, List.suffix_rfl⟩, fun u hu hne => ?_⟩
    exact absurd (List.prefix_nil.1 hu) hne
  | append_singleton w a ih =>
    by_cases hw : Contains L w
    · obtain ⟨u, hu, hfirst⟩ := ih hw
      exact ⟨u, hu.trans (List.prefix_append w [a]), hfirst⟩
    · refine ⟨w ++ [a], List.prefix_rfl, ?_, fun u hu hne hcontains => ?_⟩
      · obtain ⟨v, hv, hinfix⟩ := h
        refine ⟨v, hv, ?_⟩
        exact (List.infix_concat_iff.1 hinfix).resolve_right fun hvw => hw ⟨v, hv, hvw⟩
      · have huw := (List.prefix_concat_iff.1 hu).resolve_left hne
        exact hw (hcontains.mono huw.isInfix)

/-- The first match ends inside the last one. -/
theorem EndsFresh.exists_first (h : EndsFresh L w) :
    ∃ u x v, u ++ x = w ∧ EndsAtFirst L u ∧ v ∈ L ∧ v <:+ w ∧ x.length < v.length := by
  obtain ⟨b, v, rfl, hb, hv⟩ := h
  obtain ⟨u, ⟨x, hx⟩, hfirst⟩ :=
    Contains.exists_first (L := L) ⟨v, hv, (List.suffix_append b v).isInfix⟩
  refine ⟨u, x, v, hx, hfirst, hv, List.suffix_append b v, ?_⟩
  by_contra hle
  have hlen := congrArg List.length hx
  rw [List.length_append, List.length_append] at hlen
  have hub : u <+: b := List.prefix_of_prefix_length_le ⟨x, hx⟩ (List.prefix_append b v) (by omega)
  obtain ⟨m, hm, hmu⟩ := hfirst.ends
  exact hb ⟨m, hm, hmu.isInfix.trans hub.isInfix⟩

/-- No match ends inside another one, wherever it begins. -/
structure Separate (L : Language α) : Prop where
  inside : ∀ v ∈ L, ∀ u, u <+: v → u ≠ v → ¬Contains L u
  overlap : ∀ {x y z}, x ++ y ∈ L → y ++ z ∈ L → y ≠ [] → z = []

theorem EndsFresh.endsAtFirst (h : EndsFresh L w) (hL : Separate L) : EndsAtFirst L w := by
  obtain ⟨b, v, rfl, hb, hv⟩ := h
  refine ⟨⟨v, hv, List.suffix_append b v⟩, ?_⟩
  rintro u ⟨z, hz⟩ hne ⟨m, hm, a, c, rfl⟩
  have hzne : z ≠ [] := by
    rintro rfl
    exact hne ((List.append_nil _).symm.trans hz)
  rw [List.append_assoc, List.append_assoc] at hz
  rcases List.append_eq_append_iff.1 hz with ⟨s, rfl, hs⟩ | ⟨a', rfl, rfl⟩
  · -- the match begins before the last one
    rcases List.append_eq_append_iff.1 hs with ⟨y, rfl, hy⟩ | ⟨y, rfl, rfl⟩
    · exact hb ⟨m, hm, a, y, by rw [List.append_assoc]⟩
    · by_cases hy : y = []
      · subst hy
        rw [List.append_nil] at hm
        exact hb ⟨s, hm, a, [], by rw [List.append_nil]⟩
      · have := hL.overlap hm hv hy
        exact hzne (List.append_eq_nil_iff.1 this).2
  · refine hL.inside _ hv (a' ++ (m ++ c)) ⟨z, by simp only [List.append_assoc]⟩ ?_
      ⟨m, hm, a', c, by rw [List.append_assoc]⟩
    intro heq
    simp only [← List.append_assoc] at heq
    exact hzne (List.self_eq_append_right.1 heq)

/-- Unless matches are separate, some word runs past the first of them. -/
theorem separate_iff (hempty : [] ∉ L) (hL : L ≤ words A) :
    (∀ w ∈ words A, EndsFresh L w ↔ EndsAtFirst L w) ↔ Separate L := by
  refine ⟨fun h => ?_, fun h w _ => ⟨fun hw => hw.endsAtFirst h, fun hw => hw.endsFresh hempty⟩⟩
  have hinside : ∀ v ∈ L, ∀ u, u <+: v → u ≠ v → ¬Contains L u := by
    intro v hv
    exact ((h v (hL hv)).1 ⟨[], v, rfl, fun h => hempty (contains_nil_iff.1 h), hv⟩).first
  refine ⟨hinside, fun {x y z} hxy hyz hy => ?_⟩
  by_contra hz
  -- a match in `x` would end inside `x ++ y`
  have hx : ¬Contains L x := hinside _ hxy x (List.prefix_append x y) fun heq =>
    hy (List.self_eq_append_right.1 heq)
  have hwords : x ++ (y ++ z) ∈ words A :=
    append_mem_words.2 ⟨(append_mem_words.1 (hL hxy)).1, hL hyz⟩
  have hfirst := ((h _ hwords).1 ⟨x, y ++ z, rfl, hx, hyz⟩).first (x ++ y)
    ⟨z, List.append_assoc x y z⟩
  refine hfirst (fun heq => hz ?_) ⟨x ++ y, hxy, List.infix_rfl⟩
  rw [← List.append_assoc] at heq
  exact List.self_eq_append_right.1 heq

/-- What it means to accept the words that end fresh: all that end at their first match are among
them, the others go on by less than a match, and there are no others exactly if matches are
separate. -/
structure StopsFresh (A : Set α) (L : Language α) (accepts : List α → Prop) : Prop where
  endsFresh_iff : ∀ w ∈ words A, accepts w ↔ EndsFresh L w
  of_endsAtFirst : ∀ w ∈ words A, EndsAtFirst L w → accepts w
  exists_first : ∀ w ∈ words A, accepts w → ∃ u x v, u ++ x = w ∧ EndsAtFirst L u ∧ v ∈ L ∧
    v <:+ w ∧ x.length < v.length
  separate_iff : (∀ w ∈ words A, accepts w ↔ EndsAtFirst L w) ↔ Separate L

theorem StopsFresh.of_iff {accepts : List α → Prop} (hempty : [] ∉ L) (hL : L ≤ words A)
    (h : ∀ w ∈ words A, accepts w ↔ EndsFresh L w) : StopsFresh A L accepts where
  endsFresh_iff := h
  of_endsAtFirst w hw hfirst := (h w hw).2 (hfirst.endsFresh hempty)
  exists_first w hw haccepts := ((h w hw).1 haccepts).exists_first
  separate_iff := by
    rw [← ScannerGen.separate_iff hempty hL]
    refine forall₂_congr fun w hw => ?_
    rw [h w hw]

end Words

theorem MacroTable.Grounded.language_upTo {t : MacroTable} {r : Regex} (h : t.Grounded r)
    (top : Nat) : t.language top (.upTo r) = rejects {c | c ≤ top} (words {c | c ≤ top} *
      t.language top r * words {c | c ≤ top}) * t.language top r := by
  have hupTo : t.Grounded (.upTo r) := h.of_subset fun _ hn => hn
  unfold MacroTable.language
  have hlocal := (Regex.structural_language top).isLocal
  rw [h.follow_unfold hlocal, hupTo.follow_unfold hlocal]
  rfl

namespace Build

open Nfa ScannerGen.Partition

variable {limit : Nat} {p : Partition} {t : MacroTable} {r : Regex} {nfa : Nfa}

theorem Buildable.upTo (h : Buildable p t r) : Buildable p t (.upTo r) := by
  refine ⟨h.1.of_subset fun _ hn => hn, fun l hl => h.2 l ?_⟩
  cases hl with
  | here h => exact .here h
  | through hn hd h => exact .through hn hd h

theorem Buildable.ensures_insert_upTo (h : Buildable p t r) (hp : p.Valid) (hb : nfa.InRange)
    (hn : nfa.numClasses = p.numClasses) :
    Ensures (insert p limit t (.upTo r)) nfa
      (fun f nfa' => ∀ w ∈ words {c | c ≤ p.top},
        (nfa'.Path f.start (w.map p.classOf) f.stop ↔ EndsFresh (t.language p.top r) w))
      (Stopped limit nfa) := by
  refine (h.upTo.ensures_insert hp hb hn).mono (fun f nfa' hf w hw => ?_) fun _ _ h => h
  rw [hf w hw, h.1.language_upTo, mem_upTo_iff hw]

/-- The fragment does not tell where the first match ends, but where one ends that is fresh. -/
theorem insert_upTo_stops_fresh (limit : Nat) (p : Partition) (t : MacroTable) (r : Regex)
    (nfa : Nfa) (hp : p.Valid) (hr : Buildable p t r) (hempty : [] ∉ t.language p.top r)
    (hb : nfa.InRange) (hn : nfa.numClasses = p.numClasses) (f : Fragment) (nfa' : Nfa)
    (hok : insert p limit t (.upTo r) nfa = .ok f nfa') :
    StopsFresh {c | c ≤ p.top} (t.language p.top r)
      fun w => nfa'.Path f.start (w.map p.classOf) f.stop :=
  .of_iff hempty hr.1.language_le_words ((hr.ensures_insert_upTo hp hb hn).of_ok hok)

/-- A match that overlaps a copy of itself. -/
def doubleA : Regex := .text "aa" false

/-- The letter `a` and all other codes. -/
def doubleAPartition : Partition := refined 127 [(.text "aa", false)]

theorem buildable_doubleA : Buildable doubleAPartition .empty doubleA :=
  buildable_refined 127 (.of_closed rfl) fun _ hl =>
    hl.of_forall (P := fun l => ∀ s ∈ l.sets, s ∈ shownSets [(.text "aa", false)]) (by decide)
      (by decide)

theorem mem_language_doubleA {w : List Nat} :
    w ∈ MacroTable.empty.language 127 doubleA ↔ w = [97, 97] := by
  have hcode : ∀ {c}, (CodePattern.code 97 false).Matches 127 c ↔ c = 97 := by
    intro c
    simp only [CodePattern.Matches, Bool.false_eq_true, false_and, or_false]
    omega
  show List.Forall₂ (fun c d => (CodePattern.code d.toNat false).Matches 127 c) w ['a', 'a'] ↔ _
  constructor
  · rintro (_ | ⟨h₁, _ | ⟨h₂, _ | _⟩⟩)
    rw [hcode.1 h₁, hcode.1 h₂]
  · rintro rfl
    exact .cons (hcode.2 rfl) (.cons (hcode.2 rfl) .nil)

theorem insert_doubleA : ∃ f nfa', insert doubleAPartition 100 .empty (.upTo doubleA)
    (.entries 2 1) = .ok f nfa' :=
  exists_eq_ok_of_run (by decide +kernel)

theorem insert_upTo_stops_fresh_doubleA : doubleAPartition.Valid ∧
    Buildable doubleAPartition .empty doubleA ∧ [] ∉ MacroTable.empty.language 127 doubleA ∧
    (Nfa.entries 2 1).InRange ∧ (Nfa.entries 2 1).numClasses = doubleAPartition.numClasses ∧
    ∃ f nfa', insert doubleAPartition 100 .empty (.upTo doubleA) (.entries 2 1) = .ok f nfa' ∧
      StopsFresh {c | c ≤ 127} (MacroTable.empty.language 127 doubleA)
        fun w => nfa'.Path f.start (w.map doubleAPartition.classOf) f.stop := by
  have hp : doubleAPartition.Valid := (refined_spec 127 _).1
  have hempty : [] ∉ MacroTable.empty.language 127 doubleA := by simp [mem_language_doubleA]
  have hb : (Nfa.entries 2 1).InRange := by decide
  have hn : (Nfa.entries 2 1).numClasses = doubleAPartition.numClasses := by decide
  obtain ⟨f, nfa', hok⟩ := insert_doubleA
  exact ⟨hp, buildable_doubleA, hempty, hb, hn, f, nfa', hok,
    insert_upTo_stops_fresh 100 doubleAPartition .empty doubleA _ hp buildable_doubleA hempty hb hn
      f nfa' hok⟩

theorem upTo_runs_past_first_match : ∃ f nfa',
    insert doubleAPartition 100 .empty (.upTo doubleA) (.entries 2 1) = .ok f nfa' ∧
      nfa'.Path f.start ([97, 97, 97].map doubleAPartition.classOf) f.stop ∧
      ¬EndsAtFirst (MacroTable.empty.language 127 doubleA) [97, 97, 97] := by
  obtain ⟨f, nfa', hok⟩ := insert_doubleA
  have hpath := (buildable_doubleA.ensures_insert_upTo (refined_spec 127 _).1 (by decide)
    (by decide)).of_ok hok [97, 97, 97] (show ∀ c ∈ [97, 97, 97], c ≤ 127 by decide)
  refine ⟨f, nfa', hok, hpath.2 ⟨[97], [97, 97], rfl, ?_, mem_language_doubleA.2 rfl⟩, fun h => ?_⟩
  · rintro ⟨v, hv, hinfix⟩
    rw [mem_language_doubleA.1 hv] at hinfix
    exact absurd hinfix.length_le (by decide)
  · exact h.first [97, 97] ⟨[97], rfl⟩ (by decide)
      ⟨[97, 97], mem_language_doubleA.2 rfl, List.infix_rfl⟩

end Build

end ScannerGen
