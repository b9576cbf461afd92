import ScannerGen.Proofs.Alphabet.Coarsest
import ScannerGen.Proofs.Nfa.Rules

/-
  Fragments and codes. Read class by class, the words over the alphabet that lead through the
  fragment of an expression are those that match it (`Buildable.ensures_insert`), negations, texts
  without regard to case and macros that are taken for classes included. No more is asked of the
  partition than that it was shown every set that occurs in the expression (`insert_is_exact`).
-/

namespace ScannerGen.Build

open Nfa ScannerGen.Partition

variable {limit : Nat} {p : Partition} {t : MacroTable} {r : Regex} {nfa : Nfa}

theorem Buildable.ensures_insert (h : Buildable p t r) (hp : p.Valid) (hb : nfa.InRange)
    (hn : nfa.numClasses = p.numClasses) :
    Ensures (insert p limit t r) nfa
      (fun f nfa' => ∀ w, (∀ c ∈ w, c ≤ p.top) →
        (nfa'.Path f.start (w.map p.classOf) f.stop ↔ w ∈ t.language p.top r))
      (Stopped limit nfa) := by
  refine (builds_insert hp h.1 h.2 nfa hb hn).mono (fun f nfa' ⟨_, hf⟩ w hw => ?_) fun _ _ h => h
  exact (hf.language _).trans (hp.languageOver_mirrors h.1 h.2 w hw)

theorem buildable_refined {shown : List (Sample × Bool)} (top : Nat) (hr : t.Grounded r)
    (hleaves : ∀ l, t.Occurs l r → ∀ s ∈ l.sets, s ∈ shownSets shown) :
    Buildable (refined top shown) t r :=
  ⟨hr, fun l hl s hs => (refined_spec top shown).2.2 s (hleaves l hl s hs)⟩

/-- Of the words over the alphabet, those that match lead through the fragment, and no others. -/
theorem insert_is_exact (shown : List (Sample × Bool)) (top limit : Nat) (t : MacroTable)
    (r : Regex) (nfa : Nfa) (hr : t.Grounded r)
    (hleaves : ∀ l, t.Occurs l r → ∀ s ∈ l.sets, s ∈ shownSets shown) (hnfa : nfa.InRange)
    (hn : nfa.numClasses = (refined top shown).numClasses) :
    (∀ f nfa', insert (refined top shown) limit t r nfa = .ok f nfa' →
      ∀ w, (∀ c ∈ w, c ≤ top) →
        (nfa'.Path f.start (w.map (refined top shown).classOf) f.stop ↔ w ∈ t.language top r)) ∧
      ∀ e nfa', insert (refined top shown) limit t r nfa = .error e nfa' →
        e = .error (.stateLimit limit) := by
  obtain ⟨hvalid, htop, -⟩ := refined_spec top shown
  have hspec : Ensures (insert (refined top shown) limit t r) nfa _ _ :=
    (buildable_refined top hr hleaves).ensures_insert hvalid hnfa hn
  rw [htop] at hspec
  exact ⟨fun f nfa' hok => hspec.of_ok hok, fun e nfa' herror => (hspec.of_error herror).1⟩

/-- One character of a name. -/
def letters : MacroTable :=
  .define .empty "letter"
    (.alt (.one (.oneOf (.ofInterval ⟨65, 90, by decide⟩))) (.one (.code 95 false)))

/-- A letter or a digit, or a negation and all up to a text in any case. -/
def tokens : Regex :=
  .alt (.alt (.use "letter") (.one (.code 48 false)))
    (.cat (.compl (.one (.noneOf (.single 10)))) (.upTo (.text "k" true)))

/-- Capitals, the underscore, a digit, the line feed, and a letter without regard to case. -/
def tokenSamples : List (Sample × Bool) :=
  [(.set (.ofInterval ⟨65, 90, by decide⟩), false), (.code 95, false), (.code 48, false),
    (.set (.single 10), false), (.text "k", true)]

theorem insert_is_exact_tokens : letters.Grounded tokens ∧
    (∀ l, letters.Occurs l tokens → ∀ s ∈ l.sets, s ∈ shownSets tokenSamples) ∧
    (Nfa.entries 7 1).InRange ∧
    (Nfa.entries 7 1).numClasses = (refined 127 tokenSamples).numClasses ∧
    ∃ f nfa', insert (refined 127 tokenSamples) 100 letters tokens (.entries 7 1) = .ok f nfa' ∧
      ∀ w, (∀ c ∈ w, c ≤ 127) →
        (nfa'.Path f.start (w.map (refined 127 tokenSamples).classOf) f.stop ↔
          w ∈ letters.language 127 tokens) := by
  have hr : letters.Grounded tokens := .of_closed_entries (by decide) (by decide)
  have hleaves : ∀ l, letters.Occurs l tokens → ∀ s ∈ l.sets, s ∈ shownSets tokenSamples :=
    fun l hl => hl.of_forall (P := fun l => ∀ s ∈ l.sets, s ∈ shownSets tokenSamples)
      (by decide +kernel) (by decide +kernel)
  have hnfa : (Nfa.entries 7 1).InRange := by decide
  have hn : (Nfa.entries 7 1).numClasses = (refined 127 tokenSamples).numClasses := by
    decide +kernel
  obtain ⟨f, nfa', hok⟩ := exists_eq_ok_of_run (show (run (insert (refined 127 tokenSamples) 100
    letters tokens) (.entries 7 1)).toOption.isSome = true by decide +kernel)
  exact ⟨hr, hleaves, hnfa, hn, f, nfa', hok, (insert_is_exact tokenSamples 127 100 letters tokens
    _ hr hleaves hnfa hn).1 f nfa' hok⟩

end ScannerGen.Build
