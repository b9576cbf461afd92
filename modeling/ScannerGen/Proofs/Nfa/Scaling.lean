import ScannerGen.Proofs.Nfa.Limit
import ScannerGen.Proofs.Nfa.Rules

/-
  The limit on the states of an automaton that is being built. Every step of the building is limited
  by the size of what it leaves (`Scales`), so the building of an expression is (`scales_insert`),
  and that of a rule (`scales_addRule`).
-/

namespace ScannerGen

variable {α β : Type}

namespace Build

open Nfa

/-- The action, whatever it is run on, is limited by the size of the automaton that it leaves. -/
def Scales (act : Nat → Build α) : Prop :=
  ∀ nfa : Nfa, LimitedBy nfa.size (·.2.size) fun limit => run (act limit) nfa

variable {act : Nat → Build α}

theorem run_bind (act : Build α) (f : α → Build β) (nfa : Nfa) :
    run (act >>= f) nfa = run act nfa >>= fun x => run (f x.1) x.2 := by
  unfold run
  cases hact : act nfa with
  | ok a nfa' =>
    rw [run_bind_ok hact]
    rfl
  | error e nfa' =>
    rw [run_bind_error hact]
    rfl

theorem Scales.bind {f : Nat → α → Build β} (h : Scales act)
    (h' : ∀ a, Scales fun limit => f limit a) : Scales fun limit => act limit >>= f limit := by
  intro nfa
  simp only [run_bind]
  exact (h nfa).bind fun x _ => h' x.1 x.2

/-- Actions that add no states know of no limit. -/
theorem scales_const {act : Build α}
    (h : ∀ nfa, Ensures act nfa (fun _ nfa' => nfa'.size = nfa.size) fun _ _ => True) :
    Scales fun _ => act := by
  intro nfa
  refine .const fun x hx => ?_
  have hsize := h nfa
  unfold Ensures at hsize
  unfold run at hx
  split at hx
  · next heq =>
    rw [heq] at hsize
    cases hx
    exact hsize
  · cases hx

theorem scales_pure (a : α) : Scales fun _ => (pure a : Build α) := scales_const fun _ => rfl

theorem scales_throw (e : Failure) : Scales fun _ => (throw e : Build α) :=
  scales_const fun _ => trivial

theorem scales_get : Scales fun _ => (get : Build Nfa) := scales_const fun _ => rfl

theorem scales_modify {f : Nfa → Nfa} (hf : ∀ nfa, (f nfa).size = nfa.size) :
    Scales fun _ => (modify f : Build Unit) := scales_const hf

theorem scales_change (i : Nat) {f : Nfa → Nfa} (hf : ∀ nfa, (f nfa).size = nfa.size) :
    Scales fun _ => change i f := by
  refine scales_const fun nfa => ?_
  unfold Ensures change
  split
  · next heq =>
    split at heq
    · cases heq
      exact hf nfa
    · cases heq
  · trivial

theorem scales_addEpsilon (i j : Nat) : Scales fun _ => addEpsilon i j :=
  scales_change i fun nfa => nfa.size_addEpsilon i j

theorem scales_addEdges (i : Nat) (ms : List (Nat × Nat)) : Scales fun _ => addEdges i ms :=
  scales_change i fun nfa => nfa.size_addMoves i ms

theorem scales_addMoves (i : Nat) (ks : List Nat) (j : Nat) : Scales fun _ => addMoves i ks j :=
  scales_addEdges i _

theorem scales_liftExcept (x : Except Failure α) : Scales fun _ => liftExcept x := by
  cases x with
  | ok a => exact scales_pure a
  | error e => exact scales_throw e

theorem scales_forM {γ : Type} {f : Nat → γ → Build Unit} {l : List γ}
    (h : ∀ x ∈ l, Scales fun limit => f limit x) : Scales fun limit => l.forM (f limit) := by
  induction l with
  | nil => exact scales_pure ()
  | cons x l ih =>
    obtain ⟨hx, hl⟩ := List.forall_mem_cons.1 h
    simp only [List.forM_eq_forM, List.forM_cons] at ih ⊢
    exact hx.bind fun _ => ih hl

theorem run_newState (limit : Nat) (nfa : Nfa) : run (newState limit) nfa =
    if limit ≤ nfa.size || !fitsMemory Nfa.stateBytes (nfa.size + 1) then
      .error (.error (.stateLimit limit))
    else .ok (nfa.size, nfa.push .blank) := by
  unfold run newState
  rw [run_get_bind]
  by_cases hfull : (limit ≤ nfa.size || !fitsMemory Nfa.stateBytes (nfa.size + 1)) = true
  · rw [if_pos hfull, if_pos hfull]
    rfl
  · rw [if_neg hfull, if_neg hfull]
    rfl

theorem scales_newState : Scales newState := by
  intro nfa limit _ x hx
  simp only [run_newState, Bool.or_eq_true, decide_eq_true_eq] at hx ⊢
  split at hx
  · cases hx
  · next hroom =>
    cases hx
    rw [not_or] at hroom
    refine ⟨by simp, fun limit' hle' => ?_⟩
    simp only [hroom.2, Bool.false_eq_true, or_false, size_push]
    by_cases hfull : limit' ≤ nfa.size
    · rw [if_pos hfull, if_neg (by omega)]
    · rw [if_neg hfull, if_pos (by omega)]

theorem scales_newStates (n : Nat) : Scales fun limit => newStates limit n := by
  induction n with
  | zero => exact scales_pure ()
  | succ n ih => exact scales_newState.bind fun _ => ih

theorem size_newStates {limit n : Nat} {nfa : Nfa} {x : Unit × Nfa}
    (h : run (newStates limit n) nfa = .ok x) : x.2.size = nfa.size + n := by
  induction n generalizing nfa with
  | zero =>
    cases h
    rfl
  | succ n ih =>
    unfold newStates at h
    rw [run_bind, run_newState] at h
    split at h
    · cases h
    · rw [ih h, size_push]
      omega

/-! ## Fragments -/

theorem scales_insertClasses (classes : Except Failure (List Nat)) :
    Scales fun limit => insertClasses limit classes := by
  unfold insertClasses
  refine (scales_liftExcept classes).bind fun ks => ?_
  refine scales_newState.bind fun start => ?_
  refine scales_newState.bind fun stop => ?_
  exact (scales_addMoves start _ stop).bind fun _ => scales_pure _

theorem scales_insertChars (p : Partition) (caseless : Bool) (i : Nat) (cs : List Char) :
    Scales fun limit => insertChars p limit caseless i cs := by
  induction cs generalizing i with
  | nil => exact scales_pure i
  | cons c cs ih =>
    refine scales_newState.bind fun j => ?_
    exact (scales_addMoves i _ j).bind fun _ => ih j

theorem scales_insertText (p : Partition) (s : String) (caseless : Bool) :
    Scales fun limit => insertText p limit s caseless := by
  unfold insertText
  refine scales_newState.bind fun start => ?_
  split
  · refine scales_newState.bind fun stop => ?_
    exact (scales_addEpsilon start stop).bind fun _ => scales_pure _
  · exact (scales_insertChars p caseless start _).bind fun _ => scales_pure _

theorem scales_wireAlt (f g : Fragment) (start stop : Nat) :
    Scales fun _ => (do
      addEpsilon start f.start
      addEpsilon start g.start
      addEpsilon f.stop stop
      addEpsilon g.stop stop
      pure ⟨start, stop⟩ : Build Fragment) := by
  refine (scales_addEpsilon start f.start).bind fun _ => ?_
  refine (scales_addEpsilon start g.start).bind fun _ => ?_
  refine (scales_addEpsilon f.stop stop).bind fun _ => ?_
  exact (scales_addEpsilon g.stop stop).bind fun _ => scales_pure _

theorem scales_alternatives (f g : Fragment) : Scales fun limit => alternatives limit f g :=
  scales_newState.bind fun start => scales_newState.bind fun stop =>
    scales_wireAlt f g start stop

theorem scales_wireRepeated (skip : Bool) (f : Fragment) (start stop : Nat) :
    Scales fun _ => (do
      addEpsilon start f.start
      addEpsilon f.stop stop
      addEpsilon f.stop f.start
      if skip then addEpsilon start stop
      pure ⟨start, stop⟩ : Build Fragment) := by
  refine (scales_addEpsilon start f.start).bind fun _ => ?_
  refine (scales_addEpsilon f.stop stop).bind fun _ => ?_
  refine (scales_addEpsilon f.stop f.start).bind fun _ => ?_
  cases skip with
  | false => exact scales_pure _
  | true => exact (scales_addEpsilon start stop).bind fun _ => scales_pure _

theorem scales_repeated (skip : Bool) (f : Fragment) :
    Scales fun limit => repeated limit skip f :=
  scales_newState.bind fun start => scales_newState.bind fun stop =>
    scales_wireRepeated skip f start stop

theorem scales_wireAround (inner : Fragment) (start before after stop : Nat) :
    Scales fun _ => (do
      let all := List.range (← get).numClasses
      addMoves before all before
      addMoves after all after
      addEpsilon start before
      addEpsilon before inner.start
      addEpsilon inner.stop after
      addEpsilon after stop
      pure ⟨start, stop⟩ : Build Fragment) := by
  refine scales_get.bind fun nfa => ?_
  refine (scales_addMoves before _ before).bind fun _ => ?_
  refine (scales_addMoves after _ after).bind fun _ => ?_
  refine (scales_addEpsilon start before).bind fun _ => ?_
  refine (scales_addEpsilon before inner.start).bind fun _ => ?_
  refine (scales_addEpsilon inner.stop after).bind fun _ => ?_
  exact (scales_addEpsilon after stop).bind fun _ => scales_pure _

theorem scales_around {act : Nat → Build Fragment} (h : Scales act) :
    Scales fun limit => around limit (act limit) :=
  scales_newState.bind fun start => scales_newState.bind fun before =>
    scales_newState.bind fun after => scales_newState.bind fun stop =>
      h.bind fun inner => scales_wireAround inner start before after stop

theorem scales_addSubsets (t : Subsets) (old first error stop : Nat) :
    Scales fun _ => addSubsets t old first error stop := by
  unfold addSubsets
  refine scales_forM fun x _ => ?_
  obtain ⟨⟨s, row⟩, i⟩ := x
  dsimp only
  split
  · exact scales_addEdges _ _
  · exact (scales_addEpsilon _ _).bind fun _ => scales_addEdges _ _

theorem pos_of_closure? {nfa : Nfa} {i : Nat} {c : IdSet} (h : nfa.closure? (.single i) = .ok c) :
    0 < nfa.size := by
  unfold closure? at h
  dsimp only at h
  split at h
  · next hall =>
    rw [List.all_eq_true] at hall
    have hi : i ∈ nfa.closure (.single i) := mem_reach_of_mem (IdSet.mem_single.2 rfl)
    have := of_decide_eq_true (hall i hi)
    omega
  · cases h

/-- The edges of a complement of `f`, a fragment of `nfa`, and which of them are dropped. -/
def wireComplement (nfa : Nfa) (f : Fragment) (t : Subsets) (start error stop : Nat) :
    Build Fragment := do
  addMoves error (List.range nfa.numClasses) error
  addEpsilon error stop
  addEpsilon start nfa.size
  addSubsets t f.stop nfa.size error stop
  modify (·.trim nfa.size stop)
  pure ⟨start, stop⟩

/-- What a complement adds to `nfa` besides the states for the sets of `t`. -/
def linkComplement (limit : Nat) (nfa : Nfa) (f : Fragment) (t : Subsets) : Build Fragment := do
  let start ← newState limit
  let error ← newState limit
  let stop ← newState limit
  wireComplement nfa f t start error stop

theorem run_complement {nfa : Nfa} {f : Fragment} {c : IdSet}
    (hc : nfa.closure? (.single f.start) = .ok c) (limit : Nat) :
    run (complement limit f) nfa =
      Subsets.ofStart nfa.closedMoves nfa.numClasses limit (.single c) >>= fun t =>
        run (do newStates limit t.sets.size; linkComplement limit nfa f t) nfa := by
  have hdemand : demand (nfa.closure? (.single f.start)) nfa = .ok c nfa := by
    rw [hc]
    rfl
  unfold run complement
  rw [run_get_bind]
  dsimp only
  rw [run_bind_ok hdemand]
  cases Subsets.ofStart nfa.closedMoves nfa.numClasses limit (.single c) with
  | ok t => rfl
  | error e => rfl

theorem scales_wireComplement (nfa : Nfa) (f : Fragment) (t : Subsets) (start error stop : Nat) :
    Scales fun _ => wireComplement nfa f t start error stop := by
  refine (scales_addMoves error _ error).bind fun _ => ?_
  refine (scales_addEpsilon error stop).bind fun _ => ?_
  refine (scales_addEpsilon start nfa.size).bind fun _ => ?_
  refine (scales_addSubsets t f.stop nfa.size error stop).bind fun _ => ?_
  exact (scales_modify fun nfa' => size_trim nfa' _ _).bind fun _ => scales_pure _

theorem scales_linkComplement (nfa : Nfa) (f : Fragment) (t : Subsets) :
    Scales fun limit => linkComplement limit nfa f t :=
  scales_newState.bind fun start => scales_newState.bind fun error =>
    scales_newState.bind fun stop => scales_wireComplement nfa f t start error stop

/-- The sets of a complement are numbered before any state is added for them, but a limit that is
too small for their number is too small for the states. -/
theorem scales_complement (f : Fragment) : Scales fun limit => complement limit f := by
  intro nfa
  cases hc : nfa.closure? (.single f.start) with
  | error b =>
    have hrun : ∀ limit, run (complement limit f) nfa = .error (.breach b) := by
      intro limit
      unfold run complement
      rw [run_get_bind]
      dsimp only
      rw [hc]
      rfl
    simp only [hrun]
    exact .const fun _ h => by cases h
  | ok c =>
    simp only [run_complement hc]
    refine (Subsets.limitedBy_ofStart (.single c)).within (pos_of_closure? hc) (fun t => ?_) ?_
    · exact ((scales_newStates _).bind fun _ => scales_linkComplement nfa f t) nfa
    · intro t x limit hle hx
      rw [run_bind] at hx
      obtain ⟨y, hy, hx⟩ := bind_eq_ok.1 hx
      have hadded := size_newStates hy
      have hroom := (scales_newStates t.sets.size nfa).size_le hle hy
      have hlinked := (scales_linkComplement nfa f t y.2).le_size hroom hx
      omega

theorem scales_insertWith (p : Partition) (isClass : String → Bool)
    (classes : String → Except Failure (List Nat)) {ofUse : Nat → String → Build Fragment}
    {r : Regex} (huse : ∀ name ∈ r.macroUses, Scales fun limit => ofUse limit name) :
    Scales fun limit => insertWith p limit isClass classes (ofUse limit) r := by
  induction r with
  | alt r s hr hs =>
    simp only [Regex.macroUses_alt, List.mem_append] at huse
    unfold insertWith
    split
    · exact scales_insertClasses _
    · refine (hr fun n hn => huse n (.inl hn)).bind fun f => ?_
      exact (hs fun n hn => huse n (.inr hn)).bind fun g => scales_alternatives f g
  | cat r s hr hs =>
    simp only [Regex.macroUses_cat, List.mem_append] at huse
    refine (hr fun n hn => huse n (.inl hn)).bind fun f => ?_
    refine (hs fun n hn => huse n (.inr hn)).bind fun g => ?_
    exact (scales_addEpsilon f.stop g.start).bind fun _ => scales_pure _
  | star r hr => exact (hr huse).bind fun f => scales_repeated true f
  | plus r hr => exact (hr huse).bind fun f => scales_repeated false f
  | opt r hr =>
    refine (hr huse).bind fun f => ?_
    exact (scales_addEpsilon f.start f.stop).bind fun _ => scales_pure f
  | compl r hr => exact (hr huse).bind fun f => scales_complement f
  | upTo r hr =>
    simp only [insertWith_upTo]
    refine ((scales_around (hr huse)).bind fun f => scales_complement f).bind fun without => ?_
    refine (hr huse).bind fun found => ?_
    exact (scales_addEpsilon without.stop found.start).bind fun _ => scales_pure _
  | leaf l =>
    unfold insertWith
    split
    · exact scales_insertClasses _
    · cases l with
      | one q => exact scales_throw _
      | text s caseless => exact scales_insertText p s caseless
      | use name => exact huse name (List.mem_singleton_self name)

/-- The building of an expression over a macro table. -/
theorem scales_insert (p : Partition) {t : MacroTable} {r : Regex} (hg : t.Grounded r) :
    Scales fun limit => insert p limit t r := by
  have hlocal : ∀ limit, Regex.Local (insertWith p limit (fun name => t.isCodeClass (.use name))
      fun name => t.collect p (.use name)) := fun limit =>
    (compositional_insertWith p limit _ _).isLocal
  simp only [insert_eq_follow hg]
  induction hg with
  | @intro r hdef hground ih =>
    have hg : t.Grounded r := ⟨hdef, hground⟩
    simp only [hg.follow_unfold (hlocal _)]
    refine scales_insertWith p _ _ fun name hn => ?_
    obtain ⟨d, hd⟩ := Option.isSome_iff_exists.1 (hdef name hn)
    simp only [hd]
    exact ih name hn d hd

/-! ## Rules -/

theorem scales_enter (rule : Rule) (start k : Nat) : Scales fun _ => enter rule start k := by
  unfold enter
  refine scales_get.bind fun nfa => ?_
  dsimp only
  split
  · split
    · exact scales_addEpsilon _ _
    · exact (scales_addEpsilon _ _).bind fun _ => scales_addEpsilon _ _
  · exact scales_throw _

theorem scales_accept (i : Nat) (a : Action) : Scales fun _ => accept i a :=
  scales_change i fun nfa => nfa.size_modify i _

theorem scales_markPushback (i : Nat) : Scales fun _ => markPushback i :=
  scales_change i fun nfa => nfa.size_modify i _

theorem scales_addRule (p : Partition) {t : MacroTable} (lex : LexStates) {rule : Rule}
    (hrule : ∀ r ∈ rule.exprs, t.Grounded r) : Scales fun limit => addRule p limit t lex rule := by
  unfold addRule
  refine (scales_insert p (hrule _ List.mem_cons_self)).bind fun f => ?_
  refine (scales_forM fun k _ => scales_enter rule f.start k).bind fun _ => ?_
  cases hlook : rule.lookahead? with
  | none => exact scales_accept _ _
  | some r =>
    refine (scales_insert p (hrule r (by simp [Rule.exprs, hlook]))).bind fun g => ?_
    refine (scales_addEpsilon _ _).bind fun _ => ?_
    exact (scales_markPushback _).bind fun _ => scales_accept _ _

theorem scales_addEcho : Scales addEcho := by
  unfold addEcho
  refine scales_newState.bind fun start => ?_
  refine scales_newState.bind fun stop => ?_
  refine scales_get.bind fun nfa => ?_
  refine (scales_addMoves start _ stop).bind fun _ => ?_
  refine scales_get.bind fun nfa => ?_
  refine (scales_forM fun i _ => scales_addEpsilon i start).bind fun _ => ?_
  exact scales_accept _ _

end Build

end ScannerGen
