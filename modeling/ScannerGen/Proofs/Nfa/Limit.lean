import ScannerGen.Proofs.Nfa.Subsets

/-
  The limit on the number of states. Runs under different limits agree until one of them is full: a
  run that ends under some limit ends the same way under every limit that leaves room for its
  result, and stops for want of room under every other (`LimitedBy`). So it is with the table of
  sets (`limitedBy_ofStart`), whose search passes through the same tables under any limit.
-/

namespace ScannerGen

variable {α β : Type}

/-- From `before` states on, nothing but the size of the result decides under which limits there is
one, and all of them have the same. -/
def LimitedBy (before : Nat) (size : α → Nat) (run : Nat → Except Failure α) : Prop :=
  ∀ limit ≥ before, ∀ a, run limit = .ok a → before ≤ size a ∧ ∀ limit' ≥ before,
    run limit' = if size a ≤ limit' then .ok a else .error (.error (.stateLimit limit'))

namespace LimitedBy

variable {before : Nat} {size : α → Nat} {run : Nat → Except Failure α} {x : Except Failure α}
  {limit limit' : Nat} {a : α}

theorem le_size (h : LimitedBy before size run) (hle : before ≤ limit) (ha : run limit = .ok a) :
    before ≤ size a := (h limit hle a ha).1

theorem eq_ite (h : LimitedBy before size run) (hle : before ≤ limit) (ha : run limit = .ok a)
    (hle' : before ≤ limit') :
    run limit' = if size a ≤ limit' then .ok a else .error (.error (.stateLimit limit')) :=
  (h limit hle a ha).2 limit' hle'

theorem size_le (h : LimitedBy before size run) (hle : before ≤ limit) (ha : run limit = .ok a) :
    size a ≤ limit := by
  by_contra hnot
  have hrun := h.eq_ite hle ha hle
  rw [ha, if_neg hnot] at hrun
  cases hrun

theorem const (h : ∀ a, x = .ok a → size a = before) : LimitedBy before size fun _ => x := by
  intro limit _ a ha
  have hsize := h a ha
  refine ⟨Nat.le_of_eq hsize.symm, fun limit' hle => ?_⟩
  rw [if_pos (hsize ▸ hle), ha]

/-- One run after another, each limited by what it adds. -/
theorem bind {size' : β → Nat} {f : Nat → α → Except Failure β} (h : LimitedBy before size run)
    (h' : ∀ a, (∃ limit ≥ before, run limit = .ok a) →
      LimitedBy (size a) size' fun limit => f limit a) :
    LimitedBy before size' fun limit => run limit >>= f limit := by
  intro limit hle b hb
  obtain ⟨a, ha, hb⟩ := bind_eq_ok.1 hb
  have hlimited := h' a ⟨limit, hle, ha⟩
  have hsize := hlimited.le_size (h.size_le hle ha) hb
  refine ⟨Nat.le_trans (h.le_size hle ha) hsize, fun limit' hle' => ?_⟩
  dsimp only
  rw [h.eq_ite hle ha hle']
  split
  · next hroom => exact hlimited.eq_ite (h.size_le hle ha) hb hroom
  · next hroom =>
    rw [if_neg (by omega)]
    rfl

/-- A run whose result is put aside, and then one that makes a copy of it. -/
theorem within {before' : Nat} {size' : β → Nat} {f : Nat → α → Except Failure β}
    (h : LimitedBy before size run) (hbefore : before ≤ before')
    (h' : ∀ a, LimitedBy before' size' fun limit => f limit a)
    (hcopy : ∀ a b, ∀ limit ≥ before', f limit a = .ok b → size a ≤ size' b) :
    LimitedBy before' size' fun limit => run limit >>= f limit := by
  intro limit hle b hb
  obtain ⟨a, ha, hb⟩ := bind_eq_ok.1 hb
  have hfits := hcopy a b limit hle hb
  refine ⟨(h' a).le_size hle hb, fun limit' hle' => ?_⟩
  dsimp only
  rw [h.eq_ite (Nat.le_trans hbefore hle) ha (Nat.le_trans hbefore hle')]
  split
  · exact (h' a).eq_ite hle hb hle'
  · next hroom =>
    rw [if_neg (by omega)]
    rfl

end LimitedBy

/-! ## Tables of sets -/

namespace Subsets

variable {n : Nat} {sets : Numbering IdSet}
  {successors : IdSet → Except Failure (List (Nat × IdSet))}

theorem limitedBy_number (s : IdSet) :
    LimitedBy sets.size (·.1.size) fun limit => number limit sets s := by
  intro limit hle x hx
  unfold number at hx ⊢
  split at hx
  · cases hx
    exact ⟨Nat.le_refl _, fun limit' hle' => (if_pos hle').symm⟩
  · next hnone =>
    dsimp only at hx ⊢
    split at hx
    · cases hx
    · cases hx
      refine ⟨by simp, fun limit' hle' => ?_⟩
      simp only [Numbering.size_push]
      by_cases hfull : limit' ≤ sets.size
      · rw [if_pos hfull, if_neg (by omega)]
      · rw [if_neg hfull, if_pos (by omega)]

theorem limitedBy_numberAll (l : List IdSet) :
    LimitedBy sets.size (·.1.size) fun limit => numberAll limit l sets := by
  induction l generalizing sets with
  | nil => exact .const fun _ h => by cases h; rfl
  | cons s l ih =>
    refine (limitedBy_number s).bind fun x _ => ?_
    refine ih.bind fun y _ => ?_
    exact .const fun _ h => by cases h; rfl

theorem limitedBy_numberRow (next : List (Nat × IdSet)) (row : Array (Option Nat)) :
    LimitedBy sets.size (·.1.size) fun limit => numberRow limit next sets row := by
  induction next generalizing sets row with
  | nil => exact .const fun _ h => by cases h; rfl
  | cons x next ih =>
    obtain ⟨k, s⟩ := x
    refine (limitedBy_number s).bind fun y _ => ?_
    dsimp only
    split
    · exact ih _
    · exact .const fun _ h => by cases h

theorem explore_of_full {limit fuel : Nat} {t : Subsets} (h : t.rows.size = t.sets.size) :
    explore successors n limit fuel t = .ok t := by
  cases fuel with
  | zero => rfl
  | succ fuel =>
    have hnone : t.sets.values[t.rows.size]? = none :=
      Array.getElem?_eq_none_iff.2 (Nat.le_of_eq h.symm)
    unfold explore
    rw [hnone]

theorem explore_of_some {limit fuel : Nat} {t : Subsets} {s : IdSet}
    (h : t.sets.values[t.rows.size]? = some s) :
    explore successors n limit (fuel + 1) t = (do
      let moves ← successors s
      let x ← numberRow limit moves t.sets (Array.replicate n none)
      explore successors n limit fuel ⟨x.1, t.rows.push x.2⟩) := by
  rw [explore, h]

/-- With rounds enough for as many sets as the limit allows, the runs from `t` go through `t'` if
there is room for its sets and stop if there is none. -/
structure Passes (successors : IdSet → Except Failure (List (Nat × IdSet))) (n : Nat)
    (t t' : Subsets) : Prop where
  size_le : t.sets.size ≤ t'.sets.size
  rows_le : t'.rows.size ≤ t'.sets.size
  goes_on : ∀ {limit fuel : Nat}, t'.sets.size ≤ limit → limit ≤ fuel + t.rows.size →
    ∃ fuel', limit ≤ fuel' + t'.rows.size ∧
      explore successors n limit fuel t = explore successors n limit fuel' t'
  stops : ∀ {limit fuel : Nat}, t.sets.size ≤ limit → limit < t'.sets.size →
    limit ≤ fuel + t.rows.size →
    explore successors n limit fuel t = .error (.error (.stateLimit limit))

theorem Passes.refl {t : Subsets} (h : t.rows.size ≤ t.sets.size) : Passes successors n t t where
  size_le := Nat.le_refl _
  rows_le := h
  goes_on _ hfuel := ⟨_, hfuel, rfl⟩
  stops hle hlt _ := absurd hle (Nat.not_le_of_lt hlt)

/-- If one limit has room for the next row, all runs go through that row or stop in it. -/
theorem Passes.push {limit : Nat} {t t' : Subsets} {s : IdSet} {next : List (Nat × IdSet)}
    {x : Numbering IdSet × Array (Option Nat)} (h : Passes successors n t t')
    (hs : t'.sets.values[t'.rows.size]? = some s) (hnext : successors s = .ok next)
    (hle : t'.sets.size ≤ limit)
    (hx : numberRow limit next t'.sets (Array.replicate n none) = .ok x) :
    Passes successors n t ⟨x.1, t'.rows.push x.2⟩ := by
  have hlimited : LimitedBy t'.sets.size (·.1.size) fun limit =>
    numberRow limit next t'.sets (Array.replicate n none) := limitedBy_numberRow next _
  have hsize : t'.sets.size ≤ x.1.size := hlimited.le_size hle hx
  have hlt : t'.rows.size < t'.sets.size := (Array.getElem?_eq_some_iff.1 hs).1
  have hrow : ∀ {limit fuel : Nat}, t'.sets.size ≤ limit →
      explore successors n limit (fuel + 1) t' =
        if x.1.size ≤ limit then explore successors n limit fuel ⟨x.1, t'.rows.push x.2⟩
        else .error (.error (.stateLimit limit)) := by
    intro limit' fuel hle'
    rw [explore_of_some hs, hnext]
    show (numberRow limit' next t'.sets _ >>= _) = _
    rw [hlimited.eq_ite hle hx hle']
    split <;> rfl
  refine ⟨Nat.le_trans h.size_le hsize, ?_, ?_, ?_⟩
  · rw [Array.size_push]
    exact Nat.le_trans hlt hsize
  · intro limit' fuel hroom hfuel
    have hroom' : t'.sets.size ≤ limit' := Nat.le_trans hsize hroom
    obtain ⟨fuel', hfuel', heq⟩ := h.goes_on hroom' hfuel
    obtain ⟨fuel', rfl⟩ : ∃ k, fuel' = k + 1 := ⟨fuel' - 1, by omega⟩
    refine ⟨fuel', ?_, ?_⟩
    · rw [Array.size_push]
      omega
    · rw [heq, hrow hroom', if_pos hroom]
  · intro limit' fuel hle' hfull hfuel
    by_cases hroom' : t'.sets.size ≤ limit'
    · obtain ⟨fuel', hfuel', heq⟩ := h.goes_on hroom' hfuel
      obtain ⟨fuel', rfl⟩ : ∃ k, fuel' = k + 1 := ⟨fuel' - 1, by omega⟩
      rw [heq, hrow hroom', if_neg (Nat.not_le_of_lt hfull)]
    · exact h.stops hle' (Nat.lt_of_not_le hroom') hfuel

/-- A run that ends gives every set its row, and all runs go through what it ends with. -/
theorem passes_explore {limit fuel : Nat} {t : Subsets} (ht : t.rows.size ≤ t.sets.size)
    (hle : t.sets.size ≤ limit) (hfuel : limit ≤ fuel + t.rows.size) :
    Yields (explore successors n limit fuel t)
      (fun t' => Passes successors n t t' ∧ t'.rows.size = t'.sets.size) fun _ => True := by
  refine (explore_keeps (I := fun t' => Passes successors n t t' ∧ t'.sets.size ≤ limit)
    ⟨.refl ht, hle⟩ ?_).mono ?_ fun _ h => h
  · intro t' s ⟨hpasses, hle⟩ hs
    cases hnext : successors s with
    | error e => exact trivial
    | ok next =>
      show Yields (numberRow limit next t'.sets _) _ _
      cases hx : numberRow limit next t'.sets (Array.replicate n none) with
      | error e => exact trivial
      | ok x => exact ⟨hpasses.push hs hnext hle hx, (limitedBy_numberRow next _).size_le hle hx⟩
  · intro t' ⟨⟨hpasses, hle⟩, hdone⟩
    have hrows := hpasses.rows_le
    unfold Done at hdone
    exact ⟨hpasses, by omega⟩

theorem passes_ofStart {limit : Nat} (hle : sets.size ≤ limit) :
    Yields (ofStart successors n limit sets)
      (fun t => Passes successors n ⟨sets, #[]⟩ t ∧ t.rows.size = t.sets.size) fun _ => True :=
  passes_explore (Nat.zero_le _) hle (Nat.le_add_right ..)

theorem limitedBy_ofStart (sets : Numbering IdSet) :
    LimitedBy sets.size (·.sets.size) fun limit => ofStart successors n limit sets := by
  intro limit hle t ht
  obtain ⟨hpasses, hfull⟩ := (passes_ofStart hle).of_ok ht
  refine ⟨hpasses.size_le, fun limit' hle' => ?_⟩
  have hfuel : limit' ≤ limit' + sets.size + (#[] : Array (Array (Option Nat))).size :=
    Nat.le_add_right ..
  split
  · next hroom =>
    obtain ⟨fuel', -, heq⟩ := hpasses.goes_on hroom hfuel
    exact heq.trans (explore_of_full hfull)
  · next hroom => exact hpasses.stops hle' (Nat.lt_of_not_le hroom) hfuel

/-- In a table that is complete every set has its row. -/
theorem size_rows_ofStart {limit : Nat} {t : Subsets} (hle : sets.size ≤ limit)
    (ht : ofStart successors n limit sets = .ok t) : t.rows.size = t.sets.size :=
  ((passes_ofStart hle).of_ok ht).2

end Subsets

end ScannerGen
