/-
  What an action on a state ensures: a property of the result and the state if it succeeds, and one
  of the error and the state that it leaves if it fails. `Yields` says the same of an action without
  a state.
-/

namespace ScannerGen

variable {ε σ α β : Type}

/-- From `s` on, `act` ends as `Q` says if it succeeds, and as `E` says if it fails. -/
def Ensures (act : EStateM ε σ α) (s : σ) (Q : α → σ → Prop) (E : ε → σ → Prop) : Prop :=
  match act s with
  | .ok a s' => Q a s'
  | .error e s' => E e s'

variable {s : σ} {Q : α → σ → Prop} {E : ε → σ → Prop}

theorem Ensures.mono {act : EStateM ε σ α} {Q' : α → σ → Prop} {E' : ε → σ → Prop}
    (h : Ensures act s Q E) (hq : ∀ a s', Q a s' → Q' a s') (he : ∀ e s', E e s' → E' e s') :
    Ensures act s Q' E' := by
  unfold Ensures at *
  split at h
  · exact hq _ _ h
  · exact he _ _ h

theorem Ensures.and {act : EStateM ε σ α} {Q' : α → σ → Prop} {E' : ε → σ → Prop}
    (h : Ensures act s Q E) (h' : Ensures act s Q' E') :
    Ensures act s (fun a s' => Q a s' ∧ Q' a s') fun e s' => E e s' ∧ E' e s' := by
  unfold Ensures at *
  split at h <;> simp_all

theorem Ensures.of_ok {act : EStateM ε σ α} {a : α} {s' : σ} (h : Ensures act s Q E)
    (hact : act s = .ok a s') : Q a s' := by
  unfold Ensures at h
  rwa [hact] at h

theorem Ensures.of_error {act : EStateM ε σ α} {e : ε} {s' : σ} (h : Ensures act s Q E)
    (hact : act s = .error e s') : E e s' := by
  unfold Ensures at h
  rwa [hact] at h

theorem ensures_pure {a : α} (h : Q a s) : Ensures (pure a) s Q E := h

theorem ensures_throw {e : ε} (h : E e s) : Ensures (throw e) s Q E := h

theorem ensures_get {Q : σ → σ → Prop} (h : Q s s) : Ensures get s Q E := h

theorem ensures_set {s' : σ} {Q : PUnit → σ → Prop} (h : Q ⟨⟩ s') : Ensures (set s') s Q E := h

theorem ensures_modify {f : σ → σ} {Q : PUnit → σ → Prop} (h : Q ⟨⟩ (f s)) :
    Ensures (modify f) s Q E := h

theorem ensures_bind {act : EStateM ε σ α} {f : α → EStateM ε σ β} {Q : β → σ → Prop}
    (h : Ensures act s (fun a s' => Ensures (f a) s' Q E) E) : Ensures (act >>= f) s Q E := by
  unfold Ensures at h ⊢
  simp only [bind, EStateM.bind]
  split at h <;> simp_all

/-- One action for every entry of a list, where `I` tells what holds after the first ones. -/
theorem ensures_forM {γ : Type} {f : γ → EStateM ε σ PUnit} {I : List γ → σ → Prop} {l : List γ}
    (start : I [] s)
    (step : ∀ done, ∀ x ∈ l, ∀ s, I done s → Ensures (f x) s (fun _ s' => I (done ++ [x]) s') E) :
    Ensures (l.forM f) s (fun _ s' => I l s') E := by
  suffices h : ∀ rest done s, (∀ x ∈ rest, x ∈ l) → I done s →
      Ensures (rest.forM f) s (fun _ s' => I (done ++ rest) s') E from
    h l [] s (fun _ hx => hx) start
  intro rest
  induction rest with
  | nil =>
    intro done s _ h
    rw [List.append_nil]
    exact ensures_pure h
  | cons x rest ih =>
    intro done s hrest h
    obtain ⟨hx, hrest⟩ := List.forall_mem_cons.1 hrest
    rw [List.forM_eq_forM, List.forM_cons, List.append_cons]
    exact ensures_bind
      ((step done x hx s h).mono (fun _ s' h' => ih _ s' hrest h') fun _ _ h' => h')

/-! ## Known runs -/

theorem run_bind_ok {act : EStateM ε σ α} {f : α → EStateM ε σ β} {a : α} {s' : σ}
    (h : act s = .ok a s') : (act >>= f) s = f a s' := by
  simp only [bind, EStateM.bind, h]

theorem run_bind_error {act : EStateM ε σ α} {f : α → EStateM ε σ β} {e : ε} {s' : σ}
    (h : act s = .error e s') : (act >>= f) s = .error e s' := by
  simp only [bind, EStateM.bind, h]

theorem run_get_bind (f : σ → EStateM ε σ β) : (get >>= f) s = f s s := rfl

/-! ## Actions without a state -/

/-- `x` is a value of which `Q` holds, or an error of which `E` holds. -/
def Yields (x : Except ε α) (Q : α → Prop) (E : ε → Prop) : Prop :=
  match x with
  | .ok a => Q a
  | .error e => E e

section Yields

variable {x : Except ε α} {Q : α → Prop} {E : ε → Prop}

theorem Yields.mono {Q' : α → Prop} {E' : ε → Prop} (h : Yields x Q E) (hq : ∀ a, Q a → Q' a)
    (he : ∀ e, E e → E' e) : Yields x Q' E' := by
  cases x with
  | ok a => exact hq a h
  | error e => exact he e h

theorem Yields.of_ok {a : α} (h : Yields x Q E) (hx : x = .ok a) : Q a := by
  subst hx
  exact h

theorem Yields.of_error {e : ε} (h : Yields x Q E) (hx : x = .error e) : E e := by
  subst hx
  exact h

theorem yields_bind {f : α → Except ε β} {Q : β → Prop}
    (h : Yields x (fun a => Yields (f a) Q E) E) : Yields (x >>= f) Q E := by
  cases x with
  | ok a => exact h
  | error e => exact h

end Yields

theorem exists_eq_ok {x : Except ε α} (h : x.toOption.isSome = true) : ∃ a, x = .ok a := by
  cases x with
  | ok a => exact ⟨a, rfl⟩
  | error e => cases h

theorem exists_ok_of_any {x : Except ε α} {p : α → Bool}
    (h : x.toOption.any p = true) : ∃ a, x = .ok a ∧ p a = true := by
  cases x with
  | error e => cases h
  | ok a => exact ⟨a, rfl, h⟩

theorem bind_eq_ok {x : Except ε α} {f : α → Except ε β} {b : β} :
    (x >>= f) = .ok b ↔ ∃ a, x = .ok a ∧ f a = .ok b := by
  cases x <;> simp [bind, Except.bind]

theorem bind_eq_error {x : Except ε α} {f : α → Except ε β} {e : ε} :
    (x >>= f) = .error e ↔ x = .error e ∨ ∃ a, x = .ok a ∧ f a = .error e := by
  cases x <;> simp [bind, Except.bind]

theorem mapM_eq_ok {f : α → Except ε β} {g : α → β} {l : List α} (h : ∀ x ∈ l, f x = .ok (g x)) :
    l.mapM f = .ok (l.map g) := by
  induction l with
  | nil => rfl
  | cons x l ih =>
    obtain ⟨hx, hl⟩ := List.forall_mem_cons.1 h
    rw [List.mapM_cons, hx, ih hl]
    rfl

@[simp] theorem pure_eq_ok {a b : α} : (pure a : Except ε α) = .ok b ↔ a = b := by
  simp [pure, Except.pure]

@[simp] theorem pure_ne_error {a : α} {e : ε} : (pure a : Except ε α) ≠ .error e := by
  simp [pure, Except.pure]

end ScannerGen
