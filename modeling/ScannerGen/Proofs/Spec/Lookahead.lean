import ScannerGen.Proofs.Regex.Edges

/-
  Where a match ends and its lookahead begins. A pair of expressions that is said to split can still
  leave this open (`splits_but_ambiguous`), but not by a single code: of two ways to part a word,
  one has a match that is longer by at least two codes. So there is only one way if the matches, or
  the lookaheads, are nearly of one length (`splits_keeps_apart`).
-/

namespace ScannerGen

variable {α : Type} {L M : Language α} {w u v u' v' : List α}

/-! ## Ways to part a word -/

/-- The word is a match `u` followed by a lookahead `v`. -/
structure Parts (L M : Language α) (w u v : List α) : Prop where
  mem_match : u ∈ L
  mem_lookahead : v ∈ M
  append_eq : u ++ v = w

/-- No word can be parted in two ways. -/
def Unambiguous (L M : Language α) : Prop :=
  ∀ w u v u' v', Parts L M w u v → Parts L M w u' v' → u = u' ∧ v = v'

/-- The lengths of two words differ by at most one. -/
def NearlyOneLength (L : Language α) : Prop := ∀ u ∈ L, ∀ v ∈ L, v.length ≤ u.length + 1

theorem nearlyOneLength_of_length {n : Nat} (h : ∀ w ∈ L, w.length = n) : NearlyOneLength L := by
  intro u hu v hv
  rw [h u hu, h v hv]
  exact Nat.le_succ n

theorem Parts.length_add (h : Parts L M w u v) : u.length + v.length = w.length := by
  rw [← h.append_eq, List.length_append]

theorem Parts.eq_of_length (h : Parts L M w u v) (h' : Parts L M w u' v')
    (hlen : u.length = u'.length) : u = u' ∧ v = v' :=
  List.append_inj (h.append_eq.trans h'.append_eq.symm) hlen

/-- The longer match takes something from the lookahead of the shorter one. -/
theorem Parts.exists_between (h : Parts L M w u v) (h' : Parts L M w u' v')
    (hlt : u.length < u'.length) : ∃ x, x ≠ [] ∧ u' = u ++ x ∧ v = x ++ v' := by
  rcases List.append_eq_append_iff.1 (h.append_eq.trans h'.append_eq.symm) with
    ⟨x, hu, hv⟩ | ⟨x, hu, -⟩
  · refine ⟨x, ?_, hu, hv⟩
    rintro rfl
    rw [hu, List.append_nil] at hlt
    exact Nat.lt_irrefl _ hlt
  · rw [hu, List.length_append] at hlt
    omega

/-- The longer match goes on with a letter that a lookahead begins with. -/
theorem Parts.exists_first (h : Parts L M w u v) (h' : Parts L M w u' v')
    (hlt : u.length < u'.length) : ∃ a x, u' = u ++ a :: x ∧ a ∈ firsts M := by
  obtain ⟨x, hne, hu, rfl⟩ := h.exists_between h' hlt
  obtain ⟨a, x, rfl⟩ := List.exists_cons_of_ne_nil hne
  exact ⟨a, x, hu, x ++ v', h.mem_lookahead⟩

/-- What it goes on with ends with a letter that a match ends with. -/
theorem Parts.exists_last (h : Parts L M w u v) (h' : Parts L M w u' v')
    (hlt : u.length < u'.length) : ∃ x a, u' = u ++ (x ++ [a]) ∧ a ∈ lasts L := by
  obtain ⟨x, hne, rfl, -⟩ := h.exists_between h' hlt
  obtain ⟨x, a, rfl⟩ := (List.eq_nil_or_concat' x).resolve_left hne
  refine ⟨x, a, rfl, u ++ x, ?_⟩
  rw [List.append_assoc]
  exact h'.mem_match

/-- If no letter both ends a match and begins a lookahead, matches differ by two letters or more. -/
theorem Parts.exists_middle (h : Parts L M w u v) (h' : Parts L M w u' v')
    (hlt : u.length < u'.length) (hdisjoint : ∀ c ∈ lasts L, c ∉ firsts M) :
    ∃ c x d, u' = u ++ c :: (x ++ [d]) ∧ c ∈ firsts M ∧ d ∈ lasts L := by
  obtain ⟨c, x, hu, hc⟩ := h.exists_first h' hlt
  obtain ⟨y, d, hu', hd⟩ := h.exists_last h' hlt
  rw [hu, List.append_cancel_left_eq] at hu'
  cases y with
  | nil =>
    obtain ⟨rfl, -⟩ := List.cons.inj hu'
    exact absurd hc (hdisjoint c hd)
  | cons e y =>
    obtain ⟨rfl, rfl⟩ := List.cons.inj hu'
    exact ⟨c, y, d, hu, hc, hd⟩

/-- Matches that differ by two letters or more take lookaheads that do so, too. -/
theorem unambiguous_of_gap
    (hgap : ∀ {w u v u' v'}, Parts L M w u v → Parts L M w u' v' → u.length < u'.length →
      u.length + 2 ≤ u'.length)
    (hlen : NearlyOneLength L ∨ NearlyOneLength M) : Unambiguous L M := by
  have hle : ∀ {w u v u' v'}, Parts L M w u v → Parts L M w u' v' → u'.length ≤ u.length := by
    intro w u v u' v' h h'
    by_contra hlt
    have hlong := hgap h h' (Nat.lt_of_not_le hlt)
    have hw := h.length_add
    have hw' := h'.length_add
    rcases hlen with hlen | hlen
    · have := hlen u h.mem_match u' h'.mem_match
      omega
    · have := hlen v' h'.mem_lookahead v h.mem_lookahead
      omega
  intro w u v u' v' h h'
  exact h.eq_of_length h' (Nat.le_antisymm (hle h' h) (hle h h'))

namespace MacroTable

variable {t : MacroTable} {r s : Regex} {top : Nat}

/-! ## What is said to split -/

theorem splits_iff : t.splits top r s = true ↔ (∃ n, t.length? r = some n ∧ 0 < n) ∨
    ((t.last top r).inter (t.first top s)).isEmpty = true := by
  unfold splits
  rw [Bool.or_eq_true]
  refine or_congr_left ?_
  cases t.length? r <;> simp

/-- Of two ways to part a word, the longer match goes on with a code that begins lookaheads and ends
no match, and ends with one that ends matches and begins no lookahead. -/
theorem exists_between_of_splits (hr : t.Grounded r) (hs : t.Grounded s)
    (h : t.splits top r s = true) {w u v u' v' : List Nat}
    (hp : Parts (t.language top r) (t.language top s) w u v)
    (hp' : Parts (t.language top r) (t.language top s) w u' v') (hlt : u.length < u'.length) :
    ∃ c x d, u' = u ++ c :: (x ++ [d]) ∧ c ∈ t.first top s ∧ c ∉ t.last top r ∧
      d ∈ t.last top r ∧ d ∉ t.first top s := by
  have hlast : (t.last top r).Encloses _ := hr.last_encloses
  have hfirst : (t.first top s).Encloses _ := hs.first_encloses
  rcases splits_iff.1 h with ⟨n, hn, -⟩ | hempty
  · rw [hr.length_eq hn u hp.mem_match, hr.length_eq hn u' hp'.mem_match] at hlt
    exact absurd hlt (Nat.lt_irrefl n)
  · have hdisjoint : ∀ c ∈ t.last top r, c ∉ t.first top s := fun c hc hc' =>
      CodeSet.isEmpty_iff.1 hempty c (CodeSet.mem_inter.2 ⟨hc, hc'⟩)
    obtain ⟨c, x, d, hu, hc, hd⟩ := hp.exists_middle hp' hlt fun c hc hc' =>
      hdisjoint c (hlast c hc) (hfirst c hc')
    have hc := hfirst c hc
    have hd := hlast d hd
    exact ⟨c, x, d, hu, hc, fun hc' => hdisjoint c hc' hc, hd, hdisjoint d hd⟩

/-- A pair that is said to split is unambiguous if its matches, or its lookaheads, are nearly of one
length. In any case two ways to part a word are at least two codes apart. -/
theorem splits_keeps_apart (t : MacroTable) (top : Nat) (r s : Regex) (hr : t.Grounded r)
    (hs : t.Grounded s) (h : t.splits top r s = true) :
    (∀ n, t.length? r = some n → Unambiguous (t.language top r) (t.language top s)) ∧
      (NearlyOneLength (t.language top r) ∨ NearlyOneLength (t.language top s) →
        Unambiguous (t.language top r) (t.language top s)) ∧
      ∀ w u v u' v', Parts (t.language top r) (t.language top s) w u v →
        Parts (t.language top r) (t.language top s) w u' v' → u.length < u'.length →
        ∃ c x d, u' = u ++ c :: (x ++ [d]) ∧ c ∈ t.first top s ∧ c ∉ t.last top r ∧
          d ∈ t.last top r ∧ d ∉ t.first top s := by
  have hgap : ∀ {w u v u' v'}, Parts (t.language top r) (t.language top s) w u v →
      Parts (t.language top r) (t.language top s) w u' v' → u.length < u'.length →
      u.length + 2 ≤ u'.length := by
    intro w u v u' v' hp hp' hlt
    obtain ⟨c, x, d, rfl, -⟩ := exists_between_of_splits hr hs h hp hp' hlt
    simp only [List.length_append, List.length_cons]
    omega
  refine ⟨fun n hn => ?_, unambiguous_of_gap hgap, fun w u v u' v' =>
    exists_between_of_splits hr hs h⟩
  exact unambiguous_of_gap hgap (.inl (nearlyOneLength_of_length (hr.length_eq hn)))

/-- A macro for digits. -/
def digits : MacroTable := .define .empty "digit" (.one (.oneOf .digits))

/-- A number. -/
def number : Regex := .plus (.use "digit")

/-- A fraction, of which the digits may be missing. -/
def fraction : Regex := .cat (.text "." false) (.star (.use "digit"))

theorem splits_keeps_apart_digits :
    digits.Grounded number ∧ digits.Grounded fraction ∧ digits.splits 127 number fraction = true ∧
      (∀ n, digits.length? number = some n →
        Unambiguous (digits.language 127 number) (digits.language 127 fraction)) ∧
      (NearlyOneLength (digits.language 127 number) ∨
          NearlyOneLength (digits.language 127 fraction) →
        Unambiguous (digits.language 127 number) (digits.language 127 fraction)) ∧
      ∀ w u v u' v', Parts (digits.language 127 number) (digits.language 127 fraction) w u v →
        Parts (digits.language 127 number) (digits.language 127 fraction) w u' v' →
        u.length < u'.length →
        ∃ c x d, u' = u ++ c :: (x ++ [d]) ∧ c ∈ digits.first 127 fraction ∧
          c ∉ digits.last 127 number ∧ d ∈ digits.last 127 number ∧
          d ∉ digits.first 127 fraction := by
  have hclosed : ∀ x ∈ digits.entries, x.2.definition.Closed := by decide
  have hnumber : digits.Grounded number := .of_closed_entries hclosed (by decide)
  have hfraction : digits.Grounded fraction := .of_closed_entries hclosed (by decide)
  exact ⟨hnumber, hfraction, by decide,
    splits_keeps_apart digits 127 number fraction hnumber hfraction (by decide)⟩

/-! ## What is left open -/

/-- The codes of a text. -/
def codes (s : String) : List Nat := s.toList.map Char.toNat

theorem codes_mem_language {s : String} (h : s.toList.all (·.toNat ≤ top)) :
    codes s ∈ MacroTable.empty.language top (.text s false) :=
  List.forall₂_map_left_iff.2 (List.forall₂_same.2 fun d hd =>
    ⟨of_decide_eq_true (List.all_eq_true.1 h d hd), .inl rfl⟩)

/-- The expression `a|abc`. -/
def aOrAbc : Regex := .alt (.text "a" false) (.text "abc" false)

/-- The expression `bcd|d`. -/
def bcdOrD : Regex := .alt (.text "bcd" false) (.text "d" false)

/-- No code both ends a match and begins a lookahead, and yet `abcd` can be parted after `a` and
after `abc`. -/
theorem splits_but_ambiguous :
    MacroTable.empty.Grounded aOrAbc ∧ MacroTable.empty.Grounded bcdOrD ∧
      MacroTable.empty.splits 127 aOrAbc bcdOrD = true ∧
      ¬Unambiguous (MacroTable.empty.language 127 aOrAbc)
        (MacroTable.empty.language 127 bcdOrD) := by
  refine ⟨.of_closed (by decide), .of_closed (by decide), by decide, fun h => ?_⟩
  have ha := codes_mem_language (show "a".toList.all (·.toNat ≤ 127) by decide)
  have habc := codes_mem_language (show "abc".toList.all (·.toNat ≤ 127) by decide)
  have hbcd := codes_mem_language (show "bcd".toList.all (·.toNat ≤ 127) by decide)
  have hd := codes_mem_language (show "d".toList.all (·.toNat ≤ 127) by decide)
  exact absurd (h (codes "abcd") _ _ _ _ ⟨.inl ha, .inl hbcd, by decide⟩
    ⟨.inr habc, .inr hd, by decide⟩).1 (by decide)

end MacroTable

end ScannerGen
