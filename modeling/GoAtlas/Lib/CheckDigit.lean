import Mathlib.Data.List.Basic

/-!
# Check digits by a running state

A check digit procedure folds the characters of a text into a state. If each step loses nothing,
neither of the state nor of the character, then two texts of one length with the same last state are
equal or differ in two places at least.
-/

namespace GoAtlas.Lib.CheckDigit

variable {σ α : Type}

/-- A step on the states `S` and the characters `A` that can be undone in either argument. -/
structure Lossless (step : σ → α → σ) (S : σ → Prop) (A : α → Prop) : Prop where
  state : ∀ {p a}, S p → A a → S (step p a)
  left : ∀ {p q a}, S p → S q → A a → step p a = step q a → p = q
  right : ∀ {p a b}, S p → A a → A b → step p a = step p b → a = b

variable {step : σ → α → σ} {S : σ → Prop} {A : α → Prop} {p q : σ} {l l' : List α}

theorem Lossless.foldl_state (h : Lossless step S A) (hp : S p) (hl : ∀ a ∈ l, A a) :
    S (l.foldl step p) := by
  induction l generalizing p with
  | nil => exact hp
  | cons a l ih =>
    rw [List.forall_mem_cons] at hl
    exact ih (h.state hp hl.1) hl.2

theorem Lossless.foldl_left (h : Lossless step S A) (hp : S p) (hq : S q) (hl : ∀ a ∈ l, A a)
    (heq : l.foldl step p = l.foldl step q) : p = q := by
  induction l generalizing p q with
  | nil => exact heq
  | cons a l ih =>
    rw [List.forall_mem_cons] at hl
    have hstep := ih (h.state hp hl.1) (h.state hq hl.1) hl.2 heq
    exact h.left hp hq hl.1 hstep

/-- Two texts with one last state differ in two places. -/
theorem Lossless.two_places (h : Lossless step S A) (hp : S p) (hl : ∀ a ∈ l, A a)
    (hl' : ∀ a ∈ l', A a) (hlen : l.length = l'.length) (heq : l.foldl step p = l'.foldl step p)
    (hne : l ≠ l') :
    ∃ i j, i < j ∧ j < l.length ∧ l[i]? ≠ l'[i]? ∧ l[j]? ≠ l'[j]? := by
  induction l generalizing p l' with
  | nil =>
    cases l' with
    | nil => exact absurd rfl hne
    | cons b l' => cases hlen
  | cons a l ih =>
    cases l' with
    | nil => cases hlen
    | cons b l' =>
      rw [List.forall_mem_cons] at hl hl'
      have htails : l.length = l'.length := Nat.succ.inj hlen
      by_cases hab : a = b
      · subst hab
        have hrest : l ≠ l' := fun hll => hne (by rw [hll])
        obtain ⟨i, j, hij, hj, hi⟩ := ih (h.state hp hl.1) hl.2 hl'.2 htails heq hrest
        exact ⟨i + 1, j + 1, by omega, by simp only [List.length_cons]; omega, hi⟩
      · -- the state after the first character differs, and equal tails would keep it different
        have hrest : l ≠ l' := by
          rintro rfl
          have hstep := h.foldl_left (h.state hp hl.1) (h.state hp hl'.1) hl.2 heq
          exact hab (h.right hp hl.1 hl'.1 hstep)
        obtain ⟨j, hj⟩ : ∃ j, l[j]? ≠ l'[j]? := by
          by_contra hall
          push Not at hall
          exact hrest (List.ext_getElem? hall)
        have hlt : j < l.length := by
          by_contra hge
          apply hj
          rw [List.getElem?_eq_none (by omega), List.getElem?_eq_none (by omega)]
        refine ⟨0, j + 1, by omega, by simp only [List.length_cons]; omega, ?_, hj⟩
        simpa using hab

end GoAtlas.Lib.CheckDigit
