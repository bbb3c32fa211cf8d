import Mathlib.Data.List.Forall2

/-!
# Runs of a state and error monad

Inversion rules for a successful run of a `StateT σ (Except ε)` computation: what a run of `bind`,
`pure`, `throw`, a lifted `Except` or a list traversal that ends in `.ok` went through. Proofs
peel a computation apart with these and never unfold the monad.
-/

namespace GoAtlas.Lib

variable {σ ε α β : Type}

/-- A computation over a state that may fail; a failure drops the state. -/
abbrev Run (σ ε α : Type) := StateT σ (Except ε) α

namespace Run

/-- `x` started in `s` succeeds with `a` and leaves the state `t`. -/
def Ok (x : Run σ ε α) (s : σ) (a : α) (t : σ) : Prop := x.run s = .ok (a, t)

variable {s t : σ} {f : α → Run σ ε β}

theorem ok_bind {x : Run σ ε α} {b : β} :
    Ok (x >>= f) s b t ↔ ∃ a u, Ok x s a u ∧ Ok (f a) u b t := by
  unfold Ok
  rw [StateT.run_bind]
  cases h : x.run s with
  | error e => simp [bind, Except.bind]
  | ok p =>
    obtain ⟨a, u⟩ := p
    simp [bind, Except.bind]

@[simp] theorem ok_pure {a b : α} :
    Ok (pure a : Run σ ε α) s b t ↔ a = b ∧ s = t := by
  unfold Ok
  rw [StateT.run_pure]
  simp [pure, Except.pure]

@[simp] theorem not_ok_throw {a : α} {e : ε} :
    ¬ Ok (throw e : Run σ ε α) s a t := by
  simp [Ok, throw, throwThe, MonadExceptOf.throw, StateT.run, StateT.lift, bind, Except.bind]

@[simp] theorem ok_lift {x : Except ε α} {a : α} :
    Ok (liftM x : Run σ ε α) s a t ↔ x = .ok a ∧ s = t := by
  cases x with
  | error e =>
    simp [Ok, liftM, monadLift, MonadLift.monadLift, StateT.run, StateT.lift, bind, Except.bind]
  | ok v =>
    simp [Ok, liftM, monadLift, MonadLift.monadLift, StateT.run, StateT.lift, bind, Except.bind,
      pure, Except.pure]

@[simp] theorem ok_get {s t u : σ} : Ok (get : Run σ ε σ) s u t ↔ s = u ∧ s = t := by
  unfold Ok
  rw [StateT.run_get]
  simp [pure, Except.pure]

@[simp] theorem ok_set {s t u : σ} {a : PUnit} : Ok (set u : Run σ ε PUnit) s a t ↔ u = t := by
  unfold Ok
  rw [StateT.run_set]
  simp [pure, Except.pure]

theorem ok_map {x : Run σ ε α} {f : α → β} {b : β} :
    Ok (f <$> x) s b t ↔ ∃ a, f a = b ∧ Ok x s a t := by
  rw [map_eq_pure_bind, ok_bind]
  constructor
  · rintro ⟨a, u, hx, hp⟩
    obtain ⟨rfl, rfl⟩ := ok_pure.mp hp
    exact ⟨a, rfl, hx⟩
  · rintro ⟨a, rfl, hx⟩
    exact ⟨a, t, hx, ok_pure.mpr ⟨rfl, rfl⟩⟩

/-! ## Plain failures -/

theorem except_bind {x : Except ε α} {f : α → Except ε β} {b : β} :
    (x >>= f) = .ok b ↔ ∃ a, x = .ok a ∧ f a = .ok b := by
  cases x with
  | error e => simp [bind, Except.bind]
  | ok a => simp [bind, Except.bind]

/-! ## Traversals -/

/-- An invariant of a traversal: `P` relates the elements still to come, the state, the results
and the final state. -/
theorem ok_mapM {P : List α → σ → List β → σ → Prop} (nil : ∀ s, P [] s [] s)
    (cons : ∀ x xs s u t b bs, Ok (f x) s b u → P xs u bs t → P (x :: xs) s (b :: bs) t)
    {xs : List α} {bs : List β} (h : Ok (xs.mapM f) s bs t) : P xs s bs t := by
  induction xs generalizing s bs with
  | nil =>
    rw [List.mapM_nil, ok_pure] at h
    obtain ⟨rfl, rfl⟩ := h
    exact nil s
  | cons x xs ih =>
    rw [List.mapM_cons] at h
    obtain ⟨b, u, hb, h⟩ := ok_bind.mp h
    obtain ⟨bs', v, hbs, h⟩ := ok_bind.mp h
    obtain ⟨rfl, rfl⟩ := ok_pure.mp h
    exact cons x xs s u v b bs' hb (ih hbs)

theorem ok_mapM_length {xs : List α} {bs : List β}
    (h : Ok (xs.mapM f) s bs t) : bs.length = xs.length := by
  refine ok_mapM (P := fun (xs : List α) _ (bs : List β) _ => bs.length = xs.length)
    (fun _ => rfl) ?_ h
  intro x xs s u t b bs _ ih
  simp [ih]

/-! ## Two runs

Rules for comparing two computations side by side: from states in `I`, two runs that both succeed
give values in `V` and leave states in `I`. -/

def Agree {γ : Type} (I : σ → σ → Prop) (V : α → γ → Prop) (x : Run σ ε α) (y : Run σ ε γ) : Prop :=
  ∀ s s' a c u u', I s s' → Ok x s a u → Ok y s' c u' → V a c ∧ I u u'

namespace Agree

variable {γ δ : Type} {I : σ → σ → Prop} {V : α → γ → Prop} {W : β → δ → Prop} {g : γ → Run σ ε δ}
    {y : Run σ ε γ} {x : Run σ ε α} {f : α → Run σ ε β}

theorem pure {a : α} {c : γ} (h : V a c) : Agree I V (pure a : Run σ ε α) (pure c) := by
  intro s s' a' c' u u' hI hx hy
  obtain ⟨rfl, rfl⟩ := ok_pure.mp hx
  obtain ⟨rfl, rfl⟩ := ok_pure.mp hy
  exact ⟨h, hI⟩

theorem throw_left {e : ε} : Agree I V (throw e : Run σ ε α) y :=
  fun _ _ _ _ _ _ _ hx _ => absurd hx not_ok_throw

theorem throw_right {e : ε} : Agree I V x (throw e : Run σ ε γ) :=
  fun _ _ _ _ _ _ _ _ hy => absurd hy not_ok_throw

theorem lift {x : Except ε α} {y : Except ε γ} (h : ∀ a c, x = .ok a → y = .ok c → V a c) :
    Agree I V (liftM x : Run σ ε α) (liftM y) := by
  intro s s' a c u u' hI hx hy
  obtain ⟨ha, rfl⟩ := ok_lift.mp hx
  obtain ⟨hc, rfl⟩ := ok_lift.mp hy
  exact ⟨h a c ha hc, hI⟩

theorem bind (h : Agree I V x y) (hf : ∀ a c, V a c → Agree I W (f a) (g c)) :
    Agree I W (x >>= f) (y >>= g) := by
  intro s s' b d t t' hI hx hy
  obtain ⟨a, u, ha, hx⟩ := ok_bind.mp hx
  obtain ⟨c, u', hc, hy⟩ := ok_bind.mp hy
  obtain ⟨hV, hI⟩ := h s s' a c u u' hI ha hc
  exact hf a c hV u u' b d t t' hI hx hy

theorem map {f : α → β} {g : γ → δ} (h : Agree I V x y)
    (hf : ∀ a c, V a c → W (f a) (g c)) : Agree I W (f <$> x) (g <$> y) := by
  rw [map_eq_pure_bind, map_eq_pure_bind]
  exact h.bind fun a c hV => pure (hf a c hV)

theorem lift_bind {x : Except ε α} {y : Except ε γ}
    (h : ∀ a c, x = .ok a → y = .ok c → Agree I W (f a) (g c)) :
    Agree I W (liftM x >>= f) (liftM y >>= g) :=
  bind (V := fun a c => x = .ok a ∧ y = .ok c) (lift fun _ _ ha hc => ⟨ha, hc⟩) fun a c hac =>
    h a c hac.1 hac.2

theorem get_bind {f g : σ → Run σ ε β} {W : β → β → Prop}
    (h : ∀ s s', I s s' → Agree I W (f s) (g s')) : Agree I W (get >>= f) (get >>= g) := by
  refine bind (V := I) (fun s s' a c u u' hI hx hy => ?_) h
  obtain ⟨rfl, rfl⟩ := ok_get.mp hx
  obtain ⟨rfl, rfl⟩ := ok_get.mp hy
  exact ⟨hI, hI⟩

theorem set_bind {r r' : σ} {f g : PUnit → Run σ ε β} {W : β → β → Prop} (hr : I r r')
    (h : Agree I W (f ⟨⟩) (g ⟨⟩)) : Agree I W (set r >>= f) (set r' >>= g) := by
  refine bind (V := fun _ _ => True) (fun s s' a c u u' _ hx hy => ?_) fun _ _ _ => h
  obtain ⟨rfl⟩ := ok_set.mp hx
  obtain ⟨rfl⟩ := ok_set.mp hy
  exact ⟨trivial, hr⟩

theorem mapM {R : α → γ → Prop}
    (step : ∀ a c, R a c → Agree I W (f a) (g c)) {as : List α} {cs : List γ}
    (hR : List.Forall₂ R as cs) : Agree I (List.Forall₂ W) (as.mapM f) (cs.mapM g) := by
  induction hR with
  | nil =>
    rw [List.mapM_nil, List.mapM_nil]
    exact pure .nil
  | cons hac _ ih =>
    rw [List.mapM_cons, List.mapM_cons]
    exact (step _ _ hac).bind fun b d hbd => ih.bind fun bs ds h => pure (.cons hbd h)

end Agree

end Run

end GoAtlas.Lib
