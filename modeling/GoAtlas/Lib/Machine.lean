/-!
# Runs of a machine

A machine takes actions one after another; an action that is not enabled has no next state. A
property of runs is proved from what one action preserves.
-/

namespace GoAtlas.Lib

/-- A deterministic machine: what an action does in a state, if it is enabled there. -/
structure Machine (σ α : Type) where
  step : σ → α → Option σ

namespace Machine

variable {σ α : Type} (m : Machine σ α)

def run : σ → List α → Option σ
  | s, [] => some s
  | s, a :: as => (m.step s a).bind fun s' => run s' as

/-- Every action of a run meets `ok` in the state it is taken in. -/
def Along (ok : σ → α → Prop) : σ → List α → Prop
  | _, [] => True
  | s, a :: as => ok s a ∧ ∀ s', m.step s a = some s' → Along ok s' as

variable {m}

theorem run_cons {s s' : σ} {a : α} {as : List α} :
    m.run s (a :: as) = some s' ↔ ∃ t, m.step s a = some t ∧ m.run t as = some s' := by
  simp [run, Option.bind_eq_some_iff]

theorem run_append {s t u : σ} {as bs : List α} (h : m.run s as = some t)
    (h' : m.run t bs = some u) :
    m.run s (as ++ bs) = some u := by
  induction as generalizing s with
  | nil =>
    cases h
    exact h'
  | cons a as ih =>
    obtain ⟨s', ha, hrun⟩ := run_cons.mp h
    exact run_cons.mpr ⟨s', ha, ih hrun⟩

/-- What every allowed action preserves holds at the end of every allowed run. -/
theorem invariant_run (ok : σ → α → Prop) (Inv : σ → Prop)
    (hstep : ∀ s a s', Inv s → ok s a → m.step s a = some s' → Inv s') :
    ∀ {as : List α} {s s' : σ}, Inv s → m.Along ok s as → m.run s as = some s' → Inv s'
  | [], s, s', hi, _, h => by
    cases h
    exact hi
  | a :: as, s, s', hi, hok, h => by
    obtain ⟨t, ht, hrun⟩ := run_cons.mp h
    exact invariant_run ok Inv hstep (hstep s a t hi hok.1 ht) (hok.2 t ht) hrun

theorem along_of_mem {ok : σ → α → Prop} :
    ∀ {as : List α}, (∀ a ∈ as, ∀ s, ok s a) → ∀ s : σ, m.Along ok s as
  | [], _, _ => trivial
  | a :: as, h, s =>
    ⟨h a (by simp) s, fun t _ => along_of_mem (fun b hb => h b (by simp [hb])) t⟩

instance decidableAlong {ok : σ → α → Prop} [∀ s a, Decidable (ok s a)] :
    ∀ (as : List α) (s : σ), Decidable (m.Along ok s as)
  | [], _ => .isTrue trivial
  | a :: as, s =>
    match hstep : m.step s a with
    | none =>
      decidable_of_iff (ok s a) ⟨fun h => ⟨h, fun t ht => by rw [hstep] at ht; cases ht⟩,
        fun h => h.1⟩
    | some t =>
      have : Decidable (m.Along ok t as) := decidableAlong as t
      decidable_of_iff (ok s a ∧ m.Along ok t as)
        ⟨fun h => ⟨h.1, fun u hu => by rw [hstep] at hu; cases hu; exact h.2⟩,
          fun h => ⟨h.1, h.2 t hstep⟩⟩

end Machine

/-! ## Replies -/

section Replies

variable {σ τ α β : Type}

/-- What a service replies to one request after another. -/
def replies (step : σ → α → σ × β) : σ → List α → List β
  | _, [] => []
  | s, a :: as => (step s a).2 :: replies step (step s a).1 as

end Replies

end GoAtlas.Lib
