import Mathlib.Logic.Function.Basic

/-!
# One client moves

The states of the clients of a system are a function of the client, and a step changes one of them.
What holds of every client then holds after the step if it holds of the new state.
-/

namespace GoAtlas.Lib

variable {ι : Type}

variable {π : Type} [DecidableEq ι] {f : ι → π} {c : ι} {p : π}

theorem forall_update {Q : ι → π → Prop} (hc : Q c p) (ho : ∀ d, d ≠ c → Q d (f d)) (d : ι) :
    Q d (Function.update f c p d) := by
  by_cases hdc : d = c
  · subst hdc
    simpa using hc
  · simpa [hdc] using ho d hdc

theorem forall_update_some {g : ι → Option π} {Q : ι → π → Prop} (hc : Q c p)
    (ho : ∀ d q, d ≠ c → g d = some q → Q d q) (d : ι) (q : π)
    (h : Function.update g c (some p) d = some q) : Q d q := by
  by_cases hdc : d = c
  · subst hdc
    rw [Function.update_self] at h
    cases h
    exact hc
  · rw [Function.update_of_ne hdc] at h
    exact ho d q hdc h

end GoAtlas.Lib
