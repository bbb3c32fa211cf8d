import Mathlib.Logic.Function.Basic

/-!
# A registry of requests

A server that is to run a request at most once keeps a record of it. Every request has a deadline;
one that arrives at its deadline or later is refused, and records are pruned only then. So, on a
clock that does not go back, the record of a request is there whenever the request can still run.
-/

namespace GoAtlas.Lib

structure Registry (ι ρ : Type) where
  record : ι → Option ρ
  due : ι → Option Nat

namespace Registry

variable {ι ρ : Type} [DecidableEq ι]

def empty : Registry ι ρ := ⟨fun _ => none, fun _ => none⟩

def put (r : Registry ι ρ) (id : ι) (deadline : Nat) (x : ρ) : Registry ι ρ :=
  ⟨Function.update r.record id (some x), Function.update r.due id (some deadline)⟩

def set (r : Registry ι ρ) (id : ι) (x : ρ) : Registry ι ρ :=
  { r with record := Function.update r.record id (some x) }

def drop (r : Registry ι ρ) (id : ι) : Registry ι ρ :=
  ⟨Function.update r.record id none, Function.update r.due id none⟩

/-- Those of the ids whose deadline is reached are removed. -/
def prune (r : Registry ι ρ) (ids : List ι) (now : Nat) : Registry ι ρ where
  record id := if id ∈ ids ∧ (r.due id).any (· ≤ now) then none else r.record id
  due id := if id ∈ ids ∧ (r.due id).any (· ≤ now) then none else r.due id

/-- Until its deadline, the request has a record that meets `P`. -/
def Kept (r : Registry ι ρ) (now : Nat) (id : ι) (deadline : Nat) (P : ρ → Prop) : Prop :=
  now < deadline → (∃ x, r.record id = some x ∧ P x) ∧ r.due id = some deadline

variable {r : Registry ι ρ} {now deadline : Nat} {id id' : ι} {P : ρ → Prop}

section

variable (h : Kept r now id deadline P)
include h

omit [DecidableEq ι] in
theorem Kept.later {now' : Nat} (hle : now ≤ now') :
    Kept r now' id deadline P :=
  fun hlt => h (Nat.lt_of_le_of_lt hle hlt)

theorem Kept.prune (ids : List ι) :
    Kept (r.prune ids now) now id deadline P := by
  intro hlt
  obtain ⟨hrecord, hdue⟩ := h hlt
  have hkeep : ¬ (id ∈ ids ∧ (r.due id).any (· ≤ now) = true) := by
    rintro ⟨-, hpast⟩
    rw [hdue] at hpast
    simp at hpast
    omega
  simp only [Registry.prune, if_neg hkeep]
  exact ⟨hrecord, hdue⟩

theorem Kept.put_of_ne {d : Nat} {x : ρ} (hne : id ≠ id') :
    Kept (r.put id' d x) now id deadline P := by
  intro hlt
  simpa [Registry.put, hne] using h hlt

theorem Kept.set_of_ne {x : ρ} (hne : id ≠ id') :
    Kept (r.set id' x) now id deadline P := by
  intro hlt
  simpa [Registry.set, hne] using h hlt

theorem Kept.drop_of_ne (hne : id ≠ id') :
    Kept (r.drop id') now id deadline P := by
  intro hlt
  simpa [Registry.drop, hne] using h hlt

end

theorem kept_put {x : ρ} (hx : P x) : Kept (r.put id deadline x) now id deadline P := by
  intro _
  exact ⟨⟨x, by simp [put], hx⟩, by simp [put]⟩

end Registry

end GoAtlas.Lib
