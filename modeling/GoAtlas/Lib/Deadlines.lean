import Mathlib.Order.WithBot

/-!
# Deadlines that overwrite each other

A mark puts a deadline on a key or clears it, and a deadline may be none at all (`⊤`). A store that
keeps one deadline for each key, the last one, answers by it; a key is due as long as one of its
deadlines since it was last cleared is still to come.
-/

namespace GoAtlas.Lib

/-- A deadline as it was asked for, and what the store keeps for it. -/
structure Deadline (τ : Type) where
  asked : WithTop τ
  kept : WithTop τ

inductive Mark (κ τ : Type) where
  | set (key : κ) (d : Deadline τ)
  | clear (key : κ)

namespace Mark

variable {κ τ : Type} [DecidableEq κ] [LT τ] {k key : κ} {d : Deadline τ} {ms : List (Mark κ τ)}

/-- The deadlines since the key was last cleared. The newest mark is in front. -/
def standing (k : κ) : List (Mark κ τ) → List (Deadline τ)
  | [] => []
  | .set key d :: ms => if key = k then d :: standing k ms else standing k ms
  | .clear key :: ms => if key = k then [] else standing k ms

def Due (k : κ) (ms : List (Mark κ τ)) (t : τ) : Prop :=
  ∃ d ∈ standing k ms, WithTop.some t < d.asked

/-- What a store of the last deadline answers. -/
def KeptDue (k : κ) (ms : List (Mark κ τ)) (t : τ) : Prop :=
  ∃ d ∈ (standing k ms).head?, WithTop.some t < d.kept

instance [DecidableLT τ] (k : κ) (ms : List (Mark κ τ)) (t : τ) : Decidable (Due k ms t) :=
  inferInstanceAs (Decidable (∃ d ∈ _, _))

theorem not_keptDue_nil (t : τ) : ¬ KeptDue k [] t := by
  simp [KeptDue, standing]

theorem keptDue_set (t : τ) :
    KeptDue k (.set key d :: ms) t ↔
      if key = k then WithTop.some t < d.kept else KeptDue k ms t := by
  unfold KeptDue
  rw [standing]
  split <;> simp

theorem keptDue_clear (t : τ) : KeptDue k (.clear key :: ms) t ↔ key ≠ k ∧ KeptDue k ms t := by
  unfold KeptDue
  rw [standing]
  split <;> simp [*]

end Mark

end GoAtlas.Lib
