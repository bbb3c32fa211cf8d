import Mathlib.Data.Fintype.Basic
import Mathlib.Data.Fintype.Card
import Mathlib.Logic.Relation

/-!
# Reaching a vertex without going in circles

A depth-first search that never enters a vertex on the way to the present one still reaches whatever
can be reached: the way can be cut at the last visit of each vertex.
-/

namespace GoAtlas.Lib.Search

open Relation

variable {α : Type} {edge : α → α → Prop} {visited : List α} {a b : α}

/-- `b` can be reached from `a` by steps that do not enter `visited`. -/
def Avoids (edge : α → α → Prop) (visited : List α) : α → α → Prop :=
  ReflTransGen fun x y => edge x y ∧ y ∉ visited

theorem avoids_nil (h : ReflTransGen edge a b) : Avoids edge [] a b :=
  h.lift id fun _ _ he => ⟨he, List.not_mem_nil⟩

theorem Avoids.split (h : Avoids edge visited a b) :
    b = a ∨ ∃ c, edge a c ∧ c ∉ a :: visited ∧ Avoids edge (a :: visited) c b := by
  induction h with
  | refl => exact .inl rfl
  | @tail x y _ hxy ih =>
    by_cases hya : y = a
    · exact .inl hya
    · have hy : y ∉ a :: visited := by simp [hya, hxy.2]
      obtain rfl | ⟨c, hac, hc, hcx⟩ := ih
      · exact .inr ⟨y, hxy.1, hy, .refl⟩
      · exact .inr ⟨c, hac, hc, hcx.tail ⟨hxy.1, hy⟩⟩

def unvisited [Fintype α] [DecidableEq α] (visited : List α) : Nat :=
  (Finset.univ.filter fun x => x ∉ visited).card

theorem unvisited_cons_lt [Fintype α] [DecidableEq α] (h : a ∉ visited) :
    unvisited (a :: visited) < unvisited visited := by
  refine Finset.card_lt_card (Finset.ssubset_iff_of_subset ?_ |>.mpr ⟨a, ?_, ?_⟩)
  · intro x hx
    simp only [Finset.mem_filter, Finset.mem_univ, true_and, List.mem_cons, not_or] at hx ⊢
    exact hx.2
  · simpa using h
  · simp

theorem unvisited_pos [Fintype α] [DecidableEq α] (h : a ∉ visited) : 0 < unvisited visited :=
  Nat.lt_of_le_of_lt (Nat.zero_le _) (unvisited_cons_lt h)

end GoAtlas.Lib.Search
