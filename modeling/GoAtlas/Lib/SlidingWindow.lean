import GoAtlas.Lib.Trace
import Mathlib.Algebra.Order.Group.Unbundled.Int

/-!
# Sliding windows

Times in a list, oldest first, and the ones that a window of a given period still holds. If each
time was added when the window that ends there held fewer than `limit`, no window of that period,
wherever it ends, holds more than `limit`.
-/

namespace GoAtlas.Lib.Window

def live (period now : Int) (ts : List Int) : List Int := ts.filter (now - period < ·)

/-- The times in the window of the period that ends at `t`. -/
def within (period t : Int) (ts : List Int) : List Int :=
  ts.filter fun x => t - period < x ∧ x ≤ t

variable {period now now' limit : Int} {ts : List Int}

theorem live_append (ts ts' : List Int) :
    live period now (ts ++ ts') = live period now ts ++ live period now ts' :=
  List.filter_append _ _

theorem live_live (h : now ≤ now') :
    live period now' (live period now ts) = live period now' ts := by
  unfold live
  rw [List.filter_filter]
  refine List.filter_congr fun t _ => ?_
  simp only [Bool.and_eq_left_iff_imp, decide_eq_true_eq]
  omega

/-- The times each came into a window that had room. -/
def Bounded (period limit : Int) (ts : List Int) : Prop :=
  Guarded (fun earlier t => ((live period t earlier).length : Int) < limit) ts

theorem Bounded.within_le (hlimit : 0 ≤ limit) (h : Bounded period limit ts) (t : Int) :
    ((within period t ts).length : Int) ≤ limit := by
  refine Guarded.induct (motive := fun ts => ((within period t ts).length : Int) ≤ limit)
    h hlimit ?_
  intro earlier a _ hroom ih
  have happ : within period t (earlier ++ [a]) = within period t earlier ++ within period t [a] :=
    List.filter_append _ _
  rw [happ, List.length_append]
  by_cases ha : t - period < a ∧ a ≤ t
  · -- the window that ends at `a` covers what this one holds of the earlier times
    have hsub : (within period t earlier).length ≤ (live period a earlier).length := by
      refine (List.Sublist.length_le ?_)
      refine List.monotone_filter_right _ fun x hx => ?_
      simp only [decide_eq_true_eq] at hx ⊢
      omega
    have hone : within period t [a] = [a] := by simp [within, ha]
    rw [hone, List.length_singleton]
    omega
  · have hnone : within period t [a] = [] := by simp [within, ha]
    rw [hnone, List.length_nil]
    omega

end GoAtlas.Lib.Window
