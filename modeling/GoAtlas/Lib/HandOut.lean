import Mathlib.Algebra.BigOperators.Group.List.Basic
import Mathlib.Algebra.Order.BigOperators.Group.List
import Mathlib.Algebra.Order.Ring.Rat
import Mathlib.Data.List.Nodup
import Mathlib.Tactic.Linarith

/-!
# Units handed out one by one

Entries of a list change by one unit each. If the units are as many as the fractions of a list add
up to, and go to the largest fractions, every fraction that gets one is positive.
-/

namespace GoAtlas.Lib

theorem sum_map_modify {α M : Type} [AddCommMonoid M] {f : α → M} {g : α → α} {c : M}
    (hg : ∀ a, f (g a) = f a + c) {l : List α} {i : Nat} (hi : i < l.length) :
    ((l.modify i g).map f).sum = (l.map f).sum + c := by
  induction l generalizing i with
  | nil => simp at hi
  | cons a l ih =>
    cases i with
    | zero => simp [hg, add_right_comm]
    | succ i => simp [ih (Nat.lt_of_succ_lt_succ hi), add_assoc]

def handOut (is : List Nat) (l : List Int) : List Int := is.foldl (fun l i => l.modify i (· + 1)) l

theorem getElem?_handOut {is : List Nat} (hnodup : is.Nodup) (l : List Int) (i : Nat) :
    (handOut is l)[i]? = l[i]?.map fun x => if i ∈ is then x + 1 else x := by
  induction is generalizing l with
  | nil => simp [handOut]
  | cons j is ih =>
    obtain ⟨hj, hnodup⟩ := List.nodup_cons.mp hnodup
    have hstep : handOut (j :: is) l = handOut is (l.modify j (· + 1)) := rfl
    rw [hstep, ih hnodup, List.getElem?_modify]
    by_cases hij : j = i
    · subst hij
      simp [hj, Function.comp_def]
    · simp [hij, Ne.symm hij]

theorem length_handOut (is : List Nat) (l : List Int) : (handOut is l).length = l.length := by
  induction is generalizing l with
  | nil => rfl
  | cons i is ih => exact (ih _).trans (List.length_modify _ _ _)

theorem sum_handOut {is : List Nat} {l : List Int} (h : ∀ i ∈ is, i < l.length) :
    (handOut is l).sum = l.sum + is.length := by
  induction is generalizing l with
  | nil => simp [handOut]
  | cons i is ih =>
    obtain ⟨hi, hrest⟩ := List.forall_mem_cons.mp h
    have hmodify := sum_map_modify (f := id) (g := (· + 1)) (c := (1 : Int)) (fun _ => rfl) hi
    rw [List.map_id, List.map_id] at hmodify
    have hstep : handOut (i :: is) l = handOut is (l.modify i (· + 1)) := rfl
    rw [hstep, ih (by simpa using hrest), hmodify, List.length_cons]
    push_cast
    omega

section Fractions

variable {l : List ℚ} {k : Nat}

theorem le_length_of_le_sum (hle : ∀ x ∈ l, x ≤ 1) (hsum : k ≤ l.sum) : k ≤ l.length := by
  have h := List.sum_le_card_nsmul l 1 hle
  rw [nsmul_eq_mul, mul_one] at h
  exact_mod_cast hsum.trans h

theorem pos_of_mem_take (hsorted : l.Pairwise fun x y => y ≤ x) (hle : ∀ x ∈ l, x ≤ 1)
    (hsum : k ≤ l.sum) :
    ∀ x ∈ l.take k, 0 < x := by
  induction l generalizing k with
  | nil => simp
  | cons y l ih =>
    cases k with
    | zero => simp
    | succ k =>
      obtain ⟨hy, hsorted⟩ := List.pairwise_cons.mp hsorted
      obtain ⟨hy1, hle⟩ := List.forall_mem_cons.mp hle
      rw [List.sum_cons, Nat.cast_succ] at hsum
      have hypos : 0 < y := by
        -- no fraction is larger than the first
        by_contra hneg
        have h := List.sum_le_card_nsmul l 0 fun x hx => (hy x hx).trans (not_lt.mp hneg)
        rw [nsmul_zero] at h
        linarith [not_lt.mp hneg, (Nat.cast_nonneg k : (0 : ℚ) ≤ k)]
      rw [List.take_succ_cons]
      exact List.forall_mem_cons.mpr ⟨hypos, ih hsorted hle (by linarith)⟩

end Fractions

end GoAtlas.Lib
