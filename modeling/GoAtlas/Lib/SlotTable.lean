import Mathlib.Algebra.BigOperators.Group.Finset.Basic
import Mathlib.Algebra.Order.BigOperators.Group.Finset
import Mathlib.Data.Fintype.Prod

/-!
# Tables of slots

A table has slots in buckets. It is measured by weights: a weight says what an entry is worth in a
bucket, and a table weighs what its entries weigh together. Writing a slot changes the weight by the
entry that leaves and the one that comes; moving an entry to its other bucket does not change a
weight that does not tell the two apart.
-/

namespace GoAtlas.Lib.SlotTable

variable {ι κ φ : Type}

section Write

variable [DecidableEq ι] [DecidableEq κ]

def write (t : ι → κ → φ) (i : ι) (s : κ) (x : φ) : ι → κ → φ :=
  fun i' s' => if i' = i ∧ s' = s then x else t i' s'

@[simp] theorem write_self (t : ι → κ → φ) (i : ι) (s : κ) (x : φ) : write t i s x i s = x := by
  simp [write]

@[simp] theorem write_back (t : ι → κ → φ) (i : ι) (s : κ) (x : φ) :
    write (write t i s x) i s (t i s) = t := by
  funext i' s'
  simp only [write]
  split
  · rename_i h
    rw [h.1, h.2]
  · rfl

end Write

section Total

variable [Fintype ι] [Fintype κ] {t : ι → κ → φ} {i : ι} {s : κ} {x : φ}

def total (μ : ι → φ → Nat) (t : ι → κ → φ) : Nat := ∑ c : ι × κ, μ c.1 (t c.1 c.2)

theorem total_write [DecidableEq ι] [DecidableEq κ] (μ : ι → φ → Nat) :
    total μ (write t i s x) + μ i (t i s) = total μ t + μ i x := by
  have hrest : ∑ c ∈ Finset.univ.erase (i, s), μ c.1 (write t i s x c.1 c.2) =
      ∑ c ∈ Finset.univ.erase (i, s), μ c.1 (t c.1 c.2) := by
    refine Finset.sum_congr rfl fun c hc => ?_
    have hne : ¬(c.1 = i ∧ c.2 = s) := fun h => Finset.ne_of_mem_erase hc (Prod.ext h.1 h.2)
    rw [write, if_neg hne]
  have hnew := Finset.add_sum_erase Finset.univ (fun c : ι × κ => μ c.1 (write t i s x c.1 c.2))
    (Finset.mem_univ (i, s))
  have hold := Finset.add_sum_erase Finset.univ (fun c : ι × κ => μ c.1 (t c.1 c.2))
    (Finset.mem_univ (i, s))
  rw [hrest] at hnew
  simp only [write_self] at hnew hold
  simp only [total]
  omega

theorem le_total (μ : ι → φ → Nat) (t : ι → κ → φ) (i : ι) (s : κ) : μ i (t i s) ≤ total μ t :=
  Finset.single_le_sum_of_canonicallyOrdered (f := fun c : ι × κ => μ c.1 (t c.1 c.2))
    (Finset.mem_univ (i, s))

theorem exists_of_total_pos {μ : ι → φ → Nat} (h : 0 < total μ t) : ∃ i s, 0 < μ i (t i s) := by
  obtain ⟨c, -, hc⟩ := Finset.exists_ne_zero_of_sum_ne_zero h.ne'
  exact ⟨c.1, c.2, Nat.pos_of_ne_zero hc⟩

end Total

/-! ## Moving entries -/

/-- A weight that an entry keeps when it moves to its other bucket, and that an empty slot has
not. -/
structure Movable (alt : ι → φ → ι) (empty : φ) (μ : ι → φ → Nat) : Prop where
  alt : ∀ i x, μ (alt i x) x = μ i x
  empty : ∀ i, μ i empty = 0

def entriesOf [DecidableEq ι] [DecidableEq φ] (alt : ι → φ → ι) (i : ι) (x : φ) : ι → φ → Nat :=
  fun i' x' => if x' = x ∧ (i' = i ∨ i' = alt i x) then 1 else 0

def entries [DecidableEq φ] (empty : φ) : ι → φ → Nat := fun _ x => if x = empty then 0 else 1

variable [DecidableEq φ] {alt : ι → φ → ι} {empty : φ}

theorem movable_entriesOf [DecidableEq ι] (halt : ∀ i x, alt (alt i x) x = i) {x : φ}
    (hx : x ≠ empty) (i : ι) :
    Movable alt empty (entriesOf alt i x) where
  alt i' x' := by
    have hiff : x' = x ∧ (alt i' x' = i ∨ alt i' x' = alt i x) ↔
        x' = x ∧ (i' = i ∨ i' = alt i x) := by
      refine and_congr_right fun hxx => ?_
      subst hxx
      constructor
      · rintro (h | h)
        · exact .inr (by rw [← h, halt])
        · exact .inl (by rw [← halt i' x', h, halt])
      · rintro (h | h)
        · exact .inr (by rw [h])
        · exact .inl (by rw [h, halt])
    simp only [entriesOf, hiff]
  empty i' := if_neg fun h => hx h.1.symm

theorem movable_entries : Movable alt empty (entries empty) where
  alt _ _ := rfl
  empty _ := if_pos rfl

end GoAtlas.Lib.SlotTable
