import Mathlib.Data.Finset.Max
import Mathlib.Data.Nat.Factorization.Basic

/-!
# The one bits of a bit vector

A bit vector as the set of the positions where it has a one, the first and the last of them, and the
arithmetic that works on this set: `v &&& (v - 1)` drops the first one bit, and `(1 <<< n) - 1` has
the first `n` positions, or all of them if there are fewer.
-/

namespace GoAtlas.Lib.OneBits

variable {w : Nat} {v : BitVec w} {k j n : Nat}

def ones (v : BitVec w) : Finset Nat := (Finset.range w).filter fun i => v.getLsbD i = true

theorem mem_ones : k ∈ ones v ↔ v.getLsbD k = true := by
  unfold ones
  rw [Finset.mem_filter, Finset.mem_range]
  refine ⟨And.right, fun h => ⟨?_, h⟩⟩
  exact BitVec.lt_of_getLsbD h

theorem ones_eq_empty_iff : ones v = ∅ ↔ v = 0#w := by
  rw [Finset.eq_empty_iff_forall_notMem, BitVec.eq_of_getLsbD_eq_iff]
  refine ⟨fun h i _ => ?_, fun h i hi => ?_⟩
  · rw [BitVec.getLsbD_zero, Bool.eq_false_iff]
    exact fun hbit => h i (mem_ones.mpr hbit)
  · have hbit := mem_ones.mp hi
    rw [h i (BitVec.lt_of_getLsbD hbit), BitVec.getLsbD_zero] at hbit
    cases hbit

theorem ne_zero_of_getLsbD (h : v.getLsbD k = true) : v ≠ 0#w := by
  rintro rfl
  rw [BitVec.getLsbD_zero] at h
  cases h

theorem ones_nonempty (h : v ≠ 0#w) : (ones v).Nonempty := by
  rw [Finset.nonempty_iff_ne_empty]
  exact fun hempty => h (ones_eq_empty_iff.mp hempty)

theorem card_ones_le : (ones v).card ≤ w := by
  have hle := Finset.card_filter_le (Finset.range w) fun i => v.getLsbD i = true
  rwa [Finset.card_range] at hle

/-! ## The first and the last one bit -/

structure IsFirst (v : BitVec w) (k : Nat) : Prop where
  one : v.getLsbD k = true
  before : ∀ j < k, v.getLsbD j = false

structure IsLast (v : BitVec w) (k : Nat) : Prop where
  one : v.getLsbD k = true
  after : ∀ j, k < j → v.getLsbD j = false

theorem IsFirst.lt (h : IsFirst v k) : k < w := BitVec.lt_of_getLsbD h.one

theorem IsLast.lt (h : IsLast v k) : k < w := BitVec.lt_of_getLsbD h.one

theorem IsFirst.ne_zero (h : IsFirst v k) : v ≠ 0#w := ne_zero_of_getLsbD h.one

theorem IsLast.ne_zero (h : IsLast v k) : v ≠ 0#w := ne_zero_of_getLsbD h.one

theorem isFirst_of_le (hk : k ∈ ones v) (hmin : ∀ j ∈ ones v, k ≤ j) : IsFirst v k := by
  refine ⟨mem_ones.mp hk, fun j hj => ?_⟩
  rw [Bool.eq_false_iff]
  intro hbit
  have := hmin j (mem_ones.mpr hbit)
  omega

theorem isLast_of_le (hk : k ∈ ones v) (hmax : ∀ j ∈ ones v, j ≤ k) : IsLast v k := by
  refine ⟨mem_ones.mp hk, fun j hj => ?_⟩
  rw [Bool.eq_false_iff]
  intro hbit
  have := hmax j (mem_ones.mpr hbit)
  omega

theorem exists_isLast (h : v ≠ 0#w) : ∃ k, IsLast v k := by
  have hne := ones_nonempty h
  exact ⟨(ones v).max' hne, isLast_of_le (Finset.max'_mem _ hne) fun j hj => Finset.le_max' _ j hj⟩

theorem exists_isFirst (h : v ≠ 0#w) : ∃ k, IsFirst v k := by
  have hne := ones_nonempty h
  exact ⟨(ones v).min' hne, isFirst_of_le (Finset.min'_mem _ hne) fun j hj => Finset.min'_le _ j hj⟩

theorem IsFirst.unique {k' : Nat} (h : IsFirst v k) (h' : IsFirst v k') : k = k' := by
  rcases Nat.lt_trichotomy k k' with hlt | heq | hlt
  · have hbit := h'.before k hlt
    rw [h.one] at hbit
    cases hbit
  · exact heq
  · have hbit := h.before k' hlt
    rw [h'.one] at hbit
    cases hbit

theorem IsFirst.toNat_eq (h : IsFirst v k) : ∃ m, v.toNat = 2 ^ k * (2 * m + 1) := by
  have hnat : v.toNat ≠ 0 := fun h0 => h.ne_zero (BitVec.eq_of_toNat_eq (by simpa using h0))
  obtain ⟨k', m, ⟨m', rfl⟩, heq⟩ := Nat.exists_eq_two_pow_mul_odd hnat
  have hbits : ∀ j, v.getLsbD j = if j < k' then false else (2 * m' + 1).testBit (j - k') := by
    intro j
    have htest := Nat.testBit_two_pow_mul_add (2 * m' + 1) (Nat.two_pow_pos k') j
    rwa [Nat.add_zero, ← heq, BitVec.testBit_toNat, Nat.zero_testBit] at htest
  have hfirst : IsFirst v k' := by
    refine ⟨?_, fun j hj => ?_⟩
    · rw [hbits, if_neg (Nat.lt_irrefl k'), Nat.sub_self, Nat.testBit_zero]
      simp
    · rw [hbits, if_pos hj]
  exact ⟨m', h.unique hfirst ▸ heq⟩

/-! ## Arithmetic on the set -/

theorem toNat_one (hw : w ≠ 0) : (1#w).toNat = 1 := by
  rw [BitVec.toNat_ofNat]
  exact Nat.mod_eq_of_lt (Nat.one_lt_two_pow hw)

theorem getLsbD_and_sub_one (h : IsFirst v k) (j : Nat) :
    (v &&& (v - 1#w)).getLsbD j = (decide (j ≠ k) && v.getLsbD j) := by
  obtain ⟨m, hm⟩ := h.toNat_eq
  have hone := toNat_one (Nat.ne_zero_of_lt h.lt)
  have hpow : 0 < 2 ^ k := Nat.two_pow_pos k
  have hpos : 1 ≤ v.toNat := by
    rw [hm]
    exact Nat.mul_pos hpow (by omega)
  have hsub : (v - 1#w).toNat = 2 ^ k * (2 * m) + (2 ^ k - 1) := by
    rw [BitVec.toNat_sub_of_le (by rw [BitVec.le_def, hone]; exact hpos), hone, hm, Nat.mul_add]
    omega
  have hv := Nat.testBit_two_pow_mul_add (2 * m + 1) hpow j
  rw [Nat.add_zero, ← hm, BitVec.testBit_toNat, Nat.zero_testBit] at hv
  have hv1 := Nat.testBit_two_pow_mul_add (2 * m) (Nat.sub_one_lt (Nat.pos_iff_ne_zero.mp hpow)) j
  rw [← hsub, BitVec.testBit_toNat] at hv1
  rw [BitVec.getLsbD_and, hv, hv1]
  rcases Nat.lt_trichotomy j k with hlt | rfl | hgt
  · simp [hlt]
  · simp
  · -- above the first one bit both numbers have the bits of `m`
    obtain ⟨i, rfl⟩ : ∃ i, j = k + i + 1 := ⟨j - k - 1, by omega⟩
    rw [if_neg (by omega), if_neg (by omega), show k + i + 1 - k = i + 1 by omega,
      Nat.testBit_succ, Nat.testBit_succ, show (2 * m + 1) / 2 = m by omega,
      show 2 * m / 2 = m by omega, Bool.and_self, decide_eq_true (by omega), Bool.true_and]

theorem ones_and_sub_one (h : IsFirst v k) : ones (v &&& (v - 1#w)) = (ones v).erase k := by
  ext j
  rw [mem_ones, getLsbD_and_sub_one h, Finset.mem_erase, mem_ones, Bool.and_eq_true,
    decide_eq_true_eq]

theorem getLsbD_one_shiftLeft_sub_one (n j : Nat) :
    ((1#w <<< n) - 1#w).getLsbD j = (decide (j < w) && decide (j < n)) := by
  by_cases hw : w = 0
  · subst hw
    rw [BitVec.getLsbD_of_ge _ _ (Nat.zero_le j)]
    simp
  · by_cases hn : n < w
    · have hone := toNat_one hw
      have hshift : (1#w <<< n).toNat = 2 ^ n := by
        rw [← BitVec.twoPow_eq, BitVec.toNat_twoPow]
        exact Nat.mod_eq_of_lt (Nat.pow_lt_pow_right (by decide) hn)
      have hpow : 0 < 2 ^ n := Nat.two_pow_pos n
      have hle : 1#w ≤ 1#w <<< n := by
        rw [BitVec.le_def, hone, hshift]
        exact hpow
      rw [← BitVec.testBit_toNat, BitVec.toNat_sub_of_le hle, hone, hshift,
        Nat.testBit_two_pow_sub_one, eq_comm, Bool.and_eq_right_iff_imp, decide_eq_true_eq,
        decide_eq_true_eq]
      omega
    · rw [BitVec.shiftLeft_eq_zero (by omega), BitVec.zero_sub, BitVec.neg_one_eq_allOnes,
        BitVec.getLsbD_allOnes, eq_comm, Bool.and_eq_left_iff_imp, decide_eq_true_eq,
        decide_eq_true_eq]
      omega

theorem and_one_shiftLeft_ne_zero_iff (n : Nat) : v &&& (1#w <<< n) ≠ 0#w ↔ v.getLsbD n = true := by
  rw [← BitVec.twoPow_eq, BitVec.and_twoPow]
  refine ⟨fun h => ?_, fun h => ?_⟩
  · by_contra hbit
    rw [if_neg hbit] at h
    exact h rfl
  · rw [if_pos h]
    intro hzero
    have hbit := congrArg (BitVec.getLsbD · n) hzero
    simp [BitVec.lt_of_getLsbD h] at hbit

end GoAtlas.Lib.OneBits
