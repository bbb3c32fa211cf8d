import GoAtlas.Lib.HandOut
import GoAtlas.Money.MinorUnits
import Mathlib.Algebra.BigOperators.Ring.Finset

/-!
# The largest remainder

The shares rounded down leave as many units as their fractions add up to, so each unit goes to a
share with a fraction: no part is a unit or more away from its share, and a share of zero stays
zero.
-/

namespace GoAtlas.Money

open GoAtlas.Lib

theorem floorRat_eq {r : ℚ} (h : 0 ≤ r) : floorRat r = ⌊r⌋ := by
  rw [floorRat, Int.tdiv_eq_ediv_of_nonneg (Rat.num_nonneg.mpr h), Rat.floor_def']

/-! ## The order of the shares -/

section Shares

variable {exact : List ℚ}

theorem sortedShares_perm (exact : List ℚ) :
    (sortedShares exact).Perm (exact.zipIdx.map fun e => ⟨e.2, e.1 - floorRat e.1⟩) :=
  List.mergeSort_perm _ _

theorem sortedShares_pairwise (exact : List ℚ) :
    ((sortedShares exact).map Share.remainder).Pairwise fun x y => y ≤ x := by
  rw [List.pairwise_map]
  refine (List.pairwise_mergeSort ?_ ?_ _).imp fun h => of_decide_eq_true h
  · intro a b c hab hbc
    exact decide_eq_true ((of_decide_eq_true hbc).trans (of_decide_eq_true hab))
  · intro a b
    simpa using le_total b.remainder a.remainder

theorem of_mem_sortedShares {s : Share} (h : s ∈ sortedShares exact) :
    ∃ e, exact[s.index]? = some e ∧ s.remainder = e - floorRat e := by
  obtain ⟨p, hp, rfl⟩ := List.mem_map.mp ((sortedShares_perm exact).mem_iff.mp h)
  exact ⟨p.1, List.mem_zipIdx_iff_getElem?.mp hp, rfl⟩

theorem sortedShares_nodup (exact : List ℚ) : ((sortedShares exact).map Share.index).Nodup := by
  have hperm := (sortedShares_perm exact).map Share.index
  rw [List.map_map] at hperm
  have hindex : exact.zipIdx.map (Share.index ∘ fun e => ⟨e.2, e.1 - floorRat e.1⟩) =
    List.range' 0 exact.length :=
    List.zipIdx_map_snd 0 exact
  rw [hindex] at hperm
  exact hperm.nodup_iff.mpr List.nodup_range'

theorem sum_sub_floorRat (exact : List ℚ) :
    (exact.map fun e => e - (floorRat e : ℚ)).sum =
    exact.sum - ((exact.map floorRat).sum : Int) := by
  induction exact with
  | nil => simp
  | cons e exact ih =>
    simp only [List.map_cons, List.sum_cons, ih, Int.cast_add]
    ring

theorem sum_remainders (exact : List ℚ) :
    ((sortedShares exact).map Share.remainder).sum =
    exact.sum - ((exact.map floorRat).sum : Int) := by
  have hperm := (sortedShares_perm exact).map Share.remainder
  have hmap : exact.zipIdx.map (Share.remainder ∘ fun e => ⟨e.2, e.1 - floorRat e.1⟩) =
      exact.map fun e => e - (floorRat e : ℚ) := by
    conv_rhs => rw [← List.zipIdx_map_fst 0 exact, List.map_map]
    rfl
  rw [hperm.sum_eq, List.map_map, hmap, sum_sub_floorRat]

end Shares

/-! ## The parts -/

structure Fair (e : ℚ) (p : Int) : Prop where
  nonneg : 0 ≤ p
  close : |(p : ℚ) - e| < 1
  zero : e = 0 → p = 0

theorem fair_floor {e : ℚ} (h : 0 ≤ e) : Fair e (floorRat e) := by
  have hle := Int.floor_le e
  have hlt := Int.lt_floor_add_one e
  rw [floorRat_eq h]
  refine ⟨Int.floor_nonneg.mpr h, abs_lt.mpr ⟨by linarith, by linarith⟩, ?_⟩
  rintro rfl
  exact Int.floor_zero

theorem fair_succ {e : ℚ} (h : 0 ≤ e) (hpos : 0 < e - floorRat e) : Fair e (floorRat e + 1) := by
  have hlt := Int.lt_floor_add_one e
  rw [floorRat_eq h] at hpos ⊢
  refine ⟨by have := Int.floor_nonneg.mpr h; omega, ?_, ?_⟩
  · push_cast
    exact abs_lt.mpr ⟨by linarith, by linarith⟩
  · rintro rfl
    simp at hpos

/-- The parts add up to the total, and each is fair to its share. -/
theorem apportion_spec {total : Int} {exact : List ℚ} (hnonneg : ∀ e ∈ exact, 0 ≤ e)
    (hsum : exact.sum = total) :
    (apportionLargestRemainder total exact).sum = total ∧
      List.Forall₂ Fair exact (apportionLargestRemainder total exact) := by
  set left := total - (exact.map floorRat).sum with hleft
  have hremainders : ((sortedShares exact).map Share.remainder).sum = left := by
    rw [sum_remainders, hsum, hleft, Int.cast_sub]
  have hfraction : ∀ x ∈ (sortedShares exact).map Share.remainder, 0 ≤ x ∧ x ≤ 1 := by
    intro x hx
    obtain ⟨s, hs, rfl⟩ := List.mem_map.mp hx
    obtain ⟨e, he, hrem⟩ := of_mem_sortedShares hs
    rw [hrem, floorRat_eq (hnonneg e (List.mem_of_getElem? he))]
    exact ⟨Int.fract_nonneg e, (Int.fract_lt_one e).le⟩
  have hleft0 : 0 ≤ left := by
    have := List.sum_nonneg fun x hx => (hfraction x hx).1
    rw [hremainders] at this
    exact_mod_cast this
  have hcount : (left.toNat : ℚ) ≤ ((sortedShares exact).map Share.remainder).sum := by
    rw [hremainders]
    exact_mod_cast (Int.toNat_of_nonneg hleft0).le
  set given := ((sortedShares exact).take left.toNat).map Share.index with hgiven
  have hparts : apportionLargestRemainder total exact = handOut given (exact.map floorRat) := by
    rw [apportionLargestRemainder, hgiven, handOut, List.foldl_map]
  -- as many units are handed out as are left
  have hlength : given.length = left.toNat := by
    rw [hgiven, List.length_map, List.length_take, Nat.min_eq_left]
    have := le_length_of_le_sum (fun x hx => (hfraction x hx).2) hcount
    rwa [List.length_map] at this
  have hpositive : ∀ s ∈ (sortedShares exact).take left.toNat, 0 < s.remainder := by
    intro s hs
    refine pos_of_mem_take (sortedShares_pairwise exact)
      (fun x hx => (hfraction x hx).2) hcount _ ?_
    rw [← List.map_take]
    exact List.mem_map_of_mem hs
  have hnodup : given.Nodup := by
    rw [hgiven, List.map_take]
    exact (List.take_sublist _ _).nodup (sortedShares_nodup exact)
  rw [hparts]
  refine ⟨?_, List.forall₂_iff_get.mpr
    ⟨by rw [length_handOut, List.length_map], fun i hi hi' => ?_⟩⟩
  · rw [sum_handOut, hlength, Int.toNat_of_nonneg hleft0, hleft]
    · ring
    · intro i hi
      obtain ⟨s, hs, rfl⟩ := List.mem_map.mp hi
      obtain ⟨e, he, -⟩ := of_mem_sortedShares (List.mem_of_mem_take hs)
      rw [List.length_map]
      exact (List.getElem?_eq_some_iff.mp he).1
  · have hget := getElem?_handOut hnodup (exact.map floorRat) i
    rw [List.getElem?_map, List.getElem?_eq_getElem hi, List.getElem?_eq_getElem hi'] at hget
    have he0 := hnonneg _ (List.getElem_mem hi)
    rw [List.get_eq_getElem, List.get_eq_getElem, Option.some.inj hget]
    dsimp only
    by_cases hmem : i ∈ given
    · rw [if_pos hmem]
      obtain ⟨s, hs, rfl⟩ := List.mem_map.mp hmem
      obtain ⟨e, he, hrem⟩ := of_mem_sortedShares (List.mem_of_mem_take hs)
      have heq := (List.getElem?_eq_some_iff.mp he).2
      have hpos := hpositive s hs
      rw [hrem, ← heq] at hpos
      exact fair_succ he0 hpos
    · rw [if_neg hmem]
      exact fair_floor he0

/-! ## The allocation -/

/-- The value is zero or has the sign of the amount. -/
def SameSign (x amount : ℚ) : Prop := x = 0 ∨ 0 < x * amount

theorem sum_exactShares {ratios : List Decimal} (h : ValidRatios ratios) (total : Int) :
    (exactShares total ratios).sum = total := by
  have hsum := h.sum_pos.ne'
  simp only [exactShares, div_eq_mul_inv]
  rw [List.sum_map_mul_right, List.sum_map_mul_left, List.map_id', mul_assoc,
    mul_inv_cancel₀ hsum, mul_one]

theorem exists_factor (k : Int) :
    ∃ s : Int, (s = 1 ∨ s = -1) ∧ s * |k| = k ∧ ∀ p : Int, (if k < 0 then -p else p) = s * p := by
  by_cases h : k < 0
  · exact ⟨-1, .inr rfl, by rw [abs_of_neg h]; ring, fun p => by rw [if_pos h]; ring⟩
  · exact ⟨1, .inl rfl, by rw [abs_of_nonneg (not_lt.mp h)]; ring, fun p => by rw [if_neg h]; ring⟩

theorem Fair.signed {s a p : Int} {e unit : ℚ} (hs : s = 1 ∨ s = -1) (ha : 0 ≤ a) (hunit : 0 < unit)
    (hp : Fair e p) (he : a = 0 → e = 0) :
    SameSign ((s * p : Int) * unit) ((s * a : Int) * unit) ∧
      |(s * p : Int) * unit - s * e * unit| < unit := by
  have hone : (s : ℚ) * s = 1 := by rcases hs with rfl | rfl <;> simp
  have habs : |(s : ℚ)| = 1 := by rcases hs with rfl | rfl <;> simp
  constructor
  · by_cases hzero : p = 0
    · exact .inl (by simp [hzero])
    · have hp0 : (0 : ℚ) < p := by exact_mod_cast lt_of_le_of_ne hp.nonneg (Ne.symm hzero)
      have ha0 : (0 : ℚ) < a := by
        exact_mod_cast lt_of_le_of_ne ha fun h => hzero (hp.zero (he h.symm))
      refine .inr ?_
      rw [show ((s * p : Int) : ℚ) * unit * ((s * a : Int) * unit) =
        s * s * (p * a * (unit * unit)) by push_cast; ring, hone, one_mul]
      positivity
  · rw [show ((s * p : Int) : ℚ) * unit - s * e * unit =
      s * (p - e) * unit by push_cast; ring, abs_mul, abs_mul, habs, one_mul, abs_of_pos hunit]
    exact mul_lt_of_lt_one_left hunit hp.close

/-- By the largest remainder: the parts add up to the amount, one for each ratio; every part is
whole minor units with the sign of the amount, less than a unit away from its exact share, and zero
for a ratio of zero. -/
theorem allocateBy_largestRemainder (lib : Decimal.Arithmetic) (m : Money) (ratios : List Decimal)
    {k : Int} (hbig : m.minorBig lib = .ok k) (hratios : ValidRatios ratios) :
    ∃ parts, m.allocateBy lib .largestRemainder ratios = .ok parts ∧
      parts.length = ratios.length ∧
      (parts.map fun part => part.amount.val).sum = m.amount.val ∧
      List.Forall₂ (fun r part => part.currency = m.currency ∧ (∃ j, part.Whole j) ∧
        SameSign part.amount.val m.amount.val ∧
        |part.amount.val - m.amount.val * r.val / (ratios.map Decimal.val).sum| < m.unit ∧
        (r.val = 0 → part.amount.val = 0)) ratios parts := by
  have hwhole : m.amount.val = k * m.unit := (minorBig_ok_iff.mp hbig).2.1
  have hunit := m.unit_pos
  have hsum := hratios.sum_pos
  have hnonneg : ∀ e ∈ exactShares |k| ratios, 0 ≤ e := by
    intro e he
    obtain ⟨x, hx, rfl⟩ := List.mem_map.mp he
    obtain ⟨r, hr, rfl⟩ := List.mem_map.mp hx
    exact div_nonneg (mul_nonneg (by exact_mod_cast abs_nonneg k) (hratios.nonneg r hr)) hsum.le
  obtain ⟨htotal, hfair⟩ := apportion_spec hnonneg (sum_exactShares hratios |k|)
  generalize hps : apportionLargestRemainder |k| (exactShares |k| ratios) = ps at htotal hfair
  obtain ⟨s, hs, hsk, hfactor⟩ := exists_factor k
  have hparts : m.largestRemainder lib ratios =
      ps.map fun p => ⟨⟨s * p, -m.currency.minorUnits⟩, m.currency⟩ := by
    simp only [largestRemainder, hbig, hps, hfactor]
  refine ⟨_, (allocateBy_of_valid hbig hratios _).trans (congrArg Except.ok hparts), ?_, ?_, ?_⟩
  · rw [List.length_map, ← hfair.length_eq, exactShares, List.length_map, List.length_map]
  · rw [List.map_map]
    calc (ps.map fun p => ((s * p : Int) : ℚ) * m.unit).sum =
      ((s * ps.sum : Int) : ℚ) * m.unit := by
          simp only [Int.cast_mul]
          rw [List.sum_map_mul_right, List.sum_map_mul_left, Int.cast_list_sum]
      _ = m.amount.val := by rw [htotal, hsk, hwhole]
  · rw [List.forall₂_map_right_iff]
    rw [exactShares, List.forall₂_map_left_iff, List.forall₂_map_left_iff] at hfair
    refine hfair.imp fun r p hp => ?_
    obtain ⟨hsign, hclose⟩ := hp.signed hs (abs_nonneg k) hunit fun h => by simp [h]
    rw [hsk, ← hwhole] at hsign
    have hshare : m.amount.val * r.val / (ratios.map Decimal.val).sum =
        s * ((|k| : Int) * r.val / (ratios.map Decimal.val).sum) * m.unit := by
      have hk : (k : ℚ) = s * (|k| : Int) := by exact_mod_cast hsk.symm
      rw [hwhole, hk]
      ring
    refine ⟨rfl, ⟨s * p, rfl⟩, hsign, hshare ▸ hclose, fun hr => ?_⟩
    have := hp.zero (by simp [hr])
    simp [Decimal.val, this]

theorem allocateBy_largestRemainder_thirds :
    ∃ parts, (⟨⟨-10, 0⟩, eur⟩ : Money).allocateBy Decimal.exact .largestRemainder
        [⟨1, 0⟩, ⟨0, 0⟩, ⟨2, 0⟩] = .ok parts ∧
      parts.length = 3 ∧ (parts.map fun part => part.amount.val).sum =
        (⟨-10, 0⟩ : Decimal).val := by
  have hdigits : Decimal.exact.numDigits ⟨-10, 0⟩ ≤ 2 :=
    Decimal.exact.numDigits_le _ _ (by decide) (by decide)
  have hbig : (⟨⟨-10, 0⟩, eur⟩ : Money).minorBig Decimal.exact = .ok (-1000) := by
    refine minorBig_ok_iff.mpr ⟨rfl, by norm_num [Whole, unit, Decimal.val, eur], fun _ => ?_⟩
    simp only [minorDigits, maxMinorDigits, eur]
    omega
  have hratios : ValidRatios [⟨1, 0⟩, ⟨0, 0⟩, ⟨2, 0⟩] := by
    constructor <;> simp [Decimal.val]
  obtain ⟨parts, hok, hlength, hsum, -⟩ :=
    allocateBy_largestRemainder Decimal.exact ⟨⟨-10, 0⟩, eur⟩ _ hbig hratios
  exact ⟨parts, hok, hlength, hsum⟩

end GoAtlas.Money
