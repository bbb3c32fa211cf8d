import GoAtlas.Money.LargestRemainder

/-!
# Half up, the rest to the last

The loop that takes units back keeps every share within a unit of its exact value, and the sum.
While the last share is below zero, it is so by a whole unit; the exact shares are off by half of
their last place each, which for so many ratios is less than a unit together. So some share is over
its exact value, and the loop ends without its `break`.
-/

namespace GoAtlas.Money

open GoAtlas.Lib

variable {lib : Decimal.Arithmetic} {unit : ℚ}

/-! ## The share that is over by the most -/

section Best

variable {first exact : List Decimal}

theorem bestExcess_loop (l : List ((Decimal × Decimal) × Nat)) (best : Option (Nat × Decimal)) :
    let found := l.foldl (fun best e =>
      let excess := lib.sub e.1.1 e.1.2
      if lib.isPositive excess ∧ (best.all fun b => lib.greaterThanOrEqual excess b.2) then
        some (e.2, excess)
      else best) best
    (∀ b, found = some b → best = some b ∨ ∃ e ∈ l, e.2 = b.1 ∧ e.1.2.val < e.1.1.val) ∧
      (found = none → best = none ∧ ∀ e ∈ l, e.1.1.val ≤ e.1.2.val) := by
  induction l generalizing best with
  | nil => simp
  | cons e l ih =>
    rw [List.foldl_cons]
    set excess := lib.sub e.1.1 e.1.2
    set next := if lib.isPositive excess ∧
      (best.all fun b => lib.greaterThanOrEqual excess b.2) then
      some (e.2, excess) else best with hnext
    have hpos : lib.isPositive excess = true ↔ e.1.2.val < e.1.1.val := by
      rw [lib.isPositive_iff, lib.val_sub, sub_pos]
    obtain ⟨hsome, hnone⟩ := ih next
    constructor
    · intro b hb
      rcases hsome b hb with h | ⟨e', he', h⟩
      · rw [hnext] at h
        split at h
        · rename_i hover
          cases h
          exact .inr ⟨e, List.mem_cons_self, rfl, hpos.mp hover.1⟩
        · exact .inl h
      · exact .inr ⟨e', List.mem_cons_of_mem _ he', h⟩
    · intro h
      obtain ⟨hstep, hrest⟩ := hnone h
      rw [hnext] at hstep
      split at hstep
      · cases hstep
      · rename_i hover
        subst hstep
        refine ⟨rfl, List.forall_mem_cons.mpr ⟨?_, hrest⟩⟩
        by_contra hlt
        exact hover ⟨hpos.mpr (not_le.mp hlt), rfl⟩

theorem bestExcess_some {b : Nat × Decimal} (h : bestExcess lib first exact = some b) :
    ∃ s x, first[b.1]? = some s ∧ exact[b.1]? = some x ∧ x.val < s.val := by
  rcases (bestExcess_loop _ _).1 b h with h | ⟨e, he, hindex, hlt⟩
  · cases h
  · have hget := List.mem_zipIdx_iff_getElem?.mp he
    rw [hindex, List.getElem?_zip_eq_some] at hget
    exact ⟨_, _, hget.1, hget.2, hlt⟩

theorem bestExcess_none (h : bestExcess lib first exact = none) :
    ∀ p ∈ first.zip exact, p.1.val ≤ p.2.val := by
  intro p hp
  obtain ⟨i, hi⟩ := List.getElem?_of_mem hp
  exact ((bestExcess_loop _ _).2 h).2 (p, i) (List.mem_zipIdx_iff_getElem?.mpr hi)

end Best

/-! ## The loop -/

/-- A share is whole units, not negative and at most a unit away from its exact value. -/
structure Near (unit : ℚ) (x s : Decimal) : Prop where
  whole : ∃ j : Int, 0 ≤ j ∧ s.val = j * unit
  close : |s.val - x.val| ≤ unit

/-- What the loop keeps, for an amount: its shares near the exact ones, and the sum. -/
structure Kept (unit amount : ℚ) (exact first : List Decimal) (last : Decimal) : Prop where
  near : List.Forall₂ (Near unit) exact.dropLast first
  sum : last.val = amount - (first.map Decimal.val).sum

theorem Near.sub_unit {u x s : Decimal} (hu : u.val = unit) (hunit : 0 < unit)
    (hx : 0 ≤ x.val) (h : Near unit x s) (hover : x.val < s.val) : Near unit x (lib.sub s u) := by
  obtain ⟨j, hj, hs⟩ := h.whole
  have hj1 : 1 ≤ j := by
    by_contra hlt
    have : j = 0 := by omega
    rw [hs, this] at hover
    simp at hover
    linarith
  refine ⟨⟨j - 1, by omega, ?_⟩, ?_⟩
  · rw [lib.val_sub, hs, hu]
    push_cast
    ring
  · have := (abs_le.mp h.close).2
    rw [lib.val_sub, hu]
    exact abs_le.mpr ⟨by linarith, by linarith⟩

theorem takeBack_spec {places : Nat} {unit amount : ℚ} {exact : List Decimal}
    (hu : (⟨1, -places⟩ : Decimal).val = unit) (hunit : 0 < unit) (hexact : ∀ x ∈ exact, 0 ≤ x.val)
    (hover : ∀ {first last}, Kept unit amount exact first last → last.val < 0 →
    bestExcess lib first exact ≠ none)
    (first : List Decimal) (last : Decimal) (h : Kept unit amount exact first last) :
    ∃ first' last', takeBack lib places exact first last = (first' ++ [last'], false) ∧
      Kept unit amount exact first' last' ∧ 0 ≤ last'.val := by
  induction first, last using takeBack.induct lib places exact with
  | case1 first last hneg hbest => exact absurd hbest (hover h ((lib.isNegative_iff _).mp hneg))
  | case2 first last hneg i excess hbest ih =>
    rw [takeBack, dif_pos hneg, hbest]
    obtain ⟨s, x, hs, hx, hlt⟩ := bestExcess_some hbest
    refine ih ⟨?_, ?_⟩
    · refine List.forall₂_iff_get.mpr
        ⟨by rw [List.length_modify, h.near.length_eq], fun j hj hj' => ?_⟩
      have hnear := h.near.get hj (by simpa using hj')
      simp only [List.get_eq_getElem, List.getElem_modify]
      split
      · subst j
        have hmem := List.mem_of_mem_dropLast (List.getElem_mem hj)
        refine hnear.sub_unit hu hunit (hexact _ hmem) ?_
        rw [List.getElem_dropLast, (List.getElem?_eq_some_iff.mp hs).2,
          (List.getElem?_eq_some_iff.mp hx).2]
        exact hlt
      · exact hnear
    · have hi := (List.getElem?_eq_some_iff.mp hs).1
      have hsum := sum_map_modify (f := Decimal.val) (g := (lib.sub · ⟨1, -places⟩)) (c := -unit)
        (fun d => by rw [lib.val_sub, hu, sub_eq_add_neg]) hi
      rw [lib.val_add, hu, hsum, h.sum]
      ring
  | case3 first last hneg =>
    refine ⟨first, last, by rw [takeBack, dif_neg hneg], h, ?_⟩
    rw [lib.isNegative_iff] at hneg
    exact not_lt.mp hneg

/-! ## The exact shares -/

section Exact

variable {amount : Decimal} {ratios : List Decimal}

theorem val_foldl_add (l : List Decimal) (d : Decimal) :
    (l.foldl lib.add d).val = d.val + (l.map Decimal.val).sum := by
  induction l generalizing d with
  | nil => simp
  | cons x l ih => simp [ih, add_assoc]

theorem val_sum (lib : Decimal.Arithmetic) (l : List Decimal) :
    (l.foldl lib.add lib.zero).val = (l.map Decimal.val).sum := by
  rw [val_foldl_add, lib.val_zero, zero_add]

def roundedShare (lib : Decimal.Arithmetic) (amount : Decimal) (ratios : List Decimal)
    (r : Decimal) : Decimal :=
  lib.divRound (lib.mul amount r) (ratios.foldl lib.add lib.zero) halfUpLastRemainderPrecision

theorem roundedShares_eq (amount : Decimal) (ratios : List Decimal) :
    roundedShares lib amount ratios = ratios.map (roundedShare lib amount ratios) := rfl

theorem val_roundedShare (hratios : ValidRatios ratios) (amount r : Decimal) :
    (roundedShare lib amount ratios r).val =
      roundHalfAway (amount.val * r.val / (ratios.map Decimal.val).sum * 10 ^ (28 : Int)) *
        10 ^ (-28 : Int) := by
  have hsum := hratios.sum_pos.ne'
  rw [← val_sum lib] at hsum
  rw [roundedShare, lib.val_divRound _ _ _ hsum, lib.val_mul, val_sum]
  rfl

theorem val_roundedShare_neg (hratios : ValidRatios ratios) (amount r : Decimal) :
    (roundedShare lib (lib.neg amount) ratios r).val = -(roundedShare lib amount ratios r).val := by
  rw [val_roundedShare hratios, val_roundedShare hratios, lib.val_neg, neg_mul, neg_div, neg_mul,
    roundHalfAway_neg, Int.cast_neg, neg_mul]

theorem roundedShare_nonneg (lib : Decimal.Arithmetic) (h0 : 0 ≤ amount.val)
    (hratios : ValidRatios ratios) :
    ∀ x ∈ roundedShares lib amount ratios, 0 ≤ x.val := by
  intro x hx
  rw [roundedShares_eq] at hx
  obtain ⟨r, hr, rfl⟩ := List.mem_map.mp hx
  have hshare := div_nonneg (mul_nonneg h0 (hratios.nonneg r hr)) hratios.sum_pos.le
  have hround := roundHalfAway_nonneg (mul_nonneg hshare (ten_zpow_pos 28).le)
  rw [val_roundedShare hratios]
  exact mul_nonneg (by exact_mod_cast hround) (ten_zpow_pos _).le

/-- All exact shares but the last are more than the amount by half of the last place each, at
most. -/
theorem sum_roundedShares_le (lib : Decimal.Arithmetic) (h0 : 0 ≤ amount.val)
    (hratios : ValidRatios ratios) :
    ((roundedShares lib amount ratios).dropLast.map Decimal.val).sum ≤
      amount.val + ratios.length * (10 ^ (-28 : Int) / 2) := by
  have hsum := hratios.sum_pos
  set sum := (ratios.map Decimal.val).sum with hdef
  have hpart : (ratios.dropLast.map Decimal.val).sum ≤ sum :=
    ((List.dropLast_sublist ratios).map Decimal.val).sum_le_sum (by simpa using hratios.nonneg)
  have hlength : (ratios.dropLast.length : ℚ) ≤ ratios.length := by
    exact_mod_cast (List.dropLast_sublist ratios).length_le
  calc ((roundedShares lib amount ratios).dropLast.map Decimal.val).sum
      = (ratios.dropLast.map fun r => (roundedShare lib amount ratios r).val).sum := by
        rw [roundedShares_eq, ← List.map_dropLast, List.map_map]
        rfl
    _ ≤ (ratios.dropLast.map fun r => amount.val / sum * r.val + 10 ^ (-28 : Int) / 2).sum := by
        refine List.sum_le_sum fun r _ => ?_
        have hround := (abs_le.mp (Decimal.abs_round_sub_le (x := amount.val * r.val / sum) 28)).2
        have hcomm : amount.val / sum * r.val = amount.val * r.val / sum := div_mul_eq_mul_div _ _ _
        rw [val_roundedShare hratios, ← hdef, hcomm]
        linarith
    _ = amount.val / sum * (ratios.dropLast.map Decimal.val).sum +
          ratios.dropLast.length * (10 ^ (-28 : Int) / 2) := by
        rw [List.sum_map_add, List.sum_map_mul_left, List.map_const', List.sum_replicate,
          nsmul_eq_mul]
    _ ≤ amount.val + ratios.length * (10 ^ (-28 : Int) / 2) := by
        have h1 := mul_le_mul_of_nonneg_left hpart (div_nonneg h0 hsum.le)
        have h2 := mul_le_mul_of_nonneg_right hlength
          (by positivity : (0 : ℚ) ≤ 10 ^ (-28 : Int) / 2)
        rw [div_mul_cancel₀ _ hsum.ne'] at h1
        linarith

end Exact

/-! ## No break -/

theorem exists_sum_whole {exact first : List Decimal} (h : List.Forall₂ (Near unit) exact first) :
    ∃ j : Int, (first.map Decimal.val).sum = j * unit := by
  induction h with
  | nil => exact ⟨0, by simp⟩
  | cons hnear _ ih =>
    obtain ⟨i, -, hi⟩ := hnear.whole
    obtain ⟨j, hj⟩ := ih
    exact ⟨i + j, by rw [List.map_cons, List.sum_cons, hi, hj]; push_cast; ring⟩

theorem exists_near {exact first : List Decimal} (h : List.Forall₂ (Near unit) exact first) :
    ∀ s ∈ first, ∃ x, Near unit x s := by
  induction h with
  | nil => simp
  | cons hnear _ ih => exact List.forall_mem_cons.mpr ⟨⟨_, hnear⟩, ih⟩

/-- As long as the last share is below zero, some share is over its exact value. -/
theorem bestExcess_ne_none {amount : Decimal} {ratios first : List Decimal}
    {last : Decimal} {k : Int} (h0 : 0 ≤ amount.val) (hratios : ValidRatios ratios)
    (hunit : 0 < unit) (hwhole : amount.val = k * unit)
    (hn : ratios.length * (10 ^ (-28 : Int) / 2) < unit)
    (h : Kept unit amount.val (roundedShares lib amount ratios) first last) (hneg : last.val < 0) :
    bestExcess lib first (roundedShares lib amount ratios) ≠ none := by
  intro hnone
  have hunder : (first.map Decimal.val).sum ≤
      ((roundedShares lib amount ratios).dropLast.map Decimal.val).sum := by
    refine List.Forall₂.sum_le_sum ?_
    rw [List.forall₂_map_left_iff, List.forall₂_map_right_iff]
    refine List.forall₂_iff_get.mpr ⟨h.near.length_eq.symm, fun i hi hi' => ?_⟩
    have hi'' : i < (roundedShares lib amount ratios).length := by
      have := hi'.trans_le (List.dropLast_sublist (roundedShares lib amount ratios)).length_le
      omega
    have hmem : (first[i], (roundedShares lib amount ratios)[i]) ∈ first.zip
      (roundedShares lib amount ratios) :=
      List.mem_iff_getElem.mpr ⟨i, by rw [List.length_zip]; omega, List.getElem_zip⟩
    have := bestExcess_none hnone _ hmem
    simpa using this
  obtain ⟨j, hj⟩ := exists_sum_whole h.near
  have hlast : last.val = (k - j : Int) * unit := by
    rw [h.sum, hj, hwhole]
    push_cast
    ring
  have hle := sum_roundedShares_le lib h0 hratios
  -- a whole number of units between minus one and zero
  have hlt : (-1 : ℚ) < (k - j : Int) := by
    refine lt_of_mul_lt_mul_right (a := unit) ?_ hunit.le
    rw [← hlast, h.sum]
    linarith
  have hlt' : ((k - j : Int) : ℚ) < 0 := by
    refine lt_of_mul_lt_mul_right (a := unit) ?_ hunit.le
    rw [← hlast, zero_mul]
    exact hneg
  have h1 : (-1 : Int) < k - j := by exact_mod_cast hlt
  have h2 : k - j < (0 : Int) := by exact_mod_cast hlt'
  omega

/-! ## The allocation -/

theorem precision_lt_unit {n p : Nat} (hp : p ≤ 28) (hn : n < 2 * 10 ^ (28 - p)) :
    (n : ℚ) * (10 ^ (-28 : Int) / 2) < 10 ^ (-(p : Int)) := by
  have hpow : (10 : ℚ) ^ (-(p : Int)) = 10 ^ (28 - p) * 10 ^ (-28 : Int) := by
    rw [← zpow_natCast, ← zpow_add₀ (by norm_num)]
    congr 1
    omega
  have hcast : (n : ℚ) < 2 * 10 ^ (28 - p) := by exact_mod_cast hn
  rw [hpow]
  linarith [mul_lt_mul_of_pos_right hcast (ten_zpow_pos (-28))]

theorem one_mul_unit (m : Money) : (⟨1, -m.currency.minorUnits⟩ : Decimal).val = m.unit := by
  simp [Decimal.val, unit]

variable {m : Money} {ratios : List Decimal} {k : Int}

theorem halfUpNonneg_spec (h0 : 0 ≤ m.amount.val) (hwhole : m.Whole k)
    (hratios : ValidRatios ratios) (hn : ratios.length < 2 * 10 ^ (28 - m.currency.minorUnits)) :
    ∃ first last, m.halfUpNonneg lib ratios = ((first ++ [last]).map (⟨·, m.currency⟩), false) ∧
      Kept m.unit m.amount.val (roundedShares lib m.amount ratios) first last ∧ 0 ≤ last.val := by
  have hunit := m.unit_pos
  have hplaces : m.currency.minorUnits ≤ 28 := m.currency.minorUnits_le.trans (by decide)
  have hexact := roundedShare_nonneg lib h0 hratios
  have hstart : Kept m.unit m.amount.val (roundedShares lib m.amount ratios)
      ((roundedShares lib m.amount ratios).dropLast.map (lib.round · m.currency.minorUnits))
      (lib.sub m.amount (((roundedShares lib m.amount ratios).dropLast.map
        (lib.round · m.currency.minorUnits)).foldl lib.add lib.zero)) := by
    refine ⟨?_, by rw [lib.val_sub, val_sum]⟩
    rw [List.forall₂_map_right_iff, List.forall₂_same]
    intro x hx
    have hx0 := hexact x (List.mem_of_mem_dropLast hx)
    refine ⟨⟨_, roundHalfAway_nonneg (mul_nonneg hx0 (ten_zpow_pos _).le), lib.val_round _ _⟩, ?_⟩
    have hround := Decimal.abs_round_sub_le (x := x.val) m.currency.minorUnits
    rw [lib.val_round]
    exact hround.trans (half_le_self hunit.le)
  obtain ⟨first, last, htake, hkept, hlast⟩ := takeBack_spec (one_mul_unit m) hunit hexact
    (fun hkept hneg => bestExcess_ne_none h0 hratios hunit hwhole (precision_lt_unit hplaces hn)
      hkept hneg) _ _ hstart
  exact ⟨first, last, by rw [halfUpNonneg, htake], hkept, hlast⟩

structure HalfUpParts (lib : Decimal.Arithmetic) (m : Money) (ratios : List Decimal)
    (parts : List Money) : Prop where
  length : parts.length = ratios.length
  sum : (parts.map fun part => part.amount.val).sum = m.amount.val
  currency : ∀ part ∈ parts, part.currency = m.currency
  whole : ∀ part ∈ parts, ∃ j, part.Whole j
  sign : ∀ part ∈ parts, SameSign part.amount.val m.amount.val
  close : List.Forall₂ (fun x part => |part.amount.val - x.val| ≤ m.unit)
    (roundedShares lib m.amount ratios).dropLast
    parts.dropLast

theorem Kept.halfUpParts {first : List Decimal} {last : Decimal} (hwhole : m.Whole k)
    (hratios : ratios ≠ [])
    (h : Kept m.unit m.amount.val (roundedShares lib m.amount ratios) first last)
    (hlast : 0 ≤ last.val) :
    HalfUpParts lib m ratios ((first ++ [last]).map (⟨·, m.currency⟩)) := by
  have hsum : ((first ++ [last]).map Decimal.val).sum = m.amount.val := by
    rw [List.map_append, List.sum_append, List.map_singleton, List.sum_singleton, h.sum]
    ring
  have hshares : ∀ d ∈ first ++ [last], 0 ≤ d.val ∧ ∃ j : Int, d.val = j * m.unit := by
    intro d hd
    rcases List.mem_append.mp hd with hfirst | hmem
    · obtain ⟨x, hnear⟩ := exists_near h.near d hfirst
      obtain ⟨j, hj, hd⟩ := hnear.whole
      exact ⟨hd ▸ mul_nonneg (by exact_mod_cast hj) m.unit_pos.le, j, hd⟩
    · obtain rfl := List.mem_singleton.mp hmem
      obtain ⟨j, hj⟩ := exists_sum_whole h.near
      exact ⟨hlast, k - j, by rw [h.sum, hj, hwhole]; push_cast; ring⟩
  refine ⟨?_, ?_, ?_, ?_, ?_, ?_⟩
  · have hlength := h.near.length_eq
    have hpos := List.length_pos_iff.mpr hratios
    rw [List.length_dropLast, roundedShares_eq, List.length_map] at hlength
    simp only [List.length_map, List.length_append, List.length_singleton]
    omega
  · rw [List.map_map, ← hsum]
    rfl
  · intro part hpart
    obtain ⟨d, -, rfl⟩ := List.mem_map.mp hpart
    rfl
  · intro part hpart
    obtain ⟨d, hd, rfl⟩ := List.mem_map.mp hpart
    exact (hshares d hd).2
  · intro part hpart
    obtain ⟨d, hd, rfl⟩ := List.mem_map.mp hpart
    rcases (hshares d hd).1.eq_or_lt with hzero | hpos
    · exact .inl hzero.symm
    · have hle :=
        List.single_le_sum (List.forall_mem_map.mpr fun d hd => (hshares d hd).1) _
          (List.mem_map_of_mem hd)
      exact .inr (mul_pos hpos (hpos.trans_le (hsum ▸ hle)))
  · rw [← List.map_dropLast, List.dropLast_concat, List.forall₂_map_right_iff]
    exact h.near.imp fun x s hnear => hnear.close

theorem HalfUpParts.neg {parts : List Money} (hratios : ValidRatios ratios)
    (h : HalfUpParts lib (m.neg lib) ratios parts) :
    HalfUpParts lib m ratios (parts.map (Money.neg lib)) := by
  refine ⟨by rw [List.length_map, h.length], ?_, ?_, ?_, ?_, ?_⟩
  · have hsum : (parts.map fun part => -part.amount.val).sum =
        -(parts.map fun part => part.amount.val).sum := by
      simpa using List.sum_map_mul_left parts (fun part => part.amount.val) (-1)
    rw [List.map_map, ← neg_neg m.amount.val, ← lib.val_neg, ← show _ =
      (lib.neg m.amount).val from h.sum, ← hsum]
    simp [Function.comp_def, Money.neg]
  · simpa [Money.neg] using h.currency
  · intro part hpart
    obtain ⟨p, hp, rfl⟩ := List.mem_map.mp hpart
    obtain ⟨j, hj⟩ := h.whole p hp
    refine ⟨-j, ?_⟩
    rw [Whole, Money.neg, lib.val_neg, show p.amount.val = _ from hj]
    push_cast
    ring_nf
    rfl
  · intro part hpart
    obtain ⟨p, hp, rfl⟩ := List.mem_map.mp hpart
    have hsign := h.sign p hp
    simpa [SameSign, Money.neg] using hsign
  · have hclose := h.close
    rw [roundedShares_eq, ← List.map_dropLast, List.forall₂_map_left_iff] at hclose ⊢
    rw [← List.map_dropLast, List.forall₂_map_right_iff]
    refine hclose.imp fun r p hp => ?_
    rw [show (m.neg lib).amount = (lib.neg m.amount) from rfl, val_roundedShare_neg hratios,
      ← abs_neg] at hp
    rw [Money.neg, lib.val_neg]
    refine (congrArg abs ?_).trans_le hp
    ring

/-- Half up, the rest to the last, for so many ratios: the loop ends without its `break`; the parts
are whole minor units with the sign of the amount and add up to it, and each but the last is at most
a unit away from its exact share. The allocation is these parts, unless the amount is refused. -/
theorem allocateBy_halfUpLastRemainder (lib : Decimal.Arithmetic) (m : Money)
    (ratios : List Decimal) {k : Int} (hwhole : m.Whole k) (hratios : ValidRatios ratios)
    (hn : ratios.length < 2 * 10 ^ (28 - m.currency.minorUnits)) :
    ∃ parts, m.halfUpLastRemainder lib ratios = (parts, false) ∧
      m.allocateBy lib .halfUpLastRemainder ratios = (m.minorBig lib).map (fun _ => parts) ∧
      HalfUpParts lib m ratios parts := by
  obtain ⟨parts, hparts, hspec⟩ : ∃ parts, m.halfUpLastRemainder lib ratios = (parts, false) ∧
      HalfUpParts lib m ratios parts := by
    have hne : ratios ≠ [] := by
      rintro rfl
      obtain ⟨r, hr, -⟩ := hratios.pos
      cases hr
    by_cases hneg : lib.isNegative m.amount
    · have hval := (lib.isNegative_iff _).mp hneg
      have hwhole' : (m.neg lib).Whole (-k) := by
        rw [Whole, Money.neg, lib.val_neg, show m.amount.val = _ from hwhole]
        push_cast
        exact (neg_mul _ _).symm
      have h0 : 0 ≤ (m.neg lib).amount.val := by
        rw [Money.neg, lib.val_neg]
        linarith
      obtain ⟨first, last, hrun, hkept, hlast⟩ := halfUpNonneg_spec h0 hwhole' hratios hn
      exact ⟨_, by rw [halfUpLastRemainder, if_pos hneg, hrun], 
        (hkept.halfUpParts hwhole' hne hlast).neg hratios⟩
    · have h0 : 0 ≤ m.amount.val := not_lt.mp fun h => hneg ((lib.isNegative_iff _).mpr h)
      obtain ⟨first, last, hrun, hkept, hlast⟩ := halfUpNonneg_spec h0 hwhole hratios hn
      exact ⟨_, by rw [halfUpLastRemainder, if_neg hneg, hrun], hkept.halfUpParts hwhole hne hlast⟩
  refine ⟨parts, hparts, ?_, hspec⟩
  cases hbig : m.minorBig lib with
  | error e => rw [allocateBy_of_error hbig]; rfl
  | ok minor => rw [allocateBy_of_valid hbig hratios, Money.parts, hparts]; rfl

theorem allocateBy_halfUpLastRemainder_six :
    ∃ parts, (⟨⟨3, -2⟩, eur⟩ : Money).halfUpLastRemainder Decimal.exact
      (List.replicate 6 ⟨1, 0⟩) = (parts, false) ∧ parts.length = 6 := by
  have hratios : ValidRatios (List.replicate 6 ⟨1, 0⟩) := by
    constructor <;> simp [Decimal.val]
  obtain ⟨parts, hparts, -, hspec⟩ := allocateBy_halfUpLastRemainder Decimal.exact ⟨⟨3, -2⟩, eur⟩
    (List.replicate 6 ⟨1, 0⟩) (k := 3) (by norm_num [Whole, unit, Decimal.val, eur]) hratios
    (by decide)
  exact ⟨parts, hparts, hspec.length⟩

end GoAtlas.Money
