import GoAtlas.Filter.Options

/-!
# Decimal literals are those of Decimal128

`boundedDecimal` looks at the digits of the coefficient as text. The text without trailing zeros is
that of the one coefficient that has none, and its length and exponent tell whether some coefficient
of 34 digits with an exponent in the range has the same value.
-/

namespace GoAtlas.Filter

open GoAtlas.Lib

/-! ## Digits -/

theorem digits_eq (n : Nat) : digits n = Nat.toDigits 10 n := by
  rw [digits, Nat.toString_eq_repr, Nat.repr_eq_ofList_toDigits, String.toList_ofList]

theorem digits_of_ten_le {n : Nat} (h : 10 ≤ n) :
    digits n = digits (n / 10) ++ [(n % 10).digitChar] := by
  rw [digits_eq, digits_eq]
  exact Nat.toDigits_of_base_le (by decide) h

theorem digits_of_lt_ten {n : Nat} (h : n < 10) : digits n = [n.digitChar] := by
  rw [digits_eq]
  exact Nat.toDigits_of_lt_base h

theorem length_digits (n : Nat) : (digits n).length = Nat.log 10 n + 1 := by
  induction n using Nat.strong_induction_on with
  | h n ih =>
    rcases Nat.lt_or_ge n 10 with h | h
    · rw [digits_of_lt_ten h, Nat.log_of_lt h]
      rfl
    · rw [digits_of_ten_le h, List.length_append, ih (n / 10) (by omega), Nat.log_of_one_lt_of_le
        (by decide) h]
      rfl

def trimmed (s : List Char) : List Char := (s.reverse.dropWhile (· == '0')).reverse

theorem digitChar_ne_zero {k : Nat} (h0 : k ≠ 0) (h : k < 10) : (k.digitChar == '0') = false := by
  have hall : ∀ k : Fin 10, k.val ≠ 0 → (k.val.digitChar == '0') = false := by decide
  exact hall ⟨k, h⟩ h0

theorem trimmed_digits {n : Nat} (h : ¬ 10 ∣ n) : trimmed (digits n) = digits n := by
  have hmod : n % 10 ≠ 0 := fun h0 => h (Nat.dvd_of_mod_eq_zero h0)
  have hlast : ∃ s, digits n = s ++ [(n % 10).digitChar] := by
    rcases Nat.lt_or_ge n 10 with hlt | hge
    · exact ⟨[], by rw [digits_of_lt_ten hlt, Nat.mod_eq_of_lt hlt]; rfl⟩
    · exact ⟨_, digits_of_ten_le hge⟩
  obtain ⟨s, hs⟩ := hlast
  rw [hs, trimmed, List.reverse_concat, List.dropWhile_cons_of_neg, List.reverse_cons,
    List.reverse_reverse]
  rw [digitChar_ne_zero hmod (Nat.mod_lt _ (by decide))]
  exact Bool.false_ne_true

theorem exists_trimmed {n : Nat} (hn : 0 < n) :
    ∃ m t, n = m * 10 ^ t ∧ ¬ 10 ∣ m ∧ trimmed (digits n) = digits m ∧ (digits n).length =
      (digits m).length + t := by
  induction n using Nat.strong_induction_on with
  | h n ih =>
    by_cases hdvd : 10 ∣ n
    · obtain ⟨k, rfl⟩ := hdvd
      have hdiv : 10 * k / 10 = k := Nat.mul_div_cancel_left k (by decide)
      have hdigits : digits (10 * k) = digits k ++ ['0'] := by
        rw [digits_of_ten_le (by omega), hdiv, Nat.mul_mod_right]
        rfl
      obtain ⟨m, t, hk, hm, htrim, hlength⟩ := ih k (by omega) (by omega)
      refine ⟨m, t + 1, by rw [hk, pow_succ]; ring, hm, ?_, ?_⟩
      · rw [hdigits, trimmed, List.reverse_concat, List.dropWhile_cons_of_pos rfl]
        exact htrim
      · rw [hdigits, List.length_append, hlength]
        rfl
    · exact ⟨n, 0, by simp, hdvd, trimmed_digits hdvd, rfl⟩

/-! ## The normalized decimal -/

/-- The digits and the exponent of `normalizeDecimal` are those of the decimal without trailing
zeros. -/
theorem normalizeDecimal_spec {d : Decimal} (hd : d.coefficient ≠ 0)
    (hbits : bitLen d.coefficient.natAbs ≤ maxCoefficientBits) :
    ∃ r : Decimal, r.val = d.val ∧ ¬ (10 : Int) ∣ r.coefficient ∧
      normalizeDecimal d = some (r.digitCount, r.exponent) ∧
      d.exponent ≤ r.exponent ∧ d.coefficient =
        r.coefficient * 10 ^ (r.exponent - d.exponent).toNat := by
  obtain ⟨m, t, hn, hm, htrim, hlength⟩ := exists_trimmed (Int.natAbs_pos.mpr hd)
  have hsign : d.coefficient = d.coefficient.sign * m * 10 ^ t := by
    conv_lhs => rw [← Int.sign_mul_natAbs d.coefficient, hn]
    push_cast
    ring
  have habs : (d.coefficient.sign * m).natAbs = m := by
    rw [Int.natAbs_mul, Int.natAbs_sign_of_ne_zero hd, one_mul, Int.natAbs_natCast]
  have hshift : (d.exponent + t - d.exponent).toNat = t := by omega
  refine ⟨⟨d.coefficient.sign * m, d.exponent + t⟩, ?_, ?_,
    ?_, by simp, by rw [hshift]; exact hsign⟩
  · rw [Decimal.val, Decimal.val, zpow_add₀ (by norm_num), zpow_natCast]
    conv_rhs => rw [hsign]
    push_cast
    ring
  · rw [← Int.natAbs_dvd_natAbs, habs]
    exact hm
  · rw [normalizeDecimal, if_neg hd, if_neg (by omega)]
    have hdigits : ((digits d.coefficient.natAbs).reverse.dropWhile (· == '0')).reverse =
      digits m := htrim
    simp only [hdigits, hlength, Decimal.digitCount, habs, length_digits]
    congr 3
    omega

/-- Some coefficient of 34 digits and an exponent in the range have the value. -/
def IsDecimal128 (x : ℚ) : Prop :=
  ∃ c e : Int, |c| < 10 ^ 34 ∧ decimalMinExp ≤ e ∧ e ≤ decimalMaxExp ∧ x = c * 10 ^ e

/-- The bounds on the digits and the exponent of a decimal without trailing zeros. -/
theorem isDecimal128_iff {r : Decimal} (hr : ¬ (10 : Int) ∣ r.coefficient) :
    IsDecimal128 r.val ↔ r.digitCount ≤ decimalMaxDigits ∧ decimalMinExp ≤ r.exponent ∧
      r.exponent ≤ decimalMaxExp + decimalMaxDigits - r.digitCount := by
  have hc : r.coefficient.natAbs ≠ 0 := fun h => hr (by simp [Int.natAbs_eq_zero.mp h])
  have hval : r.val ≠ 0 :=
    mul_ne_zero (by exact_mod_cast Int.natAbs_ne_zero.mp hc) (ten_zpow_pos _).ne'
  have hsize := Decimal.lt_digitCount_iff hval 6145
  have hdigits : r.digitCount ≤ 34 ↔ |r.coefficient| < 10 ^ 34 := by
    rw [Decimal.digitCount, Nat.succ_le_iff, Nat.log_lt_iff_lt_pow (by decide) hc,
      Int.abs_eq_natAbs]
    exact_mod_cast Iff.rfl
  have hscale : ∀ k : Int, |(k : ℚ) * 10 ^ decimalMaxExp| < 10 ^ 6145 ↔ |k| < 10 ^ 34 := by
    intro k
    have hpow : (10 : ℚ) ^ 6145 = 10 ^ 34 * 10 ^ decimalMaxExp := by
      rw [decimalMaxExp, ← zpow_natCast, ← zpow_natCast, ← zpow_add₀ (by norm_num)]
      norm_num
    rw [abs_mul, abs_of_pos (ten_zpow_pos _), hpow, mul_lt_mul_iff_left₀ (ten_zpow_pos _)]
    exact_mod_cast Iff.rfl
  constructor
  · rintro ⟨c, e, hlt, hlo, hhi, hx⟩
    -- the other coefficient is this one with zeros
    have hx' : r.val = (⟨c, e⟩ : Decimal).val := hx
    have hle : e ≤ r.exponent := not_lt.mp fun h => hr (Decimal.dvd_of_lt_exponent hx' h)
    have hcoef : c = r.scaledTo e := by
      have h := hx.symm.trans (Decimal.scaledTo_mul hle).symm
      exact_mod_cast mul_right_cancel₀ (ten_zpow_pos e).ne' h
    have hbound : |r.val| < 10 ^ 6145 := by
      refine lt_of_le_of_lt ?_ ((hscale c).mpr hlt)
      rw [hx, abs_mul, abs_mul, abs_of_pos (ten_zpow_pos _), abs_of_pos (ten_zpow_pos _)]
      exact mul_le_mul_of_nonneg_left (zpow_le_zpow_right₀ (by norm_num) hhi) (abs_nonneg _)
    have hcoefle : |r.coefficient| ≤ |c| := by
      rw [hcoef, Decimal.scaledTo, abs_mul]
      exact le_mul_of_one_le_right (abs_nonneg _)
        (le_abs_self _ |>.trans' (by exact_mod_cast Nat.one_le_pow _ _ (by decide)))
    have hsmall := hsize.not.mpr (not_le.mpr hbound)
    have h34 := hdigits.mpr (hcoefle.trans_lt hlt)
    simp only [decimalMaxDigits, decimalMaxExp] at *
    omega
  · rintro ⟨h34, hlo, hhi⟩
    by_cases hle : r.exponent ≤ decimalMaxExp
    · exact ⟨r.coefficient, r.exponent, hdigits.mp h34, hlo, hle, rfl⟩
    · refine ⟨r.scaledTo decimalMaxExp, decimalMaxExp,
        ?_, by decide, le_rfl, (Decimal.scaledTo_mul (by omega)).symm⟩
      rw [← hscale, Decimal.scaledTo_mul (by omega)]
      refine not_le.mp (hsize.not.mp ?_)
      simp only [decimalMaxDigits, decimalMaxExp] at *
      omega

theorem boundedDecimal_spec {d : Decimal}
    (hbits : bitLen d.coefficient.natAbs ≤ maxCoefficientBits) :
    ∃ r : Decimal, r.val = d.val ∧ r.Canonical ∧
      (IsDecimal128 d.val ∧ boundedDecimal d = .ok r ∨ ¬ IsDecimal128 d.val ∧
      ∃ e, boundedDecimal d = .error e) := by
  by_cases hd : d.coefficient = 0
  · have hval : d.val = 0 := by simp [Decimal.val, hd]
    refine ⟨⟨0, 0⟩, by rw [hval]; simp [Decimal.val], .inl rfl, .inl ⟨?_, ?_⟩⟩
    · exact ⟨0, 0, by norm_num, by decide, by decide, by simp [hval]⟩
    · rw [boundedDecimal, normalizeDecimal, if_pos hd]
      rfl
  · obtain ⟨r, hval, hdvd, hnormal, hle, hcoef⟩ := normalizeDecimal_spec hd hbits
    refine ⟨r, hval, .inr hdvd, ?_⟩
    rw [← hval, isDecimal128_iff hdvd, boundedDecimal, hnormal]
    have hpos : r.digitCount ≠ 0 := Nat.succ_ne_zero _
    dsimp only
    rw [if_neg hpos]
    by_cases hbound : decimalMaxDigits < r.digitCount ∨ r.exponent < decimalMinExp ∨
        decimalMaxExp + decimalMaxDigits - r.digitCount < r.exponent
    · exact .inr ⟨by omega, _, if_pos hbound⟩
    · refine .inl ⟨by omega, ?_⟩
      rw [if_neg hbound]
      have hquot : (if 0 < r.exponent - d.exponent then
          d.coefficient.tdiv (10 ^ (r.exponent - d.exponent).toNat)
          else d.coefficient) = r.coefficient := by
        split
        · rw [hcoef]
          exact Int.mul_tdiv_cancel _ (by positivity)
        · have hzero : (r.exponent - d.exponent).toNat = 0 := by omega
          rw [hcoef, hzero, pow_zero, mul_one]
      rw [hquot]

theorem bitLen_le {r : Decimal} (hr : r.Canonical) (h : IsDecimal128 r.val) :
    bitLen r.coefficient.natAbs ≤ maxCoefficientBits := by
  rcases hr with rfl | hdvd
  · decide
  · have hc : r.coefficient.natAbs ≠ 0 := fun h => hdvd (by simp [Int.natAbs_eq_zero.mp h])
    have h34 := ((isDecimal128_iff hdvd).mp h).1
    rw [Decimal.digitCount, decimalMaxDigits, Nat.succ_le_iff, Nat.log_lt_iff_lt_pow (by decide) hc]
      at h34
    have hlog := (Nat.log2_lt hc).mpr (h34.trans_le (by norm_num : 10 ^ 34 ≤ 2 ^ 113))
    rw [bitLen, if_neg hc, maxCoefficientBits]
    omega

/-- For a coefficient of up to 4096 bits: `boundedDecimal` succeeds exactly on the values of
Decimal128, with the same value in canonical form; results of one value are the same pair; and it
leaves a result as it is. -/
theorem boundedDecimal_exact (d : Decimal)
    (hbits : bitLen d.coefficient.natAbs ≤ maxCoefficientBits) :
    ((∃ r, boundedDecimal d = .ok r) ↔ IsDecimal128 d.val) ∧
    ∀ r, boundedDecimal d = .ok r → r.val = d.val ∧ r.Canonical ∧ boundedDecimal r = .ok r ∧
      ∀ d' r', bitLen d'.coefficient.natAbs ≤ maxCoefficientBits → boundedDecimal d' = .ok r' →
        (r = r' ↔ r.val = r'.val) := by
  have hok : ∀ {d r : Decimal}, bitLen d.coefficient.natAbs ≤ maxCoefficientBits →
    boundedDecimal d = .ok r →
      IsDecimal128 d.val ∧ r.val = d.val ∧ r.Canonical := by
    intro d r hbits h
    obtain ⟨r', hval, hcanonical, ⟨h128, heq⟩ | ⟨-, e, heq⟩⟩ := boundedDecimal_spec hbits
    · rw [h] at heq
      cases heq
      exact ⟨h128, hval, hcanonical⟩
    · rw [h] at heq
      cases heq
  refine ⟨⟨fun ⟨r, h⟩ => (hok hbits h).1, fun h => ?_⟩, fun r h => ?_⟩
  · obtain ⟨r, -, -, ⟨-, heq⟩ | ⟨hnot, -⟩⟩ := boundedDecimal_spec hbits
    · exact ⟨r, heq⟩
    · exact absurd h hnot
  · obtain ⟨h128, hval, hcanonical⟩ := hok hbits h
    rw [← hval] at h128
    refine ⟨hval, hcanonical, ?_,
      fun d' r' hbits' h' => ⟨congrArg _, hcanonical.eq (hok hbits' h').2.2⟩⟩
    obtain ⟨r', hval', hcanonical', ⟨-, heq⟩ | ⟨hnot, -⟩⟩ :=
      boundedDecimal_spec (bitLen_le hcanonical h128)
    · rw [heq, hcanonical'.eq hcanonical hval']
    · exact absurd h128 hnot

theorem boundedDecimal_exact_trailing :
    ∃ r, boundedDecimal ⟨-1200, 2⟩ = .ok r ∧ r.val = (⟨-1200, 2⟩ : Decimal).val := by
  obtain ⟨hiff, hvalue⟩ := boundedDecimal_exact ⟨-1200, 2⟩ (by decide)
  obtain ⟨r, hr⟩ := hiff.mpr ⟨-1200, 2, by norm_num, by decide, by decide, rfl⟩
  exact ⟨r, hr, (hvalue r hr).1⟩

end GoAtlas.Filter
