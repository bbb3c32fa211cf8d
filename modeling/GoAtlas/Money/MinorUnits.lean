import GoAtlas.Money.Money

/-!
# The range of amounts

`minorBig` accepts an amount by the number of its digits, `MinorUnits` by the range of 64 bits.
Nineteen digits reach farther than 64 bits, and `AllocateBy` asks for the digits only: the amounts
between the two bounds have no minor units in 64 bits and are allocated. Where the package counts
the digits of a coefficient right, these are the amounts below `10 ^ 19` minor units.
-/

namespace GoAtlas.Money

open GoAtlas.Lib

variable {lib : Decimal.Arithmetic} {m : Money} {k : Int}

theorem whole_iff :
    m.Whole k ↔ m.amount.val * 10 ^ (m.currency.minorUnits : Int) = k := by
  rw [Whole, unit, zpow_neg, eq_mul_inv_iff_mul_eq₀ (ten_zpow_pos _).ne']

theorem Whole.unique {j k : Int} (hj : m.Whole j) (hk : m.Whole k) : j = k := by
  exact_mod_cast (whole_iff.mp hj).symm.trans (whole_iff.mp hk)

theorem whole_zero_iff : m.Whole 0 ↔ m.amount.val = 0 := by
  simp [Whole]

theorem isRounded_iff : m.isRounded lib = true ↔ ∃ k, m.Whole k := lib.equal_truncate_iff

/-- The whole amounts of a currency that is set, if they are zero or of few digits. -/
theorem minorBig_ok_iff :
    m.minorBig lib = .ok k ↔ m.currency.isZero = false ∧ m.Whole k ∧
      (k ≠ 0 → m.minorDigits lib ≤ maxMinorDigits) := by
  unfold minorBig
  by_cases hcur : m.currency.isZero = true
  · simp [hcur]
  have hset : m.currency.isZero = false := by simpa using hcur
  rw [if_neg hcur]
  by_cases hzero : lib.isZero m.amount = true
  · have hwhole : m.Whole 0 := whole_zero_iff.mpr ((lib.isZero_iff _).mp hzero)
    rw [if_pos hzero]
    constructor
    · rintro ⟨⟩
      exact ⟨hset, hwhole, fun h => absurd rfl h⟩
    · rintro ⟨-, hk, -⟩
      rw [hk.unique hwhole]
  have hne : ∀ {k : Int}, m.Whole k → k ≠ 0 := by
    rintro _ hk rfl
    exact hzero ((lib.isZero_iff _).mpr (whole_zero_iff.mp hk))
  rw [if_neg hzero]
  by_cases hmany : maxMinorDigits < m.minorDigits lib
  · rw [if_pos hmany]
    simp only [reduceCtorEq, false_iff]
    rintro ⟨-, hk, hle⟩
    exact absurd hmany (hle (hne hk)).not_gt
  rw [if_neg hmany]
  by_cases hrounded : m.isRounded lib = true
  · obtain ⟨j, hj⟩ := isRounded_iff.mp hrounded
    simp only [hrounded, Bool.not_true, Bool.false_eq_true, if_false,
      lib.bigInt_of_val ((lib.val_shift _ _).trans (whole_iff.mp hj))]
    constructor
    · rintro ⟨⟩
      exact ⟨hset, hj, fun _ => not_lt.mp hmany⟩
    · rintro ⟨-, hk, -⟩
      rw [hj.unique hk]
  · simp only [hrounded, Bool.not_false, if_true, reduceCtorEq, false_iff]
    rintro ⟨-, hk, -⟩
    exact hrounded (isRounded_iff.mpr ⟨k, hk⟩)

/-! ## The digits -/

theorem Whole.val_eq (h : m.Whole k) :
    (⟨m.amount.coefficient, m.amount.exponent + m.currency.minorUnits⟩ : Decimal).val = k := by
  rw [← whole_iff.mp h, Decimal.val, Decimal.val, zpow_add₀ (by norm_num), mul_assoc]

/-- Minor units of 64 bits are counted as nineteen digits at most: they are far from `10 ^ 19`. -/
theorem minorDigits_le (h : m.Whole k) (hk : k ≠ 0) (hint : IsInt64 k) :
    m.minorDigits lib ≤ maxMinorDigits := by
  set s := m.amount.exponent + m.currency.minorUnits with hs
  have habs : |(m.amount.coefficient : ℚ)| * 10 ^ s = |(k : ℚ)| := by
    rw [← h.val_eq, Decimal.val, abs_mul, abs_of_pos (ten_zpow_pos _)]
  have hsmall : |(k : ℚ)| ≤ 95 / 100 * 10 ^ (19 : Int) := by
    have hle : |k| ≤ 2 ^ 63 := abs_le.mpr ⟨hint.1, hint.2.le⟩
    refine (by exact_mod_cast hle : |(k : ℚ)| ≤ 2 ^ 63).trans ?_
    norm_num
  have hsize : |(m.amount.coefficient : ℚ)| ≤ 95 / 100 * 10 ^ (19 - s) := by
    rw [zpow_sub₀ (by norm_num), mul_div_assoc', le_div_iff₀ (ten_zpow_pos s), habs]
    exact hsmall
  have hone : (1 : ℚ) ≤ |(m.amount.coefficient : ℚ)| := by
    have hne : m.amount.coefficient ≠ 0 := by
      intro h0
      rw [h0, Int.cast_zero, abs_zero, zero_mul, eq_comm, abs_eq_zero, Int.cast_eq_zero] at habs
      exact hk habs
    exact_mod_cast Int.one_le_abs hne
  -- one is at most 0.95 powers of ten, so the power is not a fraction
  have hpos : 0 < 19 - s := by
    by_contra hle
    have := zpow_le_one_of_nonpos₀ (by norm_num : (1 : ℚ) ≤ 10) (not_lt.mp hle)
    linarith
  obtain ⟨n, hn⟩ : ∃ n : Nat, 19 - s = n := ⟨(19 - s).toNat, by omega⟩
  have hdigits : lib.numDigits m.amount ≤ n := by
    refine lib.numDigits_le _ _ (by omega) ?_
    rw [hn, zpow_natCast] at hsize
    have : (100 : ℚ) * |(m.amount.coefficient : ℚ)| ≤ 95 * 10 ^ n := by linarith
    exact_mod_cast this
  rw [minorDigits, maxMinorDigits]
  omega

/-- Where the digits of the coefficient are counted right, nineteen are less than `10 ^ 19`. -/
theorem minorDigits_le_iff (h : m.Whole k) (hk : k ≠ 0)
    (hcount : lib.numDigits m.amount = m.amount.digitCount) :
    m.minorDigits lib ≤ maxMinorDigits ↔ |k| < 10 ^ 19 := by
  have hval := h.val_eq
  have hne : (k : ℚ) ≠ 0 := by exact_mod_cast hk
  have hdigits := Decimal.lt_digitCount_iff (hval ▸ hne) 19
  rw [hval] at hdigits
  have habs : (10 : ℚ) ^ 19 ≤ |(k : ℚ)| ↔ 10 ^ 19 ≤ |k| := by exact_mod_cast Iff.rfl
  rw [minorDigits, hcount, maxMinorDigits, add_assoc, ← not_le, ← habs, ← hdigits, not_lt]
  rfl

/-! ## The two checks -/

/-- An error that refuses the amount. -/
def Err.OfAmount (e : Err) : Prop := e.sentinel = some .overflow ∨ e.sentinel = some .notRounded

theorem minorBig_error {e : Err} (hcur : m.currency.isZero = false)
    (h : m.minorBig lib = .error e) : e.OfAmount := by
  unfold minorBig at h
  rw [hcur] at h
  simp only [Bool.false_eq_true, if_false] at h
  split at h
  · cases h
  split at h
  · cases h
    exact .inl rfl
  split at h
  · cases h
    exact .inr rfl
  · cases h

theorem minorUnits_of_minorBig (h : m.minorBig lib = .ok k) :
    m.minorUnits lib = if IsInt64 k then .ok k else .error (.notInt64 k) := by
  rw [minorUnits, h]

theorem minorUnits_of_error {e : Err} (h : m.minorBig lib = .error e) :
    m.minorUnits lib = .error e := by
  rw [minorUnits, h]

theorem minorUnits_ok_iff {v : Int} (hcur : m.currency.isZero = false) :
    m.minorUnits lib = .ok v ↔ IsInt64 v ∧ m.Whole v := by
  constructor
  · intro h
    cases hbig : m.minorBig lib with
    | error e => rw [minorUnits_of_error hbig] at h; cases h
    | ok k =>
      rw [minorUnits_of_minorBig hbig] at h
      split at h
      · cases h
        exact ⟨‹_›, (minorBig_ok_iff.mp hbig).2.1⟩
      · cases h
  · rintro ⟨hint, hwhole⟩
    have hbig : m.minorBig lib = .ok v :=
      minorBig_ok_iff.mpr ⟨hcur, hwhole, fun hne => minorDigits_le hwhole hne hint⟩
    rw [minorUnits_of_minorBig hbig, if_pos hint]

/-- The parts a method gives. -/
def parts (lib : Decimal.Arithmetic) (m : Money) (method : AllocationMethod)
    (ratios : List Decimal) : Except Err (List Money) :=
  match method with
  | .largestRemainder => .ok (m.largestRemainder lib ratios)
  | .halfUpLastRemainder => .ok (m.halfUpLastRemainder lib ratios).1
  | .other code => .error (.unknownMethod code)

theorem allocateBy_of_error {e : Err} (h : m.minorBig lib = .error e) (method : AllocationMethod)
    (ratios : List Decimal) : m.allocateBy lib method ratios = .error e := by
  unfold allocateBy
  rw [h]
  rfl

theorem allocateBy_of_valid {ratios : List Decimal} (h : m.minorBig lib = .ok k)
    (hratios : ValidRatios ratios) (method : AllocationMethod) :
    m.allocateBy lib method ratios = m.parts lib method ratios := by
  unfold allocateBy
  rw [h, (checkRatios_ok_iff lib).mpr hratios]
  cases method <;> rfl

theorem validRatios_one : ValidRatios [⟨1, 0⟩] := by
  have hone : (⟨1, 0⟩ : Decimal).val = 1 := by simp [Decimal.val]
  constructor <;> simp [hone]

/-- `MinorUnits` gives the whole minor units of 64 bits, and `FromMinor` takes them back.
`AllocateBy` refuses the amounts that `MinorUnits` refuses, by either method, if and only if the
amount is not one beyond 64 bits that the package counts as nineteen digits; where it counts right,
that is one below `10 ^ 19`. -/
theorem minorUnits_exact (lib : Decimal.Arithmetic) (m : Money) (hcur : m.currency.isZero = false) :
    (∀ v, m.minorUnits lib = .ok v ↔ IsInt64 v ∧ m.Whole v) ∧
    (∀ v, m.minorUnits lib = .ok v →
      ∃ m', fromMinor v m.currency = .ok m' ∧ m'.equal lib m = true) ∧
    ((∀ method ∈ [AllocationMethod.largestRemainder, .halfUpLastRemainder],
      ∀ ratios, ValidRatios ratios →
        ((∃ e, m.allocateBy lib method ratios = .error e ∧ e.OfAmount) ↔
          ∃ e, m.minorUnits lib = .error e ∧ e.OfAmount)) ↔
      ¬ ∃ k, m.Whole k ∧ ¬ IsInt64 k ∧ m.minorDigits lib ≤ maxMinorDigits) ∧
    (lib.numDigits m.amount = m.amount.digitCount → ∀ k, m.Whole k → ¬ IsInt64 k →
      (m.minorDigits lib ≤ maxMinorDigits ↔ |k| < 10 ^ 19)) := by
  refine ⟨fun v => minorUnits_ok_iff hcur, fun v hv => ?_, ⟨fun h => ?_, fun h => ?_⟩, ?_⟩
  · refine ⟨_, by rw [fromMinor, hcur]; rfl, ?_⟩
    have hval := ((minorUnits_ok_iff hcur).mp hv).2
    simp only [equal, decide_true, Bool.true_and, Decimal.Arithmetic.equal_iff]
    exact hval.symm
  · -- beyond 64 bits: `MinorUnits` fails and one ratio gets everything
    rintro ⟨k, hwhole, hint, hdigits⟩
    have hbig : m.minorBig lib = .ok k := minorBig_ok_iff.mpr ⟨hcur, hwhole, fun _ => hdigits⟩
    have hfails := minorUnits_of_minorBig hbig
    rw [if_neg hint] at hfails
    obtain ⟨e, he, -⟩ := (h .largestRemainder (by simp) [⟨1, 0⟩] validRatios_one).mpr
      ⟨_, hfails, .inl rfl⟩
    rw [allocateBy_of_valid hbig validRatios_one] at he
    cases he
  · intro method hmethod ratios hratios
    cases hbig : m.minorBig lib with
    | error e =>
      have hof := minorBig_error hcur hbig
      exact ⟨fun _ => ⟨e, minorUnits_of_error hbig, hof⟩,
        fun _ => ⟨e, allocateBy_of_error hbig _ _, hof⟩⟩
    | ok k =>
      obtain ⟨-, hwhole, hdigits⟩ := minorBig_ok_iff.mp hbig
      have hint : IsInt64 k := by
        by_contra hint
        have hne : k ≠ 0 := by rintro rfl; exact hint (by decide)
        exact h ⟨k, hwhole, hint, hdigits hne⟩
      rw [allocateBy_of_valid hbig hratios, minorUnits_of_minorBig hbig, if_pos hint]
      constructor
      · rintro ⟨e, he, -⟩
        simp only [List.mem_cons, List.not_mem_nil, or_false] at hmethod
        rcases hmethod with rfl | rfl <;> cases he
      · rintro ⟨e, he, -⟩
        cases he
  · intro hcount k hwhole hint
    have hne : k ≠ 0 := by rintro rfl; exact hint (by decide)
    exact minorDigits_le_iff hwhole hne hcount

def eur : Currency := ⟨"EUR", 2, by decide⟩

theorem minorUnits_exact_eur :
    IsInt64 1230 ∧ (⟨⟨123, -1⟩, eur⟩ : Money).minorUnits Decimal.exact = .ok 1230 :=
  ⟨by decide, ((minorUnits_exact Decimal.exact ⟨⟨123, -1⟩, eur⟩ rfl).1 1230).mpr
    ⟨by decide, by norm_num [Whole, unit, Decimal.val, eur]⟩⟩

/-- 92233720368547758.08 EUR have one minor unit more than 64 bits hold, and are allocated. -/
theorem allocates_beyond_int64 :
    ¬ IsInt64 (2 ^ 63) ∧ ∀ lib : Decimal.Arithmetic,
      (⟨⟨2 ^ 63, -2⟩, eur⟩ : Money).minorUnits lib = .error (.notInt64 (2 ^ 63)) ∧
      ∃ parts, (⟨⟨2 ^ 63, -2⟩, eur⟩ : Money).allocateBy lib .largestRemainder [⟨1, 0⟩] =
        .ok parts := by
  refine ⟨by decide, fun lib => ?_⟩
  have hdigits : lib.numDigits ⟨2 ^ 63, -2⟩ ≤ 19 := lib.numDigits_le _ _ (by decide) (by norm_num)
  have hbig : (⟨⟨2 ^ 63, -2⟩, eur⟩ : Money).minorBig lib = .ok (2 ^ 63) := by
    refine minorBig_ok_iff.mpr ⟨rfl, by norm_num [Whole, unit, Decimal.val, eur], fun _ => ?_⟩
    simp only [minorDigits, maxMinorDigits, eur]
    omega
  exact ⟨by rw [minorUnits_of_minorBig hbig]; rfl, _, allocateBy_of_valid hbig validRatios_one _⟩

end GoAtlas.Money
