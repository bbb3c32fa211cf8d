import GoAtlas.Money.MinorUnits

/-!
# Exchange rates

The rates of `domain/money/exchange.go`. `NormalizeRate` validates what it returns. `CrossRate`
validates what it is given: two quotes of one currency make a rate of the currency to itself, and a
quotient below half of the last place is rounded to zero.
-/

namespace GoAtlas.Money

open GoAtlas.Lib

structure ExchangeRate where
  base : Currency
  quote : Currency
  value : Decimal

inductive RateErr where
  | invalidBase | invalidQuote
  /-- `ErrPairMismatch`: base equals quote. -/
  | selfPair (base : Currency)
  /-- `ErrNonPositiveRate`. -/
  | nonPositive (rate : ExchangeRate)
  | nonPositiveQuote (value : Decimal) (nominal : Int)
  | noCommonCurrency (baseQuote targetQuote : Currency)

namespace ExchangeRate

/-- `Validate`, `none` for no error. -/
def validate (lib : Decimal.Arithmetic) (r : ExchangeRate) : Option RateErr :=
  if r.base.isZero then some .invalidBase
  else if r.quote.isZero then some .invalidQuote
  else if r.base = r.quote then some (.selfPair r.base)
  else if !lib.isPositive r.value then some (.nonPositive r)
  else none

def empty : ExchangeRate := ⟨⟨"", 0, by decide⟩, ⟨"", 0, by decide⟩, ⟨0, 0⟩⟩

end ExchangeRate

def rateDivisionPrecision : Int := 28

variable (lib : Decimal.Arithmetic)

def rateDiv (a b : Decimal) : Decimal := lib.divRound a b rateDivisionPrecision

def normalizeRate (base quote : Currency) (value : Decimal) (nominal : Int) :
    ExchangeRate × Option RateErr :=
  if nominal ≤ 0 ∨ !lib.isPositive value then (.empty, some (.nonPositiveQuote value nominal))
  else
    let r : ExchangeRate := ⟨base, quote, rateDiv lib value ⟨nominal, 0⟩⟩
    (r, r.validate lib)

def crossRate (baseQuote targetQuote : ExchangeRate) : ExchangeRate × Option RateErr :=
  match baseQuote.validate lib with
  | some e => (.empty, some e)
  | none =>
    match targetQuote.validate lib with
    | some e => (.empty, some e)
    | none =>
      if baseQuote.quote ≠ targetQuote.quote then
        (.empty, some (.noCommonCurrency baseQuote.quote targetQuote.quote))
      else
        (⟨baseQuote.base, targetQuote.base, rateDiv lib baseQuote.value targetQuote.value⟩, none)

variable {lib}

theorem validate_eq_none_iff {r : ExchangeRate} :
    r.validate lib = none ↔
      r.base.isZero = false ∧ r.quote.isZero = false ∧ r.base ≠ r.quote ∧ 0 < r.value.val := by
  unfold ExchangeRate.validate
  rw [← lib.isPositive_iff]
  by_cases hbase : r.base.isZero <;> by_cases hquote : r.quote.isZero <;>
    by_cases hpair : r.base = r.quote <;> by_cases hpos : lib.isPositive r.value <;> simp_all

/-- A number to 28 fractional digits, rounded half away from zero. -/
def toRatePlaces (x : ℚ) : ℚ := roundHalfAway (x * 10 ^ (28 : Int)) * 10 ^ (-28 : Int)

theorem val_rateDiv {a b : Decimal} (hb : 0 < b.val) :
    (rateDiv lib a b).val = toRatePlaces (a.val / b.val) := lib.val_divRound a b _ hb.ne'

theorem toRatePlaces_pos_iff {a b : ℚ} (ha : 0 < a) (hb : 0 < b) :
    0 < toRatePlaces (a / b) ↔ b ≤ 2 * 10 ^ 28 * a := by
  have hquot : 0 ≤ a / b * 10 ^ (28 : Int) := by positivity
  rw [toRatePlaces, mul_pos_iff_of_pos_right (ten_zpow_pos _), Int.cast_pos,
    roundHalfAway_pos_iff hquot, div_mul_eq_mul_div, le_div_iff₀ hb,
    show (10 : ℚ) ^ (28 : Int) = 10 ^ 28 by norm_cast]
  constructor <;> intro h <;> linarith

theorem normalizeRate_ok {base quote : Currency} {value : Decimal} {nominal : Int}
    {r : ExchangeRate} (h : normalizeRate lib base quote value nominal = (r, none)) :
    0 < nominal ∧ r.validate lib = none ∧ r = ⟨base, quote, rateDiv lib value ⟨nominal, 0⟩⟩ := by
  unfold normalizeRate at h
  split at h
  · cases h
  · rename_i hpos
    obtain ⟨rfl, hvalid⟩ := Prod.mk.inj h
    exact ⟨not_le.mp fun hle => hpos (.inl hle), hvalid, rfl⟩

theorem crossRate_ok {baseQuote targetQuote r : ExchangeRate}
    (h : crossRate lib baseQuote targetQuote = (r, none)) :
    baseQuote.validate lib = none ∧ targetQuote.validate lib = none ∧
      r = ⟨baseQuote.base, targetQuote.base, rateDiv lib baseQuote.value targetQuote.value⟩ := by
  unfold crossRate at h
  split at h
  · cases h
  split at h
  · cases h
  split at h
  · cases h
  · cases h
    exact ⟨‹_›, ‹_›, rfl⟩

/-- A rate from `NormalizeRate` is valid, and its value is the quotient to 28 digits. So is the
value of a rate from `CrossRate`, which is valid if and only if the quotes are of two currencies and
the quotient is not rounded to zero. -/
theorem rates_valid_iff (lib : Decimal.Arithmetic) (base quote : Currency) (value : Decimal)
    (nominal : Int) (baseQuote targetQuote r : ExchangeRate) :
    (normalizeRate lib base quote value nominal = (r, none) →
      r.validate lib = none ∧ r.value.val = toRatePlaces (value.val / nominal)) ∧
    (crossRate lib baseQuote targetQuote = (r, none) →
      r.value.val = toRatePlaces (baseQuote.value.val / targetQuote.value.val) ∧
      (r.validate lib = none ↔ baseQuote.base ≠ targetQuote.base ∧
        targetQuote.value.val ≤ 2 * 10 ^ 28 * baseQuote.value.val)) := by
  constructor
  · intro h
    obtain ⟨hpos, hvalid, rfl⟩ := normalizeRate_ok h
    have hval : (⟨nominal, 0⟩ : Decimal).val = nominal := by simp [Decimal.val]
    have hnominal : 0 < (⟨nominal, 0⟩ : Decimal).val := by
      rw [hval]
      exact_mod_cast hpos
    exact ⟨hvalid, by rw [val_rateDiv hnominal, hval]⟩
  · intro h
    obtain ⟨hbase, htarget, rfl⟩ := crossRate_ok h
    obtain ⟨hb, -, -, hbpos⟩ := validate_eq_none_iff.mp hbase
    obtain ⟨ht, -, -, htpos⟩ := validate_eq_none_iff.mp htarget
    refine ⟨val_rateDiv htpos, ?_⟩
    rw [validate_eq_none_iff, val_rateDiv htpos, toRatePlaces_pos_iff hbpos htpos]
    exact ⟨fun h => ⟨h.2.2.1, h.2.2.2⟩, fun h => ⟨hb, ht, h.1, h.2⟩⟩

def usd : Currency := { eur with code := "USD" }

def rub : Currency := { eur with code := "RUB" }

theorem validate_rub {base : Currency} (hbase : base = eur ∨ base = usd) {value : Decimal}
    (hpos : 0 < value.val) : (⟨base, rub, value⟩ : ExchangeRate).validate lib = none := by
  have hset : base.isZero = false ∧ base ≠ rub := by
    rcases hbase with rfl | rfl <;> decide
  exact validate_eq_none_iff.mpr ⟨hset.1, rfl, hset.2, hpos⟩

theorem crossRate_rub {base target : Currency} (hbase : base = eur ∨ base = usd)
    (htarget : target = eur ∨ target = usd) {v w : Decimal} (hv : 0 < v.val) (hw : 0 < w.val) :
    crossRate lib ⟨base, rub, v⟩ ⟨target, rub, w⟩ = (⟨base, target, rateDiv lib v w⟩, none) := by
  rw [crossRate, validate_rub hbase hv, validate_rub htarget hw]
  rfl

theorem rates_valid_iff_eur :
    ∃ r, crossRate Decimal.exact ⟨eur, rub, ⟨100, 0⟩⟩ ⟨usd, rub, ⟨80, 0⟩⟩ = (r, none) ∧
      r.validate Decimal.exact = none ∧ r.value.val = toRatePlaces (100 / 80) := by
  have hrate : crossRate Decimal.exact ⟨eur, rub, ⟨100, 0⟩⟩ ⟨usd, rub, ⟨80, 0⟩⟩ = (_, none) :=
    crossRate_rub (.inl rfl) (.inr rfl) (by norm_num [Decimal.val]) (by norm_num [Decimal.val])
  obtain ⟨hvalue, hvalid⟩ := (rates_valid_iff Decimal.exact eur rub ⟨100, 0⟩ 1 _ _ _).2 hrate
  refine ⟨_, hrate, hvalid.mpr ⟨by decide, by norm_num [Decimal.val]⟩, ?_⟩
  rw [hvalue]
  norm_num [Decimal.val]

/-- Two quotes of the same currency make a self-pair, and quotes far apart a rate of zero, without
an error. -/
theorem crossRate_invalid :
    (∀ lib : Decimal.Arithmetic, ∃ r,
      crossRate lib ⟨eur, rub, ⟨100, 0⟩⟩ ⟨eur, rub, ⟨100, 0⟩⟩ = (r, none) ∧ r.base = r.quote) ∧
    ∀ lib : Decimal.Arithmetic, ∃ r,
      crossRate lib ⟨eur, rub, ⟨1, -20⟩⟩ ⟨usd, rub, ⟨1, 20⟩⟩ = (r, none) ∧ r.value.val ≤ 0 := by
  have hpos : ∀ e, 0 < (⟨1, e⟩ : Decimal).val := fun e => by simp [Decimal.val, ten_zpow_pos]
  have hhundred : 0 < (⟨100, 0⟩ : Decimal).val := by norm_num [Decimal.val]
  refine ⟨fun lib => ⟨_, crossRate_rub (.inl rfl) (.inl rfl) hhundred hhundred, rfl⟩,
    fun lib => ⟨_, crossRate_rub (.inl rfl) (.inr rfl) (hpos _) (hpos _), not_lt.mp fun h => ?_⟩⟩
  rw [val_rateDiv (hpos _), toRatePlaces_pos_iff (hpos _) (hpos _)] at h
  norm_num [Decimal.val] at h

end GoAtlas.Money
