import Mathlib.Algebra.Order.Round
import Mathlib.Algebra.Order.Archimedean.Basic
import Mathlib.Data.Nat.Log
import Mathlib.Data.Rat.Floor
import Mathlib.Tactic.FieldSimp
import Mathlib.Tactic.Linarith
import Mathlib.Tactic.Positivity
import Mathlib.Tactic.Ring

/-!
# Decimals of any size

A decimal is an integer coefficient and a power of ten. One number has many decimals, so the laws of
their arithmetic speak of values. `Arithmetic` is what a development assumes of an implementation:
sums, products and shifts are exact, a quotient is rounded to a number of places, and what is
halfway goes away from zero.
-/

namespace GoAtlas.Lib

/-- A decimal `coefficient * 10 ^ exponent`. -/
structure Decimal where
  coefficient : Int
  exponent : Int
  deriving DecidableEq, Repr

/-! ## Rounding to an integer -/

/-- The nearest integer, and of two the one farther from zero. -/
def roundHalfAway (x : ℚ) : Int := if 0 ≤ x then round x else -round (-x)

theorem abs_roundHalfAway_sub_le (x : ℚ) : |(roundHalfAway x : ℚ) - x| ≤ 1 / 2 := by
  unfold roundHalfAway
  split
  · rw [abs_sub_comm]
    exact abs_sub_round x
  · have h := abs_sub_round (-x)
    rwa [show ((-round (-x) : Int) : ℚ) - x = -x - round (-x) by push_cast; ring]

theorem roundHalfAway_neg (x : ℚ) : roundHalfAway (-x) = -roundHalfAway x := by
  rcases lt_trichotomy x 0 with h | rfl | h
  · rw [roundHalfAway, roundHalfAway, if_pos (by linarith), if_neg (by linarith), neg_neg]
  · simp [roundHalfAway]
  · rw [roundHalfAway, roundHalfAway, if_neg (by linarith), if_pos h.le, neg_neg]

theorem roundHalfAway_nonneg {x : ℚ} (h : 0 ≤ x) : 0 ≤ roundHalfAway x := by
  rw [roundHalfAway, if_pos h, round_eq]
  exact Int.floor_nonneg.mpr (by linarith)

theorem roundHalfAway_pos_iff {x : ℚ} (h : 0 ≤ x) : 0 < roundHalfAway x ↔ 1 / 2 ≤ x := by
  rw [roundHalfAway, if_pos h, round_eq, Int.floor_pos]
  constructor <;> intro h <;> linarith

/-- The integer part. -/
def towardZero (x : ℚ) : Int := if 0 ≤ x then ⌊x⌋ else ⌈x⌉

theorem towardZero_intCast (n : Int) : towardZero n = n := by
  unfold towardZero
  split
  · exact Int.floor_intCast n
  · exact Int.ceil_intCast n

theorem ten_zpow_pos (e : Int) : (0 : ℚ) < 10 ^ e := zpow_pos (by norm_num) e

namespace Decimal

/-! ## Values -/

def val (d : Decimal) : ℚ := d.coefficient * 10 ^ d.exponent

/-- The coefficient at the exponent `e`, which is at most the decimal's own. -/
def scaledTo (d : Decimal) (e : Int) : Int := d.coefficient * 10 ^ (d.exponent - e).toNat

variable {d : Decimal}

theorem scaledTo_mul {e : Int} (h : e ≤ d.exponent) :
    (d.scaledTo e : ℚ) * 10 ^ e = d.val := by
  rw [scaledTo, val]
  push_cast
  rw [mul_assoc, ← zpow_natCast, ← zpow_add₀ (by norm_num), Int.toNat_of_nonneg (by omega),
    sub_add_cancel]

/-- Zero as `0 * 10 ^ 0`, and no trailing zero in any other coefficient. -/
def Canonical (d : Decimal) : Prop := d = ⟨0, 0⟩ ∨ ¬ (10 : Int) ∣ d.coefficient

theorem Canonical.eq_zero (h : d.Canonical) (hd : d.val = 0) : d = ⟨0, 0⟩ := by
  refine h.resolve_right fun hdvd => hdvd ?_
  rw [val, mul_eq_zero, or_iff_left (ten_zpow_pos _).ne', Int.cast_eq_zero] at hd
  simp [hd]

theorem dvd_of_lt_exponent {a b : Decimal} (hval : a.val = b.val) (hlt : a.exponent < b.exponent) :
    (10 : Int) ∣ a.coefficient := by
  have hscaled : a.coefficient = b.scaledTo a.exponent := by
    have h := hval.trans (scaledTo_mul hlt.le).symm
    exact_mod_cast mul_right_cancel₀ (ten_zpow_pos a.exponent).ne' h
  rw [hscaled, scaledTo, show (b.exponent - a.exponent).toNat =
    (b.exponent - a.exponent).toNat - 1 + 1 by omega, pow_succ]
  exact (dvd_mul_left _ _).mul_left _

theorem Canonical.eq {a b : Decimal} (ha : a.Canonical) (hb : b.Canonical) (hval : a.val = b.val) :
    a = b := by
  by_cases hzero : a.val = 0
  · rw [ha.eq_zero hzero, hb.eq_zero (hval ▸ hzero)]
  · have hda : ¬ (10 : Int) ∣ a.coefficient := ha.resolve_left fun h => hzero (by simp [h, val])
    have hdb : ¬ (10 : Int) ∣ b.coefficient :=
      hb.resolve_left fun h => hzero (by rw [hval, h]; simp [val])
    rcases lt_trichotomy a.exponent b.exponent with h | h | h
    · exact absurd (dvd_of_lt_exponent hval h) hda
    · obtain ⟨c, e⟩ := a
      obtain ⟨c', e'⟩ := b
      obtain rfl : e = e' := h
      have hc : c = c' := by exact_mod_cast mul_right_cancel₀ (ten_zpow_pos e).ne' hval
      rw [hc]
    · exact absurd (dvd_of_lt_exponent hval.symm h) hdb

/-! ## Digits -/

/-- The digits of the coefficient; zero has one. -/
def digitCount (d : Decimal) : Nat := Nat.log 10 d.coefficient.natAbs + 1

theorem lt_digitCount_iff (hd : d.val ≠ 0) (n : Nat) :
    (n : Int) < d.digitCount + d.exponent ↔ (10 : ℚ) ^ n ≤ |d.val| := by
  have hc : d.coefficient.natAbs ≠ 0 := by
    intro h
    exact hd (by simp [val, Int.natAbs_eq_zero.mp h])
  have habs : |d.val| = (d.coefficient.natAbs : ℚ) * 10 ^ d.exponent := by
    rw [val, abs_mul, abs_of_pos (ten_zpow_pos _), Nat.cast_natAbs, Int.cast_abs]
  have hlo : (10 : ℚ) ^ ((d.digitCount : Int) - 1) ≤ d.coefficient.natAbs := by
    rw [digitCount, Nat.cast_add, Nat.cast_one, add_sub_cancel_right, zpow_natCast]
    exact_mod_cast Nat.pow_log_le_self 10 hc
  have hhi : (d.coefficient.natAbs : ℚ) < 10 ^ (d.digitCount : Int) := by
    rw [zpow_natCast]
    exact_mod_cast Nat.lt_pow_succ_log_self (by norm_num) d.coefficient.natAbs
  rw [habs, ← zpow_natCast]
  constructor
  · intro h
    calc (10 : ℚ) ^ (n : Int) ≤ 10 ^ ((d.digitCount : Int) - 1 + d.exponent) :=
          zpow_le_zpow_right₀ (by norm_num) (by omega)
      _ = 10 ^ ((d.digitCount : Int) - 1) * 10 ^ d.exponent := zpow_add₀ (by norm_num) _ _
      _ ≤ d.coefficient.natAbs * 10 ^ d.exponent :=
        mul_le_mul_of_nonneg_right hlo (ten_zpow_pos _).le
  · intro h
    have hlt : (10 : ℚ) ^ (n : Int) < 10 ^ ((d.digitCount : Int) + d.exponent) := by
      rw [zpow_add₀ (by norm_num)]
      exact h.trans_lt (mul_lt_mul_of_pos_right hhi (ten_zpow_pos _))
    exact (zpow_lt_zpow_iff_right₀ (by norm_num)).mp hlt

theorem abs_round_sub_le {x : ℚ} (places : Int) :
    |roundHalfAway (x * 10 ^ places) * 10 ^ (-places) - x| ≤ 10 ^ (-places) / 2 := by
  have hpos := ten_zpow_pos (-places)
  have hx : x = x * 10 ^ places * 10 ^ (-places) := by
    rw [mul_assoc, ← zpow_add₀ (by norm_num), add_neg_cancel, zpow_zero, mul_one]
  have hround := mul_le_mul_of_nonneg_right (abs_roundHalfAway_sub_le (x * 10 ^ places)) hpos.le
  rw [← abs_of_pos hpos, ← abs_mul, sub_mul, abs_of_pos hpos, ← hx] at hround
  linarith

/-! ## Arithmetic -/

/-- The operations of an implementation of decimals, with the numbers they give. -/
structure Arithmetic where
  zero : Decimal
  neg : Decimal → Decimal
  add : Decimal → Decimal → Decimal
  sub : Decimal → Decimal → Decimal
  mul : Decimal → Decimal → Decimal
  shift : Decimal → Int → Decimal
  equal : Decimal → Decimal → Bool
  greaterThanOrEqual : Decimal → Decimal → Bool
  isZero : Decimal → Bool
  isPositive : Decimal → Bool
  isNegative : Decimal → Bool
  truncate : Decimal → Int → Decimal
  round : Decimal → Int → Decimal
  divRound : Decimal → Decimal → Int → Decimal
  bigInt : Decimal → Int
  numDigits : Decimal → Nat
  val_zero : zero.val = 0
  val_neg : ∀ d, (neg d).val = -d.val
  val_add : ∀ a b, (add a b).val = a.val + b.val
  val_sub : ∀ a b, (sub a b).val = a.val - b.val
  val_mul : ∀ a b, (mul a b).val = a.val * b.val
  val_shift : ∀ d n, (shift d n).val = d.val * 10 ^ n
  equal_iff : ∀ a b, equal a b = true ↔ a.val = b.val
  greaterThanOrEqual_iff : ∀ a b, greaterThanOrEqual a b = true ↔ b.val ≤ a.val
  isZero_iff : ∀ d, isZero d = true ↔ d.val = 0
  isPositive_iff : ∀ d, isPositive d = true ↔ 0 < d.val
  isNegative_iff : ∀ d, isNegative d = true ↔ d.val < 0
  val_truncate : ∀ d places, 0 ≤ places →
    (truncate d places).val = towardZero (d.val * 10 ^ places) * 10 ^ (-places)
  val_round : ∀ d places,
    (round d places).val = roundHalfAway (d.val * 10 ^ places) * 10 ^ (-places)
  val_divRound : ∀ a b places, b.val ≠ 0 →
    (divRound a b places).val = roundHalfAway (a.val / b.val * 10 ^ places) * 10 ^ (-places)
  bigInt_eq : ∀ d, bigInt d = towardZero d.val
  /-- The count may be off by one next to a power of ten, where it rests on a logarithm. -/
  numDigits_le : ∀ d n, 0 < n → 100 * |d.coefficient| ≤ 95 * 10 ^ n → numDigits d ≤ n

attribute [simp] Arithmetic.val_zero Arithmetic.val_neg Arithmetic.val_add Arithmetic.val_sub
  Arithmetic.val_mul Arithmetic.val_shift Arithmetic.equal_iff Arithmetic.greaterThanOrEqual_iff
  Arithmetic.isZero_iff Arithmetic.isPositive_iff Arithmetic.isNegative_iff

theorem Arithmetic.bigInt_of_val (lib : Arithmetic) {k : Int} (h : d.val = k) :
    lib.bigInt d = k := by
  rw [lib.bigInt_eq, h, towardZero_intCast]

theorem Arithmetic.equal_truncate_iff (lib : Arithmetic) {places : Nat} :
    lib.equal d (lib.truncate d places) = true ↔ ∃ k : Int, d.val = k * 10 ^ (-(places : Int)) := by
  rw [lib.equal_iff, lib.val_truncate d places (Int.natCast_nonneg places)]
  constructor
  · exact fun h => ⟨_, h⟩
  · rintro ⟨k, hk⟩
    have hint : d.val * 10 ^ (places : Int) = k := by
      rw [hk, mul_assoc, ← zpow_add₀ (by norm_num), neg_add_cancel, zpow_zero, mul_one]
    rw [hint, towardZero_intCast, hk]

theorem digitCount_le {n : Nat} (hn : 0 < n) (h : |d.coefficient| < 10 ^ n) :
    d.digitCount ≤ n := by
  rw [digitCount, Nat.succ_le_iff]
  refine Nat.log_lt_of_lt_pow' hn.ne' ?_
  rw [Int.abs_eq_natAbs] at h
  exact_mod_cast h

/-- The arithmetic of the values: the laws can be met. -/
def exact : Arithmetic where
  zero := ⟨0, 0⟩
  neg d := ⟨-d.coefficient, d.exponent⟩
  add a b :=
    let e := min a.exponent b.exponent
    ⟨a.scaledTo e + b.scaledTo e, e⟩
  sub a b :=
    let e := min a.exponent b.exponent
    ⟨a.scaledTo e - b.scaledTo e, e⟩
  mul a b := ⟨a.coefficient * b.coefficient, a.exponent + b.exponent⟩
  shift d n := ⟨d.coefficient, d.exponent + n⟩
  equal a b := a.val = b.val
  greaterThanOrEqual a b := b.val ≤ a.val
  isZero d := d.val = 0
  isPositive d := 0 < d.val
  isNegative d := d.val < 0
  truncate d places := ⟨towardZero (d.val * 10 ^ places), -places⟩
  round d places := ⟨roundHalfAway (d.val * 10 ^ places), -places⟩
  divRound a b places := ⟨roundHalfAway (a.val / b.val * 10 ^ places), -places⟩
  bigInt d := towardZero d.val
  numDigits := digitCount
  val_zero := by simp [val]
  val_neg d := by simp [val]
  val_add a b := by
    rw [← scaledTo_mul (min_le_left a.exponent b.exponent),
      ← scaledTo_mul (min_le_right a.exponent b.exponent), ← add_mul, ← Int.cast_add]
    rfl
  val_sub a b := by
    rw [← scaledTo_mul (min_le_left a.exponent b.exponent),
      ← scaledTo_mul (min_le_right a.exponent b.exponent), ← sub_mul, ← Int.cast_sub]
    rfl
  val_mul a b := by
    simp only [val, Int.cast_mul]
    rw [zpow_add₀ (by norm_num)]
    ring
  val_shift d n := by
    simp only [val]
    rw [zpow_add₀ (by norm_num), mul_assoc]
  equal_iff a b := decide_eq_true_iff
  greaterThanOrEqual_iff a b := decide_eq_true_iff
  isZero_iff d := decide_eq_true_iff
  isPositive_iff d := decide_eq_true_iff
  isNegative_iff d := decide_eq_true_iff
  val_truncate d places _ := rfl
  val_round d places := rfl
  val_divRound a b places _ := rfl
  bigInt_eq d := rfl
  numDigits_le d n hn h := digitCount_le hn (by
    have := pow_pos (by norm_num : (0 : Int) < 10) n
    omega)

end Decimal

end GoAtlas.Lib
