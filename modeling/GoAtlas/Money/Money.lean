import GoAtlas.Lib.Decimal

/-!
# Amounts of money

`Money` is a decimal amount of a currency (`domain/money/money.go`, `currency.go`). The model covers
the conversion to and from minor units and the allocation of an amount to ratios by either method,
with the errors of each. The calls to the decimal package are those of the parameter `lib`, whose
fields name what is assumed of them; the rational numbers of `math/big` are those of `ℚ`.
-/

namespace GoAtlas

open GoAtlas.Lib

namespace Money

/-! ## Currencies and errors -/

def maxMinorUnits : Nat := 18

/-- A currency code with its decimal places. The zero currency has no code. -/
structure Currency where
  code : String
  minorUnits : Nat
  minorUnits_le : minorUnits ≤ maxMinorUnits
  deriving DecidableEq

def Currency.isZero (c : Currency) : Bool := c.code = ""

inductive Sentinel where
  | invalidCurrency | notRounded | overflow | invalidRatios
  deriving DecidableEq

inductive Err where
  | invalidCurrency
  | manyDigits (digits : Int)
  | notInt64 (minor : Int)
  | decimalPlaces (places : Int)
  | noRatios
  | negativeRatio (index : Nat)
  | ratiosSumToZero
  | unknownMethod (code : Nat)
  deriving DecidableEq

def Err.sentinel : Err → Option Sentinel
  | invalidCurrency => some .invalidCurrency
  | manyDigits _ | notInt64 _ => some .overflow
  | decimalPlaces _ => some .notRounded
  | noRatios | negativeRatio _ | ratiosSumToZero => some .invalidRatios
  | unknownMethod _ => none

/-! ## Minor units -/

end Money

structure Money where
  amount : Decimal
  currency : Money.Currency

namespace Money

/-- Whether a big integer is one of 64 bits. -/
def IsInt64 (n : Int) : Prop := -2 ^ 63 ≤ n ∧ n < 2 ^ 63

instance (n : Int) : Decidable (IsInt64 n) := inferInstanceAs (Decidable (_ ∧ _))

def fromMinor (minor : Int) (currency : Currency) : Except Err Money :=
  if currency.isZero then .error .invalidCurrency
  else .ok ⟨⟨minor, -currency.minorUnits⟩, currency⟩

variable (lib : Decimal.Arithmetic) {ratios : List Decimal}

def neg (m : Money) : Money := ⟨lib.neg m.amount, m.currency⟩

def equal (m o : Money) : Bool := m.currency = o.currency && lib.equal m.amount o.amount

def isRounded (m : Money) : Bool :=
  lib.equal m.amount (lib.truncate m.amount m.currency.minorUnits)

def maxMinorDigits : Int := 19

/-- About how many digits the amount has in minor units. -/
def minorDigits (m : Money) : Int :=
  lib.numDigits m.amount + m.amount.exponent + m.currency.minorUnits

/-- The amount in minor units, if it has no more than `maxMinorDigits` digits. -/
def minorBig (m : Money) : Except Err Int :=
  if m.currency.isZero then .error .invalidCurrency
  else if lib.isZero m.amount then .ok 0
  else if maxMinorDigits < m.minorDigits lib then .error (.manyDigits (m.minorDigits lib))
  else if !m.isRounded lib then .error (.decimalPlaces (-m.amount.exponent))
  else .ok (lib.bigInt (lib.shift m.amount m.currency.minorUnits))

def minorUnits (m : Money) : Except Err Int :=
  match m.minorBig lib with
  | .error e => .error e
  | .ok minor => if IsInt64 minor then .ok minor else .error (.notInt64 minor)

/-! ## Ratios -/

inductive AllocationMethod where
  | largestRemainder | halfUpLastRemainder
  | other (code : Nat)

def checkRatiosFrom (positive : Bool) (i : Nat) : List Decimal → Except Err Unit
  | [] => if positive then .ok () else .error .ratiosSumToZero
  | r :: rest =>
    if lib.isNegative r then .error (.negativeRatio i)
    else checkRatiosFrom (positive || lib.isPositive r) (i + 1) rest

def checkRatios (ratios : List Decimal) : Except Err Unit :=
  if ratios = [] then .error .noRatios else checkRatiosFrom lib false 0 ratios

/-! ## The largest remainder -/

def floorRat (r : ℚ) : Int := r.num.tdiv r.den

structure Share where
  index : Nat
  remainder : ℚ

/-- The shares by remainder, the largest first; equal ones stay in order. -/
def sortedShares (exact : List ℚ) : List Share :=
  (exact.zipIdx.map fun e => ⟨e.2, e.1 - floorRat e.1⟩).mergeSort
    fun a b => b.remainder ≤ a.remainder

/-- The exact shares of a total rounded down, and what is left of it given to the largest
remainders. -/
def apportionLargestRemainder (total : Int) (exact : List ℚ) : List Int :=
  let parts := exact.map floorRat
  let left := total - parts.sum
  ((sortedShares exact).take left.toNat).foldl
    (fun parts share => parts.modify share.index (· + 1)) parts

def exactShares (total : Int) (ratios : List Decimal) : List ℚ :=
  let rats := ratios.map Decimal.val
  rats.map fun r => total * r / rats.sum

def largestRemainder (m : Money) (ratios : List Decimal) : List Money :=
  match m.minorBig lib with
  | .error _ => [] -- `AllocateBy` has checked it
  | .ok total =>
    let parts := apportionLargestRemainder |total| (exactShares |total| ratios)
    parts.map fun p =>
      ⟨⟨if total < 0 then -p else p, -m.currency.minorUnits⟩, m.currency⟩

/-! ## Half up, the rest to the last -/

def halfUpLastRemainderPrecision : Int := 28

/-- The shares of an amount in the ratios, to `halfUpLastRemainderPrecision` places. -/
def roundedShares (amount : Decimal) (ratios : List Decimal) : List Decimal :=
  let sum := ratios.foldl lib.add lib.zero
  ratios.map fun r => lib.divRound (lib.mul amount r) sum halfUpLastRemainderPrecision

/-- The share that is over its exact value by the most, the later one of two, as the inner loop
finds it. -/
def bestExcess (first exact : List Decimal) : Option (Nat × Decimal) :=
  (first.zip exact).zipIdx.foldl (fun best e =>
    let excess := lib.sub e.1.1 e.1.2
    if lib.isPositive excess ∧ (best.all fun b => lib.greaterThanOrEqual excess b.2) then
      some (e.2, excess)
    else best) none

/-- How many units the last share is below zero, at most. -/
def missing (places : Nat) (last : Decimal) : Nat := ⌈-last.val * 10 ^ places⌉.toNat

theorem missing_lt {places : Nat} {last : Decimal} (h : lib.isNegative last) :
    missing places (lib.add last ⟨1, -places⟩) < missing places last := by
  have hneg := (lib.isNegative_iff last).mp h
  have hunit : (⟨1, -places⟩ : Decimal).val * 10 ^ places = 1 := by
    simp [Decimal.val]
  have hpos : 0 < -last.val * 10 ^ places := mul_pos (by linarith) (by positivity)
  have hval : -(lib.add last ⟨1, -places⟩).val * 10 ^ places = -last.val * 10 ^ places - 1 := by
    rw [lib.val_add]
    linarith
  have := Int.ceil_pos.mpr hpos
  rw [missing, missing, hval, Int.ceil_sub_one]
  omega

/-- Units are taken back until the last share is not negative. The flag tells the `break`: no share
is over its exact value. Every turn adds a unit to the last share. -/
def takeBack (places : Nat) (exact first : List Decimal) (last : Decimal) : List Decimal × Bool :=
  if _h : lib.isNegative last then
    match bestExcess lib first exact with
    | none => (first ++ [last], true)
    | some (i, _) =>
      takeBack places exact (first.modify i (lib.sub · ⟨1, -places⟩)) (lib.add last ⟨1, -places⟩)
  else (first ++ [last], false)
termination_by missing places last
decreasing_by exact missing_lt lib _h

/-- `halfUpLastRemainder` of an amount that is not negative. -/
def halfUpNonneg (m : Money) (ratios : List Decimal) : List Money × Bool :=
  let places := m.currency.minorUnits
  let exact := roundedShares lib m.amount ratios
  let first := exact.dropLast.map (lib.round · places)
  let shares := takeBack lib places exact first (lib.sub m.amount (first.foldl lib.add lib.zero))
  (shares.1.map (⟨·, m.currency⟩), shares.2)

/-- The parts, and whether the loop took its `break`. -/
def halfUpLastRemainder (m : Money) (ratios : List Decimal) : List Money × Bool :=
  if lib.isNegative m.amount then
    let parts := (m.neg lib).halfUpNonneg lib ratios
    (parts.1.map (neg lib), parts.2)
  else m.halfUpNonneg lib ratios

def allocateBy (m : Money) (method : AllocationMethod) (ratios : List Decimal) :
    Except Err (List Money) := do
  let _ ← m.minorBig lib
  checkRatios lib ratios
  match method with
  | .largestRemainder => pure (m.largestRemainder lib ratios)
  | .halfUpLastRemainder => pure (m.halfUpLastRemainder lib ratios).1
  | .other code => throw (.unknownMethod code)

/-! ## Units and ratios as the results state them -/

def unit (m : Money) : ℚ := 10 ^ (-(m.currency.minorUnits : Int))

theorem unit_pos (m : Money) : 0 < m.unit := ten_zpow_pos _

def Whole (m : Money) (k : Int) : Prop := m.amount.val = k * m.unit

/-- Some ratios, none negative and not all zero. -/
structure ValidRatios (ratios : List Decimal) : Prop where
  nonneg : ∀ r ∈ ratios, 0 ≤ r.val
  pos : ∃ r ∈ ratios, 0 < r.val

theorem checkRatiosFrom_ok_iff {positive : Bool} {i : Nat} :
    checkRatiosFrom lib positive i ratios = .ok () ↔
      (∀ r ∈ ratios, 0 ≤ r.val) ∧ (positive = true ∨ ∃ r ∈ ratios, 0 < r.val) := by
  induction ratios generalizing positive i with
  | nil => cases positive <;> simp [checkRatiosFrom]
  | cons r rest ih =>
    rw [checkRatiosFrom]
    by_cases hneg : lib.isNegative r = true
    · have hval := (lib.isNegative_iff r).mp hneg
      simp [hneg, hval]
    · have hval : 0 ≤ r.val := by simpa using hneg
      simp [hneg, ih, hval, or_assoc]

theorem checkRatios_ok_iff :
    checkRatios lib ratios = .ok () ↔ ValidRatios ratios := by
  unfold checkRatios
  by_cases hnil : ratios = []
  · subst hnil
    simp only [↓reduceIte, reduceCtorEq, false_iff]
    rintro ⟨-, r, hr, -⟩
    cases hr
  · rw [if_neg hnil, checkRatiosFrom_ok_iff]
    simp only [Bool.false_eq_true, false_or]
    exact ⟨fun h => ⟨h.1, h.2⟩, fun h => ⟨h.nonneg, h.pos⟩⟩

theorem ValidRatios.sum_pos (h : ValidRatios ratios) :
    0 < (ratios.map Decimal.val).sum := by
  obtain ⟨r, hr, hpos⟩ := h.pos
  have hnonneg : ∀ x ∈ ratios.map Decimal.val, 0 ≤ x := by
    simpa using h.nonneg
  exact hpos.trans_le (List.single_le_sum hnonneg _ (List.mem_map_of_mem hr))

end Money

end GoAtlas
