import Mathlib.Data.Rat.Cast.Order
import Mathlib.Tactic.Positivity

/-!
# IEEE 754 binary64 by bit pattern

A `Double` is its 64 bits. Every finite value is an integer multiple of `2 ^ (-1074)`, so
`scaled` (the value times `2 ^ 1074`) is an exact integer and comparisons are comparisons of
integers. `ofInt` rounds to nearest, ties to even.
-/

namespace GoAtlas.Lib

structure Double where
  bits : BitVec 64
  deriving DecidableEq, Repr

namespace Double

def neg (d : Double) : Bool := decide (2 ^ 63 ≤ d.bits.toNat)

def expField (d : Double) : Nat := d.bits.toNat / 2 ^ 52 % 2 ^ 11

def fracField (d : Double) : Nat := d.bits.toNat % 2 ^ 52

def isNaN (d : Double) : Bool := d.expField == 2047 && d.fracField != 0

def isInf (d : Double) : Bool := d.expField == 2047 && d.fracField == 0

/-- The magnitude times `2 ^ 1074`; an infinity counts as the next power of two. -/
def mag (d : Double) : Nat :=
  if d.expField = 0 then d.fracField
  else if d.isInf then 2 ^ 2098
  else (2 ^ 52 + d.fracField) * 2 ^ (d.expField - 1)

/-- The value times `2 ^ 1074`, infinities beyond every finite value. -/
def scaled (d : Double) : Int := if d.neg then -(d.mag : Int) else d.mag

/-- Three-way comparison; `none` when either side is NaN. -/
def compare (a b : Double) : Option Ordering :=
  if a.isNaN || b.isNaN then none else some (Ord.compare a.scaled b.scaled)

/-- Round a positive magnitude to 53 bits, ties to even: the significand and the exponent. -/
def round53 (m : Nat) : Nat × Nat :=
  let e := m.log2
  if e ≤ 52 then (m * 2 ^ (52 - e), e)
  else
    let q := m / 2 ^ (e - 52)
    let r := m % 2 ^ (e - 52)
    let half := 2 ^ (e - 53)
    let q' := if half < r ∨ (r = half ∧ q % 2 = 1) then q + 1 else q
    if q' = 2 ^ 53 then (2 ^ 52, e + 1) else (q', e)

/-- `float64(i)` of an integer of at most 64 bits. -/
def ofInt (i : Int) : Double :=
  if i = 0 then ⟨0⟩
  else
    let (q, e) := round53 i.natAbs
    ⟨BitVec.ofNat 64 ((if i < 0 then 2 ^ 63 else 0) + (e + 1023) * 2 ^ 52 + (q - 2 ^ 52))⟩

end Double

end GoAtlas.Lib
