import Mathlib.Algebra.Order.Group.Int
import Mathlib.Algebra.Order.Ring.Int
import Mathlib.Order.Lattice

/-!
# Instants

An instant is a number of seconds since the first of January of year 1, in 64 bits, and nanoseconds.
A Unix time is counted from 1970 instead; the change of origin wraps around. The difference of two
instants is a number of nanoseconds in 64 bits, and is the largest or the smallest such number if it
does not fit.
-/

namespace GoAtlas.Lib

/-- A sum or difference as 64 bits hold it. -/
def wrap64 (n : Int) : Int := n.bmod (2 ^ 64)

theorem wrap64_of_range {n : Int} (hlo : -2 ^ 63 ≤ n) (hhi : n < 2 ^ 63) : wrap64 n = n := by
  unfold wrap64
  rw [Int.bmod_eq_of_le] <;> omega

theorem wrap64_of_ge {n : Int} (hlo : 2 ^ 63 ≤ n) (hhi : n < 2 ^ 64 + 2 ^ 63) :
    wrap64 n = n - 2 ^ 64 := by
  have hwrap : wrap64 n = wrap64 (n - 2 ^ 64) := by
    unfold wrap64
    exact (Int.sub_bmod_right n (2 ^ 64)).symm
  rw [hwrap, wrap64_of_range] <;> omega

theorem wrap64_range (n : Int) : -2 ^ 63 ≤ wrap64 n ∧ wrap64 n < 2 ^ 63 := by
  unfold wrap64
  have hlo := @Int.le_bmod n (2 ^ 64) (by decide)
  have hhi := @Int.bmod_lt n (2 ^ 64) (by decide)
  omega

def maxDuration : Int := 2 ^ 63 - 1

def minDuration : Int := -2 ^ 63

structure Instant where
  sec : Int
  nsec : Nat
  nsec_lt : nsec < 10 ^ 9
  deriving DecidableEq

/-- The seconds from year 1 to 1970. -/
def unixToInternal : Int := 62135596800

namespace Instant

def zero : Instant := ⟨0, 0, by decide⟩

def isZero (i : Instant) : Bool := i.sec = 0 && i.nsec = 0

def ofUnix (t : Int) : Instant := ⟨wrap64 (t + unixToInternal), 0, by decide⟩

def unix (i : Instant) : Int := wrap64 (i.sec - unixToInternal)

def nanos (i : Instant) : Int := i.sec * 10 ^ 9 + i.nsec

/-- Nanoseconds since 1970, exactly. -/
def unixNanos (i : Instant) : Int := i.nanos - unixToInternal * 10 ^ 9

def sub (i j : Instant) : Int := max minDuration (min maxDuration (i.nanos - j.nanos))

theorem unix_range (i : Instant) : -2 ^ 63 ≤ i.unix ∧ i.unix < 2 ^ 63 := wrap64_range _

theorem unix_ofUnix {t : Int} (hlo : -2 ^ 63 ≤ t) (hhi : t < 2 ^ 63) : (ofUnix t).unix = t := by
  simp only [ofUnix, unix]
  by_cases hwrap : t + unixToInternal < 2 ^ 63
  · rw [wrap64_of_range (n := t + unixToInternal) (by simp only [unixToInternal]; omega) hwrap,
      Int.add_sub_cancel, wrap64_of_range hlo hhi]
  · rw [wrap64_of_ge (n := t + unixToInternal) (by omega) (by simp only [unixToInternal]; omega)]
    have hback : wrap64 (t + unixToInternal - 2 ^ 64 - unixToInternal) = wrap64 t := by
      have heq : t + unixToInternal - 2 ^ 64 - unixToInternal = t - 2 ^ 64 := by omega
      rw [heq]
      exact Int.sub_bmod_right t (2 ^ 64)
    rw [hback, wrap64_of_range hlo hhi]

theorem isZero_ofUnix {t : Int} (hlo : -2 ^ 63 ≤ t) (hhi : t < 2 ^ 63) :
    (ofUnix t).isZero = true ↔ t = -unixToInternal := by
  constructor
  · intro h
    have hsec : (ofUnix t).sec = 0 := by
      simp only [isZero, Bool.and_eq_true, decide_eq_true_eq] at h
      exact h.1
    have hback := unix_ofUnix hlo hhi
    rw [unix, hsec] at hback
    rw [← hback]
    decide
  · rintro rfl
    decide

end Instant

end GoAtlas.Lib
