import Mathlib.Algebra.Order.Ring.Int
import Mathlib.Tactic.SplitIfs

/-!
# The proleptic Gregorian calendar

Days are counted from 1 January of the year 1, which is day 0. A date has one day number and every
number is that of one date; later dates have higher numbers.
-/

namespace GoAtlas.Lib.Gregorian

def isLeap (y : Int) : Bool := y % 4 = 0 ∧ (y % 100 ≠ 0 ∨ y % 400 = 0)

/-- 1 in a leap year. -/
def leapDay (y : Int) : Int := if isLeap y then 1 else 0

def monthLength (y m : Int) : Int :=
  if m = 2 then 28 + leapDay y
  else if m = 4 ∨ m = 6 ∨ m = 9 ∨ m = 11 then 30
  else 31

def daysBeforeYear (y : Int) : Int := 365 * (y - 1) + (y - 1) / 4 - (y - 1) / 100 + (y - 1) / 400

/-- Within the year. From March on the lengths of the months are 31, 30, 31, 30, 31 and again. -/
def daysBeforeMonth (y m : Int) : Int :=
  if m ≤ 2 then 31 * (m - 1) else 59 + leapDay y + (153 * (m - 3) + 2) / 5

def dayNumber (y m d : Int) : Int := daysBeforeYear y + daysBeforeMonth y m + (d - 1)

structure IsDate (y m d : Int) : Prop where
  one_le_month : 1 ≤ m
  month_le : m ≤ 12
  one_le_day : 1 ≤ d
  day_le : d ≤ monthLength y m

/-- The year of a day: cycles of 400, of 100, of 4 years and of one, of which the last one of a 400
and of a 4 is longer. -/
def yearOf (n : Int) : Int :=
  let r := n % 146097
  let n100 := min 3 (r / 36524)
  let r := r - 36524 * n100
  let n4 := r / 1461
  let r := r - 1461 * n4
  400 * (n / 146097) + 100 * n100 + 4 * n4 + min 3 (r / 365) + 1

/-- The month of the day `r` of a year. -/
def monthOf (y r : Int) : Int :=
  if r < 31 then 1
  else if r < 59 + leapDay y then 2
  else (5 * (r - 59 - leapDay y) + 2) / 153 + 3

/-- Year, month and day of a day number. -/
def ofDayNumber (n : Int) : Int × Int × Int :=
  let y := yearOf n
  let r := n - daysBeforeYear y
  (y, monthOf y r, r - daysBeforeMonth y (monthOf y r) + 1)

variable {y m d y' m' d' n r : Int}

theorem isLeap_iff : isLeap y = true ↔ y % 4 = 0 ∧ (y % 100 ≠ 0 ∨ y % 400 = 0) := by
  simp [isLeap]

theorem leapDay_eq : leapDay y = 1 ∧ y % 4 = 0 ∧ (y % 100 ≠ 0 ∨ y % 400 = 0) ∨
    leapDay y = 0 ∧ ¬ (y % 4 = 0 ∧ (y % 100 ≠ 0 ∨ y % 400 = 0)) := by
  unfold leapDay
  split
  · rename_i h
    exact .inl ⟨rfl, isLeap_iff.mp h⟩
  · rename_i h
    exact .inr ⟨rfl, fun h' => h (isLeap_iff.mpr h')⟩

theorem daysBeforeYear_succ (y : Int) :
    daysBeforeYear (y + 1) = daysBeforeYear y + 365 + leapDay y := by
  have := leapDay_eq (y := y)
  unfold daysBeforeYear
  omega

theorem daysBeforeYear_mono (h : y ≤ y') : daysBeforeYear y ≤ daysBeforeYear y' := by
  unfold daysBeforeYear
  omega

theorem leapDay_bounds (y : Int) : 0 ≤ leapDay y ∧ leapDay y ≤ 1 := by
  have := leapDay_eq (y := y)
  omega

theorem daysBeforeMonth_succ (hlo : 1 ≤ m) (hhi : m < 12) :
    daysBeforeMonth y (m + 1) = daysBeforeMonth y m + monthLength y m := by
  have hm : m = 1 ∨ m = 2 ∨ m = 3 ∨ m = 4 ∨ m = 5 ∨ m = 6 ∨ m = 7 ∨ m = 8 ∨ m = 9 ∨ m = 10 ∨
      m = 11 := by omega
  rcases hm with rfl | rfl | rfl | rfl | rfl | rfl | rfl | rfl | rfl | rfl | rfl <;>
    simp [daysBeforeMonth, monthLength] <;> omega

theorem daysBeforeMonth_twelve (y : Int) :
    daysBeforeMonth y 12 + monthLength y 12 = 365 + leapDay y := by
  simp only [daysBeforeMonth, monthLength]
  omega

theorem monthLength_ge (y m : Int) : 28 ≤ monthLength y m := by
  have := leapDay_bounds y
  unfold monthLength
  split
  · omega
  · split <;> omega

theorem daysBeforeMonth_add_le (hlo : 1 ≤ m) (hhi : m' ≤ 12) (h : m < m') :
    daysBeforeMonth y m + monthLength y m ≤ daysBeforeMonth y m' := by
  have hstep : ∀ k, m + 1 ≤ k → k ≤ 12 → daysBeforeMonth y (m + 1) ≤ daysBeforeMonth y k := by
    intro k hk
    induction k, hk using Int.leInduction with
    | base => exact fun _ => Int.le_refl _
    | succ k hk ih =>
      intro hle
      have := monthLength_ge y k
      have := daysBeforeMonth_succ (y := y) (m := k) (by omega) (by omega)
      have := ih (by omega)
      omega
  rw [← daysBeforeMonth_succ hlo (by omega)]
  exact hstep m' (by omega) hhi

theorem IsDate.bounds (h : IsDate y m d) :
    daysBeforeYear y ≤ dayNumber y m d ∧ dayNumber y m d < daysBeforeYear (y + 1) := by
  obtain ⟨h1, h2, h3, h4⟩ := h
  have hleap := leapDay_bounds y
  rw [daysBeforeYear_succ, dayNumber]
  have hstart : 0 ≤ daysBeforeMonth y m := by
    unfold daysBeforeMonth
    split <;> omega
  have hend : daysBeforeMonth y m + monthLength y m ≤ 365 + leapDay y := by
    rcases Int.lt_or_eq_of_le h2 with hlt | rfl
    · have hle := daysBeforeMonth_add_le (y := y) h1 (Int.le_refl 12) hlt
      have htwelve := daysBeforeMonth_twelve y
      have := monthLength_ge y 12
      omega
    · exact Int.le_of_eq (daysBeforeMonth_twelve y)
  omega

theorem dayNumber_lt (h : IsDate y m d) (h' : IsDate y' m' d')
    (hlt : y < y' ∨ y = y' ∧ (m < m' ∨ m = m' ∧ d < d')) :
    dayNumber y m d < dayNumber y' m' d' := by
  rcases hlt with hy | ⟨rfl, hm | ⟨rfl, hd⟩⟩
  · have hmono := daysBeforeYear_mono (show y + 1 ≤ y' by omega)
    have := h.bounds
    have := h'.bounds
    omega
  · have hle := daysBeforeMonth_add_le (y := y) h.one_le_month h'.month_le hm
    have := h.day_le
    have := h'.one_le_day
    unfold dayNumber
    omega
  · unfold dayNumber
    omega

theorem dayNumber_inj (h : IsDate y m d) (h' : IsDate y' m' d')
    (heq : dayNumber y m d = dayNumber y' m' d') :
    y = y' ∧ m = m' ∧ d = d' := by
  by_contra hne
  rcases Int.lt_trichotomy y y' with hy | hy | hy
  · exact absurd heq (Int.ne_of_lt (dayNumber_lt h h' (.inl hy)))
  · rcases Int.lt_trichotomy m m' with hm | hm | hm
    · exact absurd heq (Int.ne_of_lt (dayNumber_lt h h' (.inr ⟨hy, .inl hm⟩)))
    · rcases Int.lt_trichotomy d d' with hd | hd | hd
      · exact absurd heq (Int.ne_of_lt (dayNumber_lt h h' (.inr ⟨hy, .inr ⟨hm, hd⟩⟩)))
      · exact hne ⟨hy, hm, hd⟩
      · exact absurd heq.symm
          (Int.ne_of_lt (dayNumber_lt h' h (.inr ⟨hy.symm, .inr ⟨hm.symm, hd⟩⟩)))
    · exact absurd heq.symm (Int.ne_of_lt (dayNumber_lt h' h (.inr ⟨hy.symm, .inl hm⟩)))
  · exact absurd heq.symm (Int.ne_of_lt (dayNumber_lt h' h (.inl hy)))

/-! ## Back to dates -/

theorem daysBeforeYear_cycles {a b c e : Int} (hb : 0 ≤ b ∧ b ≤ 3) (hc : 0 ≤ c ∧ c ≤ 24)
    (he : 0 ≤ e ∧ e ≤ 3) :
    daysBeforeYear (400 * a + 100 * b + 4 * c + e + 1) =
      146097 * a + 36524 * b + 1461 * c + 365 * e := by
  have h4 : (400 * a + 100 * b + 4 * c + e + 1 - 1) / 4 = 100 * a + 25 * b + c := by omega
  have h100 : (400 * a + 100 * b + 4 * c + e + 1 - 1) / 100 = 4 * a + b := by omega
  have h400 : (400 * a + 100 * b + 4 * c + e + 1 - 1) / 400 = a := by omega
  rw [daysBeforeYear, h4, h100, h400]
  omega

theorem yearOf_spec (n : Int) :
    daysBeforeYear (yearOf n) ≤ n ∧ n < daysBeforeYear (yearOf n + 1) := by
  obtain ⟨a, ha⟩ : ∃ a, n / 146097 = a := ⟨_, rfl⟩
  obtain ⟨r, hr⟩ : ∃ r, n % 146097 = r := ⟨_, rfl⟩
  obtain ⟨b, hb⟩ : ∃ b, min 3 (r / 36524) = b := ⟨_, rfl⟩
  obtain ⟨c, hc⟩ : ∃ c, (r - 36524 * b) / 1461 = c := ⟨_, rfl⟩
  obtain ⟨e, he⟩ : ∃ e, min 3 ((r - 36524 * b - 1461 * c) / 365) = e := ⟨_, rfl⟩
  have hyear : yearOf n = 400 * a + 100 * b + 4 * c + e + 1 := by
    simp only [yearOf, ha, hr, hb, hc, he]
  have hn : n = 146097 * a + r := by omega
  have hb' : 0 ≤ b ∧ b ≤ 3 ∧ 0 ≤ r - 36524 * b ∧
      (r - 36524 * b < 36524 ∨ b = 3 ∧ r - 36524 * b = 36524) := by omega
  clear hb hr ha
  have hc' : 0 ≤ c ∧ c ≤ 24 ∧ 0 ≤ r - 36524 * b - 1461 * c ∧
      r - 36524 * b - 1461 * c < 1461 := by omega
  have he' : 0 ≤ e ∧ e ≤ 3 ∧ 0 ≤ r - 36524 * b - 1461 * c - 365 * e ∧
      (r - 36524 * b - 1461 * c - 365 * e < 365 ∨ e = 3 ∧ r - 36524 * b - 1461 * c - 365 * e =
        365) := by omega
  clear hc he
  rw [daysBeforeYear_succ, hyear, daysBeforeYear_cycles ⟨hb'.1, hb'.2.1⟩ ⟨hc'.1, hc'.2.1⟩
    ⟨he'.1, he'.2.1⟩]
  have hleap := leapDay_eq (y := 400 * a + 100 * b + 4 * c + e + 1)
  refine ⟨by omega, ?_⟩
  rcases he'.2.2.2 with hlt | ⟨he3, hlast⟩
  · omega
  · -- the last day of a cycle of four years: the year is a leap year
    have hfour : (400 * a + 100 * b + 4 * c + e + 1) % 4 = 0 := by omega
    have hcentury : c ≠ 24 ∨ b = 3 := by omega
    have hlong : (400 * a + 100 * b + 4 * c + e + 1) % 100 ≠ 0 ∨
        (400 * a + 100 * b + 4 * c + e + 1) % 400 = 0 := by omega
    omega

theorem monthOf_spec (hlo : 0 ≤ r) (hhi : r < 365 + leapDay y) :
    1 ≤ monthOf y r ∧ monthOf y r ≤ 12 ∧ daysBeforeMonth y (monthOf y r) ≤ r ∧
      r < daysBeforeMonth y (monthOf y r) + monthLength y (monthOf y r) := by
  have := leapDay_bounds y
  unfold monthOf
  split
  · simp only [daysBeforeMonth, monthLength]
    omega
  · split
    · simp only [daysBeforeMonth, monthLength]
      omega
    · obtain ⟨k, hk⟩ : ∃ k, (5 * (r - 59 - leapDay y) + 2) / 153 = k := ⟨_, rfl⟩
      rw [hk]
      have hcases : k = 0 ∨ k = 1 ∨ k = 2 ∨ k = 3 ∨ k = 4 ∨ k = 5 ∨ k = 6 ∨ k = 7 ∨ k = 8 ∨
          k = 9 := by omega
      rcases hcases with rfl | rfl | rfl | rfl | rfl | rfl | rfl | rfl | rfl | rfl <;>
        · simp only [daysBeforeMonth, monthLength]
          omega

theorem isDate_ofDayNumber (n : Int) :
    IsDate (ofDayNumber n).1 (ofDayNumber n).2.1 (ofDayNumber n).2.2 ∧
      dayNumber (ofDayNumber n).1 (ofDayNumber n).2.1 (ofDayNumber n).2.2 = n := by
  obtain ⟨hlo, hhi⟩ := yearOf_spec n
  rw [daysBeforeYear_succ] at hhi
  obtain ⟨h1, h2, h3, h4⟩ :=
    monthOf_spec (y := yearOf n) (r := n - daysBeforeYear (yearOf n)) (by omega) (by omega)
  refine ⟨⟨h1, h2, ?_, ?_⟩, ?_⟩
  · simp only [ofDayNumber]
    omega
  · simp only [ofDayNumber]
    omega
  · simp only [ofDayNumber, dayNumber]
    omega

theorem ofDayNumber_dayNumber (h : IsDate y m d) : ofDayNumber (dayNumber y m d) = (y, m, d) := by
  obtain ⟨hdate, hnum⟩ := isDate_ofDayNumber (dayNumber y m d)
  obtain ⟨hy, hm, hd⟩ := dayNumber_inj hdate h hnum
  exact Prod.ext hy (Prod.ext hm hd)

end GoAtlas.Lib.Gregorian
