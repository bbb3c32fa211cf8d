import GoAtlas.Lib.Gregorian
import GoAtlas.Lib.Numeral
import Mathlib.Data.Nat.Digits.Lemmas

/-!
# Civil dates

`civil.Date`: a calendar date without a time zone, in years 1 to 9999. An instant of `time.Time` at
midnight UTC is the number of its day, and `time.Date` brings months and days that are out of range
into it.
-/

namespace GoAtlas.Civil

open Lib Lib.Gregorian

def minYear : Int := 1

def maxYear : Int := 9999

def monthsPerYear : Int := 12

def secondsPerDay : Int := 24 * 60 * 60

def maxDaySpan : Int := 3652059

def maxMonthSpan : Int := maxYear * monthsPerYear

structure Date where
  year : Int
  month : Int
  day : Int
  deriving DecidableEq

inductive Error where
  | invalidDate (year month day : Int)
  | invalidText (s : Bytes)
  deriving DecidableEq

/-! ## Instants -/

/-- `time.Date(y, m, d, 0, 0, 0, 0, time.UTC)`. -/
def timeDate (y m d : Int) : Int := dayNumber (y + (m - 1) / 12) ((m - 1) % 12 + 1) d

/-- `Of`. -/
def ofTime (t : Int) : Date := ⟨(ofDayNumber t).1, (ofDayNumber t).2.1, (ofDayNumber t).2.2⟩

/-- `t.Unix()`. -/
def unix (t : Int) : Int := t * secondsPerDay - 62135596800

/-- `t.AddDate(0, 0, n)`. -/
def addDate (t n : Int) : Int := timeDate (ofTime t).year (ofTime t).month ((ofTime t).day + n)

def daysIn (y m : Int) : Int := (ofTime (timeDate y (m + 1) 0)).day

namespace Date

def zero : Date := ⟨0, 0, 0⟩

def isZero (d : Date) : Bool := d = zero

def valid (d : Date) : Bool :=
  if d.year < minYear ∨ maxYear < d.year ∨ d.month < 1 ∨ 12 < d.month ∨ d.day < 1 then false
  else d.day ≤ daysIn d.year d.month

def time (d : Date) : Int := timeDate d.year d.month d.day

end Date

def new (year month day : Int) : Except Error Date :=
  if (Date.mk year month day).valid then .ok ⟨year, month, day⟩
    else .error (.invalidDate year month day)

/-! ## Texts -/

def dash : UInt8 := 45

def zeroDigit : UInt8 := 48

/-- A number with zeros in front, at least `width` wide. -/
def padded (width n : Nat) : Bytes :=
  List.replicate (width - (decimal n).length) zeroDigit ++ decimal n

/-- `%04d` and `%02d`; a sign takes a place. -/
def formatted (width : Nat) (n : Int) : Bytes :=
  if n < 0 then dash :: padded (width - 1) n.natAbs else padded width n.natAbs

def Date.string (d : Date) : Bytes :=
  if d.isZero then [] else formatted 4 d.year ++ [dash] ++ formatted 2 d.month ++ [dash] ++
    formatted 2 d.day

/-- A number of `width` digits and what follows it. -/
def getnum (width : Nat) (s : Bytes) : Option (Nat × Bytes) :=
  if width ≤ s.length then (parseDigits (s.take width) 0).map (·, s.drop width) else none

def skipDash (s : Bytes) : Option Bytes := if s.head? = some dash then some s.tail else none

/-- `time.Parse` of the layout `2006-01-02`. -/
def timeParse (s : Bytes) : Option Int := do
  let year ← getnum 4 s
  let s ← skipDash year.2
  let month ← getnum 2 s
  let s ← skipDash month.2
  let day ← getnum 2 s
  if day.2 = [] ∧ 1 ≤ month.1 ∧ month.1 ≤ 12 ∧ 1 ≤ day.1 ∧
    (day.1 : Int) ≤ daysIn year.1 month.1 then
    some (timeDate year.1 month.1 day.1)
  else none

def parse (s : Bytes) : Except Error Date :=
  if s = [] then .ok .zero
  else (timeParse s).elim (.error (.invalidText s)) fun t => new (ofTime t).year (ofTime t).month
    (ofTime t).day

/-- `strings.Compare`: byte by byte. -/
def textCompare : Bytes → Bytes → Int
  | [], [] => 0
  | [], _ :: _ => -1
  | _ :: _, [] => 1
  | a :: as, b :: bs => if a < b then -1 else if b < a then 1 else textCompare as bs

/-! ## Order and arithmetic -/

def cmpInt (a b : Int) : Int := if a < b then -1 else if b < a then 1 else 0

namespace Date

def compare (d o : Date) : Int :=
  if d.year ≠ o.year then cmpInt d.year o.year
  else if d.month ≠ o.month then cmpInt d.month o.month
  else cmpInt d.day o.day

def inRange (d : Date) : Date := if d.year < minYear ∨ maxYear < d.year then zero else d

def addDays (d : Date) (n : Int) : Date :=
  if !d.valid ∨ maxDaySpan < n ∨ n < -maxDaySpan then zero else (ofTime (addDate d.time n)).inRange

def daysSince (d o : Date) : Int :=
  if d.isZero ∨ o.isZero then 0 else (unix d.time - unix o.time).tdiv secondsPerDay

def addMonthsClamped (d : Date) (n anchorDay : Int) : Date :=
  if !d.valid ∨ maxMonthSpan < n ∨ n < -maxMonthSpan then zero
  else
    let total := d.year * monthsPerYear + d.month - 1 + n
    if total < minYear * monthsPerYear ∨ (maxYear + 1) * monthsPerYear ≤ total then zero
    else
      let y := total / monthsPerYear
      let m := total % monthsPerYear + 1
      ⟨y, m, max 1 (min anchorDay (daysIn y m))⟩

end Date

/-! ## The calendar -/

variable {d o : Date} {y m : Int}

theorem timeDate_eq (hlo : 1 ≤ m) (hhi : m ≤ 12) (day : Int) :
    timeDate y m day = dayNumber y m day := by
  have hq : (m - 1) / 12 = 0 := by omega
  have hr : (m - 1) % 12 + 1 = m := by omega
  rw [timeDate, hq, hr, Int.add_zero]

theorem daysIn_eq (hlo : 1 ≤ m) (hhi : m ≤ 12) : daysIn y m = monthLength y m := by
  have hlen := monthLength_ge y m
  have hlast : timeDate y (m + 1) 0 = dayNumber y m (monthLength y m) := by
    rcases Int.lt_or_eq_of_le hhi with hlt | rfl
    · rw [timeDate_eq (by omega) (by omega), dayNumber, dayNumber, daysBeforeMonth_succ hlo hlt]
      omega
    · have hnext : timeDate y (12 + 1) 0 = dayNumber (y + 1) 1 0 := rfl
      have hfirst : daysBeforeMonth (y + 1) 1 = 0 := rfl
      have htwelve := daysBeforeMonth_twelve y
      rw [hnext, dayNumber, dayNumber, daysBeforeYear_succ, hfirst]
      omega
  rw [daysIn, hlast, ofTime, ofDayNumber_dayNumber ⟨hlo, hhi, by omega, Int.le_refl _⟩]

theorem Date.valid_iff :
    d.valid = true ↔ minYear ≤ d.year ∧ d.year ≤ maxYear ∧ IsDate d.year d.month d.day := by
  unfold Date.valid
  constructor
  · intro h
    split at h
    · cases h
    · rename_i hrange
      simp only [not_or, Int.not_lt] at hrange
      obtain ⟨h1, h2, h3, h4, h5⟩ := hrange
      rw [decide_eq_true_iff, daysIn_eq h3 h4] at h
      exact ⟨h1, h2, h3, h4, h5, h⟩
  · rintro ⟨h1, h2, h3, h4, h5, h6⟩
    rw [if_neg (by omega), decide_eq_true_iff, daysIn_eq h3 h4]
    exact h6

theorem Date.isDate (h : d.valid = true) : IsDate d.year d.month d.day := (Date.valid_iff.mp h).2.2

theorem Date.isZero_of_valid (h : d.valid = true) : d.isZero = false := by
  have := (Date.isDate h).one_le_day
  simp only [Date.isZero, decide_eq_false_iff_not]
  rintro rfl
  exact absurd this (by decide)

theorem Date.time_eq (h : d.valid = true) : d.time = dayNumber d.year d.month d.day :=
  timeDate_eq (Date.isDate h).one_le_month (Date.isDate h).month_le _

theorem ofTime_time (h : d.valid = true) : ofTime d.time = d := by
  rw [Date.time_eq h, ofTime, ofDayNumber_dayNumber (Date.isDate h)]

theorem addDate_time (h : d.valid = true) (n : Int) : addDate d.time n = d.time + n := by
  have hdate := Date.isDate h
  rw [addDate, ofTime_time h, timeDate_eq hdate.one_le_month hdate.month_le, Date.time_eq h,
    dayNumber, dayNumber]
  omega

theorem daysSince_eq (hd : d.valid = true) (ho : o.valid = true) :
    d.daysSince o = d.time - o.time := by
  have hdiff : unix d.time - unix o.time = (d.time - o.time) * secondsPerDay := by
    unfold unix secondsPerDay
    omega
  rw [Date.daysSince, if_neg (by simp [Date.isZero_of_valid hd, Date.isZero_of_valid ho]), hdiff]
  exact Int.mul_tdiv_cancel _ (by decide)

theorem time_bounds (h : d.valid = true) : 0 ≤ d.time ∧ d.time < maxDaySpan := by
  obtain ⟨hlo, hhi, hdate⟩ := Date.valid_iff.mp h
  have hbounds := hdate.bounds
  have hfirst := daysBeforeYear_mono (y := minYear) hlo
  have hlast := daysBeforeYear_mono (show d.year + 1 ≤ maxYear + 1 by omega)
  have hzero : daysBeforeYear minYear = 0 := by decide
  have hspan : daysBeforeYear (maxYear + 1) = maxDaySpan := by decide
  rw [Date.time_eq h]
  omega

theorem addDays_daysSince (hd : d.valid = true) (ho : o.valid = true) :
    d.addDays (o.daysSince d) = o := by
  have := time_bounds hd
  have := time_bounds ho
  obtain ⟨hlo, hhi, -⟩ := Date.valid_iff.mp ho
  rw [daysSince_eq ho hd, Date.addDays, if_neg (by simp only [hd]; simp; omega), addDate_time hd]
  rw [show d.time + (o.time - d.time) =
    o.time by omega, ofTime_time ho, Date.inRange, if_neg (by omega)]

theorem cmpInt_congr {a b x y : Int} (hlt : a < b → x < y) (heq : a = b → x = y)
    (hgt : b < a → y < x) :
    cmpInt a b = cmpInt x y := by
  unfold cmpInt
  rcases Int.lt_trichotomy a b with h | h | h
  · rw [if_pos h, if_pos (hlt h)]
  · simp [h, heq h]
  · have := hgt h
    rw [if_neg (by omega), if_pos h, if_neg (by omega), if_pos this]

theorem Date.time_lt {a b : Date} (ha : a.valid = true) (hb : b.valid = true)
    (h : a.year < b.year ∨ a.year = b.year ∧
    (a.month < b.month ∨ a.month = b.month ∧ a.day < b.day)) :
    a.time < b.time := by
  rw [Date.time_eq ha, Date.time_eq hb]
  exact dayNumber_lt (Date.isDate ha) (Date.isDate hb) h

theorem compare_eq (hd : d.valid = true) (ho : o.valid = true) :
    d.compare o = cmpInt d.time o.time := by
  unfold Date.compare
  by_cases hy : d.year = o.year
  · by_cases hm : d.month = o.month
    · rw [if_neg (by simpa using hy), if_neg (by simpa using hm)]
      refine cmpInt_congr (fun h => Date.time_lt hd ho (.inr ⟨hy, .inr ⟨hm, h⟩⟩)) (fun h => ?_)
        fun h => Date.time_lt ho hd (.inr ⟨hy.symm, .inr ⟨hm.symm, h⟩⟩)
      rw [Date.time_eq hd, Date.time_eq ho, hy, hm, h]
    · rw [if_neg (by simpa using hy), if_pos (by simpa using hm)]
      exact cmpInt_congr (fun h => Date.time_lt hd ho (.inr ⟨hy, .inl h⟩)) (fun h => absurd h hm)
        fun h => Date.time_lt ho hd (.inr ⟨hy.symm, .inl h⟩)
  · rw [if_pos (by simpa using hy)]
    exact cmpInt_congr (fun h => Date.time_lt hd ho (.inl h)) (fun h => absurd h hy) fun h =>
      Date.time_lt ho hd (.inl h)

theorem sign_daysSince (hd : d.valid = true) (ho : o.valid = true) :
    (d.daysSince o).sign = d.compare o := by
  rw [daysSince_eq hd ho, compare_eq hd ho, cmpInt]
  split
  · rw [Int.sign_eq_neg_one_of_neg (by omega)]
  · split
    · rw [Int.sign_eq_one_of_pos (by omega)]
    · rw [show d.time - o.time = 0 by omega, Int.sign_zero]

/-! ## Texts of dates -/

theorem parseDigits_append (a b : Bytes) (n : Nat) :
    parseDigits (a ++ b) n = (parseDigits a n).bind (parseDigits b) := by
  induction a generalizing n with
  | nil => rfl
  | cons c a ih =>
    simp only [List.cons_append, parseDigits, ih]
    cases digit? c <;> rfl

theorem parseDigits_padded (width n : Nat) : parseDigits (padded width n) 0 = some n := by
  have hzeros : ∀ k, parseDigits (List.replicate k zeroDigit) 0 = some 0 := by
    intro k
    induction k with
    | zero => rfl
    | succ k ih => exact ih
  have hdecimal := parseNat_decimal n
  rw [parseNat, if_neg (decimal_ne_nil n)] at hdecimal
  rw [padded, parseDigits_append, hzeros, Option.bind_some, hdecimal]

theorem length_padded {width n : Nat} (hwidth : 0 < width) (h : n < 10 ^ width) :
    (padded width n).length = width := by
  have hle : (decimal n).length ≤ width := by
    rw [decimal, List.length_map]
    exact (Nat.length_toDigits_le_iff (by decide) hwidth).mpr h
  rw [padded, List.length_append, List.length_replicate]
  omega

theorem getnum_padded {width n : Nat} (hwidth : 0 < width) (h : n < 10 ^ width) (s : Bytes) :
    getnum width (padded width n ++ s) = some (n, s) := by
  have hlen := length_padded hwidth h
  rw [getnum, if_pos (by rw [List.length_append]; omega), List.take_left' hlen,
    List.drop_left' hlen, parseDigits_padded]
  rfl

structure Fields (d : Date) (y m k : Nat) : Prop where
  year : d.year = y
  month : d.month = m
  day : d.day = k
  year_lt : y < 10 ^ 4
  month_lt : m < 10 ^ 2
  day_lt : k < 10 ^ 2

theorem exists_fields (h : d.valid = true) : ∃ y m k, Fields d y m k := by
  obtain ⟨hlo, hhi, h1, h2, h3, h4⟩ := Date.valid_iff.mp h
  have hlen : monthLength d.year d.month ≤ 31 := by
    have := leapDay_bounds d.year
    unfold monthLength
    split
    · omega
    · split <;> omega
  rw [minYear] at hlo
  rw [maxYear] at hhi
  exact ⟨d.year.toNat, d.month.toNat,
    d.day.toNat, by omega, by omega, by omega, by omega, by omega, by omega⟩

theorem Fields.string_eq {y m k : Nat} (h : Fields d y m k) (hd : d.valid = true) :
    d.string = padded 4 y ++ (dash :: (padded 2 m ++ (dash :: padded 2 k))) := by
  have hnat : ∀ (width n : Nat), formatted width n = padded width n := by
    intro width n
    rw [formatted, if_neg (by omega), Int.natAbs_natCast]
  rw [Date.string, Date.isZero_of_valid hd, h.year, h.month, h.day, hnat, hnat, hnat]
  simp

theorem parse_string (hd : d.valid = true) : parse d.string = .ok d := by
  obtain ⟨y, m, k, h⟩ := exists_fields hd
  obtain ⟨hlo, hhi, hdate⟩ := Date.valid_iff.mp hd
  have hstring := h.string_eq hd
  have hne : d.string ≠ [] := by
    rw [hstring]
    simp
  have hskip : ∀ s, skipDash (dash :: s) = some s := fun s => rfl
  have htime : timeParse d.string = some d.time := by
    have hday := hdate.day_le
    have := hdate.one_le_month
    have := hdate.month_le
    have := hdate.one_le_day
    rw [← daysIn_eq (by omega) (by omega), h.day, h.year, h.month] at hday
    rw [h.month] at *
    rw [h.day] at *
    have hlast := getnum_padded (show 0 < 2 by decide) h.day_lt []
    rw [List.append_nil] at hlast
    simp only [hstring, timeParse, getnum_padded (by decide) h.year_lt, getnum_padded (by decide)
      h.month_lt, hskip, hlast, Option.bind_eq_bind, Option.bind_some]
    rw [if_pos ⟨trivial, by omega, by omega, by omega, hday⟩, Date.time, h.year, h.month, h.day]
  rw [parse, if_neg hne, htime, Option.elim_some, ofTime_time hd, new, if_pos hd]

/-! ### Order of texts -/

theorem textCompare_append {a b : Bytes} (h : a.length = b.length) (x y : Bytes) :
    textCompare (a ++ x) (b ++ y) = if textCompare a b =
      0 then textCompare x y else textCompare a b := by
  induction a generalizing b with
  | nil =>
    obtain rfl := List.eq_nil_of_length_eq_zero h.symm
    rfl
  | cons c a ih =>
    cases b with
    | nil => cases h
    | cons e b =>
      simp only [List.cons_append, textCompare]
      rw [ih (by simpa using h)]
      split
      · rfl
      · split <;> rfl

theorem parseDigits_bounds {s : Bytes} {n v : Nat} (h : parseDigits s n = some v) :
    n * 10 ^ s.length ≤ v ∧ v < (n + 1) * 10 ^ s.length := by
  induction s generalizing n with
  | nil =>
    cases h
    simp
  | cons c s ih =>
    obtain ⟨dig, hdig, hrest⟩ := Option.bind_eq_some_iff.mp h
    have hlt : dig < 10 := by
      rw [digit?, Option.ite_none_right_eq_some] at hdig
      obtain ⟨⟨-, hc⟩, hv⟩ := hdig
      cases hv
      have := UInt8.le_iff_toNat_le.mp hc
      have h57 : (57 : UInt8).toNat = 57 := rfl
      omega
    obtain ⟨hlo, hhi⟩ := ih hrest
    rw [List.length_cons, Nat.pow_succ]
    constructor
    · calc n * (10 ^ s.length * 10) = 10 * n * 10 ^ s.length := by ring
        _ ≤ (10 * n + dig) * 10 ^ s.length := Nat.mul_le_mul_right _ (by omega)
        _ ≤ v := hlo
    · calc v < (10 * n + dig + 1) * 10 ^ s.length := hhi
        _ ≤ (10 * (n + 1)) * 10 ^ s.length := Nat.mul_le_mul_right _ (by omega)
        _ = (n + 1) * (10 ^ s.length * 10) := by ring

theorem textCompare_digits {a b : Bytes} {n v w : Nat} (hlen : a.length = b.length)
    (ha : parseDigits a n = some v) (hb : parseDigits b n = some w) :
    textCompare a b = cmpInt v w := by
  induction a generalizing b n with
  | nil =>
    obtain rfl := List.eq_nil_of_length_eq_zero hlen.symm
    cases ha
    cases hb
    simp [textCompare, cmpInt]
  | cons c a ih =>
    cases b with
    | nil => cases hlen
    | cons e b =>
      obtain ⟨i, hi, ha'⟩ := Option.bind_eq_some_iff.mp ha
      obtain ⟨j, hj, hb'⟩ := Option.bind_eq_some_iff.mp hb
      have hlen' : a.length = b.length := by simpa using hlen
      have hval : ∀ {x : UInt8} {k : Nat}, digit? x = some k → x.toNat = k + 48 := by
        intro x k hk
        rw [digit?, Option.ite_none_right_eq_some] at hk
        obtain ⟨⟨hx, -⟩, hv⟩ := hk
        cases hv
        have := UInt8.le_iff_toNat_le.mp hx
        have h48 : (48 : UInt8).toNat = 48 := rfl
        omega
      have hc := hval hi
      have he := hval hj
      obtain ⟨hv1, hv2⟩ := parseDigits_bounds ha'
      obtain ⟨hw1, hw2⟩ := parseDigits_bounds hb'
      -- a smaller digit in front makes the number smaller, whatever follows
      have hless : ∀ {p q x y : Nat}, p < q → x < (10 * n + p + 1) * 10 ^ a.length →
        (10 * n + q) * 10 ^ a.length ≤ y →
          x < y := fun hpq hx hy => hx.trans_le ((Nat.mul_le_mul_right _ (by omega)).trans hy)
      rw [textCompare]
      split
      case isTrue hlt =>
        rw [UInt8.lt_iff_toNat_lt] at hlt
        have : v < w := hless (by omega) hv2 (hlen' ▸ hw1)
        rw [cmpInt, if_pos (by omega)]
      case isFalse hnot =>
        split
        case isTrue hgt =>
          rw [UInt8.lt_iff_toNat_lt] at hgt
          have : w < v := hless (by omega) (hlen' ▸ hw2) hv1
          rw [cmpInt, if_neg (by omega), if_pos (by omega)]
        case isFalse hnot' =>
          rw [UInt8.lt_iff_toNat_lt] at hnot hnot'
          obtain rfl : i = j := by omega
          exact ih hlen' ha' hb'

theorem textCompare_padded {width n k : Nat} (hwidth : 0 < width) (hn : n < 10 ^ width)
    (hk : k < 10 ^ width) :
    textCompare (padded width n) (padded width k) = cmpInt n k :=
  textCompare_digits ((length_padded hwidth hn).trans (length_padded hwidth hk).symm)
    (parseDigits_padded width n)
    (parseDigits_padded width k)

theorem cmpInt_eq_zero {a b : Int} : cmpInt a b = 0 ↔ a = b := by
  unfold cmpInt
  split
  · omega
  · split <;> omega

theorem textCompare_string (hd : d.valid = true) (ho : o.valid = true) :
    textCompare d.string o.string = d.compare o := by
  obtain ⟨y, m, k, h⟩ := exists_fields hd
  obtain ⟨y', m', k', h'⟩ := exists_fields ho
  have hdash : ∀ x z, textCompare (dash :: x) (dash :: z) = textCompare x z := by
    intro x z
    simp [textCompare]
  have hlen : ∀ {width n n' : Nat}, 0 < width → n < 10 ^ width → n' < 10 ^ width →
      (padded width n).length = (padded width n').length := fun hw hn hn' =>
    (length_padded hw hn).trans (length_padded hw hn').symm
  rw [h.string_eq hd, h'.string_eq ho, textCompare_append (hlen (by decide) h.year_lt h'.year_lt),
    hdash, textCompare_append (hlen (by decide) h.month_lt h'.month_lt), hdash, textCompare_padded
    (by decide) h.year_lt h'.year_lt,
    textCompare_padded (by decide) h.month_lt h'.month_lt, textCompare_padded (by decide)
      h.day_lt h'.day_lt,
    Date.compare, h.year, h.month, h.day, h'.year, h'.month, h'.day]
  simp only [cmpInt_eq_zero, ne_eq, ite_not]

/-! ## Months -/

def Date.months (d : Date) : Int := d.year * 12 + d.month - 1

theorem months_bounds (hd : d.valid = true) : 12 ≤ d.months ∧ d.months < 120000 := by
  obtain ⟨hlo, hhi, hdate⟩ := Date.valid_iff.mp hd
  have hm1 := hdate.one_le_month
  have hm2 := hdate.month_le
  rw [minYear] at hlo
  rw [maxYear] at hhi
  rw [Date.months]
  omega

/-- The date in the month `t` with the day `a`, or none. -/
def clamped (t a : Int) : Date :=
  if t < 12 ∨ 120000 ≤ t then .zero else ⟨t / 12, t % 12 + 1,
    max 1 (min a (monthLength (t / 12) (t % 12 + 1)))⟩

theorem addMonthsClamped_eq (hd : d.valid = true) (n a : Int) :
    d.addMonthsClamped n a = clamped (d.months + n) a := by
  have hbounds := months_bounds hd
  have hrange : (d.months + n < minYear * monthsPerYear ∨
    (maxYear + 1) * monthsPerYear ≤ d.months + n) ↔
      (d.months + n < 12 ∨ 120000 ≤ d.months + n) := Iff.rfl
  unfold Date.addMonthsClamped clamped
  split
  case isTrue hout =>
    simp only [hd, Bool.not_true, Bool.false_eq_true, false_or, maxMonthSpan, maxYear,
      monthsPerYear] at hout
    rw [if_pos (by omega)]
  case isFalse =>
    by_cases hout : d.months + n < 12 ∨ 120000 ≤ d.months + n
    · rw [if_pos hout]
      exact if_pos (hrange.mpr hout)
    · rw [if_neg hout, ← daysIn_eq (by omega) (by omega)]
      exact if_neg fun h => hout (hrange.mp h)

theorem valid_clamped {t a : Int} (h : clamped t a ≠ .zero) :
    (clamped t a).valid = true ∧ (clamped t a).months = t ∧
      (clamped t a).day = max 1 (min a (monthLength (clamped t a).year (clamped t a).month)) := by
  unfold clamped at h ⊢
  split at h
  case isTrue => exact absurd rfl h
  case isFalse hrange =>
    rw [if_neg hrange]
    have := monthLength_ge (t / 12) (t % 12 + 1)
    have hyear : minYear ≤ t / 12 ∧ t / 12 ≤ maxYear := by
      rw [minYear, maxYear]
      omega
    have hmonths : t / 12 * 12 + (t % 12 + 1) - 1 = t := by omega
    have hdate : IsDate (t / 12) (t % 12 + 1) (max 1 (min a (monthLength (t / 12) (t % 12 + 1)))) :=
      ⟨by omega, by omega, by omega, by omega⟩
    exact ⟨Date.valid_iff.mpr ⟨hyear.1, hyear.2, hdate⟩, hmonths, rfl⟩

theorem clamped_add {t a : Int} {n m : Int64} (ht : 12 ≤ t ∧ t < 120000)
    (h : clamped (t + n.toInt) a ≠ .zero) :
    clamped (t + n.toInt + m.toInt) a = clamped (t + (n + m).toInt) a := by
  have hrange : ¬ (t + n.toInt < 12 ∨ 120000 ≤ t + n.toInt) := fun hout => h (if_pos hout)
  obtain ⟨k, hk⟩ : ((2 ^ 64 : Nat) : Int) ∣ (n + m).toInt - (n.toInt + m.toInt) := by
    rw [Int64.toInt_add]
    exact Int.dvd_bmod_sub_self
  have hm1 := m.le_toInt
  have hm2 := m.toInt_lt
  have hs1 := (n + m).le_toInt
  have hs2 := (n + m).toInt_lt
  by_cases hwrap : k = 0
  · congr 1
    omega
  · rw [clamped, clamped, if_pos (by omega), if_pos (by omega)]

theorem addMonthsClamped_of_not_valid (hd : d.valid = false) (n a : Int) :
    d.addMonthsClamped n a = .zero := by
  rw [Date.addMonthsClamped, if_pos (by simp [hd])]

end GoAtlas.Civil
