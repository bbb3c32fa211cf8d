import GoAtlas.Lib.CheckDigit
import GoAtlas.Lib.Numeral

/-!
# ISO 7064 MOD 11,10

`Mod11_10` runs the hybrid recurrence over eight digits and compares the last one. The products stay
between 1 and 10, where neither the sum modulo 10 nor the doubling modulo 11 loses anything.
-/

namespace GoAtlas.Iso7064

open Lib Lib.CheckDigit

inductive Error where
  | invalidNumber
  deriving DecidableEq, Repr

inductive Data where
  | string (s : Bytes)
  | int64 (n : Int64)

/-- The text that is checked; of a number, its decimal digits. -/
def Data.num : Data → Bytes
  | .string s => s
  | .int64 n => signed n.toInt

/-- The sum of a digit, where zero stands for ten. -/
def sumOf (product n : Nat) : Nat := if (n + product) % 10 = 0 then 10 else (n + product) % 10

def next (product n : Nat) : Nat := 2 * sumOf product n % 11

def IsDigit (ch : UInt8) : Prop := 48 ≤ ch ∧ ch ≤ 57

instance (ch : UInt8) : Decidable (IsDigit ch) := inferInstanceAs (Decidable (_ ∧ _))

def digit (ch : UInt8) : Nat := (ch - 48).toNat

def dataDigits : Bytes → Nat → Except Error Nat
  | [], product => .ok product
  | ch :: rest, product =>
    if ch < 48 ∨ ch > 57 then .error .invalidNumber else dataDigits rest (next product (digit ch))

def checkLast (product : Nat) (lastCh : UInt8) : Except Error Bool :=
  if lastCh < 48 ∨ lastCh > 57 then .error .invalidNumber
  else .ok ((product + digit lastCh) % 10 == 1)

def mod11_10 (data : Data) : Except Error Bool :=
  if data.num.length ≠ 9 then .error .invalidNumber
  else (dataDigits (data.num.take 8) 10).bind fun product => checkLast product (data.num.getD 8 0)

def isValidMod11_10 (data : Data) : Bool :=
  match mod11_10 data with
  | .error _ => false
  | .ok ok => ok

/-! ## The recurrence -/

theorem not_digit_iff {ch : UInt8} : (ch < 48 ∨ ch > 57) ↔ ¬ IsDigit ch := by
  unfold IsDigit
  rw [not_and_or, UInt8.not_le, UInt8.not_le]

theorem digit_lt {ch : UInt8} (h : IsDigit ch) : digit ch < 10 := by
  have hlo := UInt8.le_iff_toNat_le.mp h.1
  have hhi := UInt8.le_iff_toNat_le.mp h.2
  unfold digit
  rw [UInt8.toNat_sub_of_le _ _ h.1]
  simp only [UInt8.toNat_ofNat] at hlo hhi ⊢
  omega

theorem digit_inj {a b : UInt8} (h : digit a = digit b) : a = b := by
  unfold digit at h
  exact (UInt8.sub_left_inj 48).mp (UInt8.toNat_inj.mp h)

theorem exists_digit {n : Nat} (h : n < 10) : ∃ ch, IsDigit ch ∧ digit ch = n := by
  have hall : ∀ n : Fin 10, IsDigit (UInt8.ofNat (48 + n)) ∧ digit (UInt8.ofNat (48 + n)) =
      n := by decide
  exact ⟨_, hall ⟨n, h⟩⟩

def IsProduct (product : Nat) : Prop := 1 ≤ product ∧ product ≤ 10

theorem sumOf_range (product n : Nat) : 1 ≤ sumOf product n ∧ sumOf product n ≤ 10 := by
  unfold sumOf
  split <;> omega

theorem next_lossless : Lossless (fun p ch => next p (digit ch)) IsProduct IsDigit where
  state := by
    intro p ch _ _
    have hsum := sumOf_range p (digit ch)
    unfold IsProduct next
    omega
  left := by
    intro p q ch hp hq _ h
    have hsum := sumOf_range p (digit ch)
    have hsum' := sumOf_range q (digit ch)
    unfold IsProduct at hp hq
    have heq : sumOf p (digit ch) = sumOf q (digit ch) := by
      unfold next at h
      omega
    unfold sumOf at heq
    split at heq <;> split at heq <;> omega
  right := by
    intro p a b _ ha hb h
    have hsum := sumOf_range p (digit a)
    have hsum' := sumOf_range p (digit b)
    have hlt := digit_lt ha
    have hlt' := digit_lt hb
    have heq : sumOf p (digit a) = sumOf p (digit b) := by
      unfold next at h
      omega
    apply digit_inj
    unfold sumOf at heq
    split at heq <;> split at heq <;> omega

theorem next_eq_two_iff (product n : Nat) : next product n = 2 ↔ (product + n) % 10 = 1 := by
  have hsum := sumOf_range product n
  rw [Nat.add_comm product n]
  have htwo : next product n = 2 ↔ sumOf product n = 1 := by
    unfold next
    omega
  rw [htwo]
  unfold sumOf
  split <;> omega

theorem dataDigits_eq_ok {l : Bytes} {p q : Nat} :
    dataDigits l p = .ok q ↔ (∀ ch ∈ l, IsDigit ch) ∧
      l.foldl (fun p ch => next p (digit ch)) p = q := by
  induction l generalizing p with
  | nil => simp [dataDigits]
  | cons ch l ih =>
    rw [dataDigits, List.forall_mem_cons, List.foldl_cons]
    by_cases hch : IsDigit ch
    · rw [if_neg (fun hbad => not_digit_iff.mp hbad hch), ih]
      simp [hch]
    · rw [if_pos (not_digit_iff.mpr hch)]
      simp [hch]

theorem mod11_10_iff {s : Bytes} : mod11_10 (.string s) = .ok true ↔
    s.length = 9 ∧ (∀ ch ∈ s, IsDigit ch) ∧ s.foldl (fun p ch => next p (digit ch)) 10 = 2 := by
  unfold mod11_10
  show (if s.length ≠ 9 then _ else _) = _ ↔ _
  by_cases hlen : s.length = 9
  · obtain ⟨pre, last, rfl⟩ : ∃ pre last, s = pre ++ [last] :=
      ⟨s.dropLast, s.getLast (by rintro rfl; cases hlen), (List.dropLast_append_getLast _).symm⟩
    have hpre : pre.length = 8 := by simpa using hlen
    have htake : (Data.string (pre ++ [last])).num.take 8 = pre := List.take_left' hpre
    have hlast : (Data.string (pre ++ [last])).num.getD 8 0 = last := by
      show (pre ++ [last]).getD 8 0 = last
      rw [← hpre]
      simp
    rw [if_neg (not_not.mpr hlen), htake, hlast, List.foldl_concat, next_eq_two_iff]
    simp only [hlen, true_and, List.forall_mem_append, List.forall_mem_singleton]
    cases hdata : dataDigits pre 10 with
    | error e =>
      have hbad : ¬ ∀ ch ∈ pre, IsDigit ch := by
        intro hall
        rw [dataDigits_eq_ok.mpr ⟨hall, rfl⟩] at hdata
        cases hdata
      refine iff_of_false ?_ fun h => hbad h.1.1
      intro h
      cases h
    | ok product =>
      obtain ⟨hall, rfl⟩ := dataDigits_eq_ok.mp hdata
      show checkLast _ last = _ ↔ _
      unfold checkLast
      by_cases hch : IsDigit last
      · rw [if_neg (fun hbad => not_digit_iff.mp hbad hch)]
        simpa [hch] using fun _ => hall
      · rw [if_pos (not_digit_iff.mpr hch)]
        simp [hch]
  · rw [if_pos hlen]
    simp [hlen]

/-! ## Check digits -/

theorem existsUnique_last {pre : Bytes} (hlen : pre.length = 8) (hpre : ∀ ch ∈ pre, IsDigit ch) :
    ∃! last, mod11_10 (.string (pre ++ [last])) = .ok true := by
  have haccepted : ∀ last, mod11_10 (.string (pre ++ [last])) = .ok true ↔
      IsDigit last ∧ (pre.foldl (fun p ch => next p (digit ch)) 10 + digit last) % 10 = 1 := by
    intro last
    rw [mod11_10_iff, List.foldl_concat, next_eq_two_iff, List.forall_mem_append,
      List.forall_mem_singleton]
    refine ⟨fun h => ⟨h.2.1.2, h.2.2⟩, fun h => ⟨?_, ⟨hpre, h.1⟩, h.2⟩⟩
    rw [List.length_append, hlen, List.length_singleton]
  have hproduct : IsProduct (pre.foldl (fun p ch => next p (digit ch)) 10) :=
    next_lossless.foldl_state (p := 10) ⟨by decide, by decide⟩ hpre
  generalize pre.foldl (fun p ch => next p (digit ch)) 10 = product at haccepted hproduct
  obtain ⟨last, hlast, hdigit⟩ := exists_digit (show (11 - product) % 10 < 10 by omega)
  unfold IsProduct at hproduct
  refine ⟨last, (haccepted last).mpr ⟨hlast, by omega⟩, ?_⟩
  intro other hother
  obtain ⟨hdigit', hsum⟩ := (haccepted other).mp hother
  have := digit_lt hdigit'
  exact digit_inj (by omega)

/-- One check digit for each number of eight digits, and two places at least between the numbers
that are accepted. -/
theorem mod11_10_detects :
    (∀ pre : Bytes, pre.length = 8 → (∀ ch ∈ pre, IsDigit ch) →
    ∃! last, mod11_10 (.string (pre ++ [last])) = .ok true) ∧
    ∀ s t : Bytes, mod11_10 (.string s) = .ok true → mod11_10 (.string t) = .ok true → s ≠ t →
      ∃ i j, i < j ∧ j < 9 ∧ s[i]? ≠ t[i]? ∧ s[j]? ≠ t[j]? := by
  refine ⟨fun pre hlen hpre => existsUnique_last hlen hpre, ?_⟩
  intro s t hs ht hne
  obtain ⟨hlen, hdigits, hlast⟩ := mod11_10_iff.mp hs
  obtain ⟨hlen', hdigits', hlast'⟩ := mod11_10_iff.mp ht
  have hplaces :=
    next_lossless.two_places (p := 10) ⟨by decide, by decide⟩ hdigits hdigits'
      (hlen.trans hlen'.symm)
    (hlast.trans hlast'.symm) hne
  rwa [hlen] at hplaces

/-- The number of the package's example, 12345678 with the check digit 8, and 123456815. -/
theorem mod11_10_detects_example :
    (∃! last, mod11_10 (.string ([49, 50, 51, 52, 53, 54, 55, 56] ++ [last])) = .ok true) ∧
    ∃ i j, i < j ∧ j < 9 ∧
      ([49, 50, 51, 52, 53, 54, 55, 56, 56] : Bytes)[i]? ≠
      [49, 50, 51, 52, 53, 54, 56, 49, 53][i]? ∧
      ([49, 50, 51, 52, 53, 54, 55, 56, 56] : Bytes)[j]? ≠
      [49, 50, 51, 52, 53, 54, 56, 49, 53][j]? :=
  ⟨mod11_10_detects.1 _ rfl (by simp [IsDigit]),
    mod11_10_detects.2 _ _ (by decide) (by decide) (by decide)⟩

end GoAtlas.Iso7064
