import GoAtlas.Lib.Framing
import Mathlib.Data.List.Induction

/-!
# Signed decimal numbers

A number with a sign in ASCII, and reading it back into 64 bits. Reading also takes a plus sign and
leading zeros.
-/

namespace GoAtlas.Lib

def minus : UInt8 := 45

def plus : UInt8 := 43

def signed (n : Int) : Bytes := if n < 0 then minus :: decimal n.natAbs else decimal n.natAbs

def digit? (c : UInt8) : Option Nat := if 48 ≤ c ∧ c ≤ 57 then some (c.toNat - 48) else none

def parseDigits : Bytes → Nat → Option Nat
  | [], n => some n
  | c :: cs, n => (digit? c).bind fun d => parseDigits cs (10 * n + d)

def parseNat (s : Bytes) : Option Nat := if s = [] then none else parseDigits s 0

/-- A number of 64 bits; `none` also if it is out of range. -/
def parseInt (s : Bytes) : Option Int :=
  match s with
  | [] => none
  | c :: cs =>
    if c = minus then (parseNat cs).bind fun n => if n ≤ 2 ^ 63 then some (-n) else none
    else (parseNat (if c = plus then cs else c :: cs)).bind fun n =>
      if n < 2 ^ 63 then some n else none

theorem parseInt_range {s : Bytes} {n : Int} (h : parseInt s = some n) :
    -2 ^ 63 ≤ n ∧ n < 2 ^ 63 := by
  unfold parseInt at h
  split at h
  · cases h
  · split at h
    · obtain ⟨m, -, hm⟩ := Option.bind_eq_some_iff.mp h
      split at hm <;> cases hm
      omega
    · obtain ⟨m, -, hm⟩ := Option.bind_eq_some_iff.mp h
      split at hm <;> cases hm
      omega

theorem digit?_toUInt8 {c : Char} (h : c.isDigit = true) :
    digit? c.toUInt8 = some (c.toNat - '0'.toNat) := by
  have hall : ∀ d : Fin 10, digit? (Char.ofNat (48 + d)).toUInt8 =
      some ((Char.ofNat (48 + d)).toNat - '0'.toNat) := by
    decide
  simp only [Char.isDigit, Bool.and_eq_true, decide_eq_true_eq] at h
  have hlo := UInt32.le_iff_toNat_le.mp h.1
  have hhi := UInt32.le_iff_toNat_le.mp h.2
  have hlo' : 48 ≤ c.toNat := hlo
  have hhi' : c.toNat ≤ 57 := hhi
  have hc := hall ⟨c.toNat - 48, by omega⟩
  have hback : 48 + (c.toNat - 48) = c.toNat := by omega
  simp only [hback, Char.ofNat_toNat] at hc
  exact hc

theorem parseDigits_map {cs : List Char} (h : ∀ c ∈ cs, c.isDigit = true) (n : Nat) :
    parseDigits (cs.map Char.toUInt8) n = some (Nat.ofDigitChars 10 cs n) := by
  induction cs generalizing n with
  | nil => rfl
  | cons c cs ih =>
    rw [List.map_cons, parseDigits, digit?_toUInt8 (h c List.mem_cons_self)]
    exact ih (fun d hd => h d (List.mem_cons_of_mem c hd)) _

theorem decimal_ne_nil (n : Nat) : decimal n ≠ [] := by
  intro h
  rw [decimal, List.map_eq_nil_iff] at h
  exact Nat.toDigits_ne_nil h

theorem parseNat_decimal (n : Nat) : parseNat (decimal n) = some n := by
  rw [parseNat, if_neg (decimal_ne_nil n), decimal,
    parseDigits_map fun c hc => isDigit_of_mem_toDigits hc]
  exact congrArg some (Nat.ofDigitChars_toDigits (by decide) (by decide))

variable {n : Nat}

theorem isDigit_of_mem_decimal {b : UInt8} (h : b ∈ decimal n) : 48 ≤ b ∧ b ≤ 57 := by
  obtain ⟨c, hc, rfl⟩ := List.mem_map.mp h
  have hdigit := digit?_toUInt8 (isDigit_of_mem_toDigits hc)
  unfold digit? at hdigit
  split at hdigit
  · assumption
  · cases hdigit

theorem ne_sign_of_digit {c : UInt8} (h : 48 ≤ c ∧ c ≤ 57) : c ≠ minus ∧ c ≠ plus := by
  constructor
  · rintro rfl
    exact absurd h.1 (by decide)
  · rintro rfl
    exact absurd h.1 (by decide)

theorem parseInt_signed {n : Int} (hlo : -2 ^ 63 ≤ n) (hhi : n < 2 ^ 63) :
    parseInt (signed n) = some n := by
  unfold signed
  split
  · rename_i hneg
    have hle : n.natAbs ≤ 2 ^ 63 := by omega
    have habs : -(n.natAbs : Int) = n := by omega
    simp only [parseInt, if_true, parseNat_decimal, Option.bind_some, if_pos hle, habs]
  · rename_i hneg
    have hlt : n.natAbs < 2 ^ 63 := by omega
    have habs : (n.natAbs : Int) = n := by omega
    cases hd : decimal n.natAbs with
    | nil => exact absurd hd (decimal_ne_nil _)
    | cons c cs =>
      have hdigit := isDigit_of_mem_decimal (hd ▸ List.mem_cons_self : c ∈ decimal n.natAbs)
      obtain ⟨hminus, hplus⟩ := ne_sign_of_digit hdigit
      simp only [parseInt, if_neg hminus, if_neg hplus, ← hd, parseNat_decimal, Option.bind_some,
        if_pos hlt, habs]

theorem mem_signed {n : Int} {b : UInt8} (h : b ∈ signed n) : b = minus ∨ 48 ≤ b ∧ b ≤ 57 := by
  unfold signed at h
  split at h
  · rcases List.mem_cons.mp h with rfl | hmem
    · exact .inl rfl
    · exact .inr (isDigit_of_mem_decimal hmem)
  · exact .inr (isDigit_of_mem_decimal h)

theorem signed_inj {m n : Int} (h : signed m = signed n) : m = n := by
  have hminus : ∀ k r, decimal k ≠ minus :: r := by
    intro k r hk
    have := isDigit_of_mem_decimal (hk ▸ List.mem_cons_self : minus ∈ decimal k)
    exact absurd this.1 (by decide)
  unfold signed at h
  split at h <;> split at h
  · have := decimal_inj (List.cons.inj h).2
    omega
  · exact absurd h.symm (hminus _ _)
  · exact absurd h (hminus _ _)
  · have := decimal_inj h
    omega

/-! ## Numbers without leading zeros -/

def digitByte (d : Nat) : UInt8 := UInt8.ofNat (48 + d)

theorem decimal_of_lt (h : n < 10) : decimal n = [digitByte n] := by
  have hall : ∀ d : Fin 10, (Nat.digitChar d).toUInt8 = digitByte d := by decide
  rw [decimal, Nat.toDigits_of_lt_base h, List.map_singleton, hall ⟨n, h⟩]

theorem decimal_of_le (h : 10 ≤ n) :
    decimal n = decimal (n / 10) ++ [digitByte (n % 10)] := by
  have hall : ∀ d : Fin 10, (Nat.digitChar d).toUInt8 = digitByte d := by decide
  have hlt : n % 10 < 10 := Nat.mod_lt _ (by decide)
  rw [decimal, Nat.toDigits_of_base_le (by decide) h, List.map_append, List.map_singleton,
    hall ⟨n % 10, hlt⟩]
  rfl

theorem digit?_eq_some {c : UInt8} {d : Nat} (h : digit? c = some d) :
    d < 10 ∧ c = digitByte d := by
  unfold digit? at h
  split at h
  · rename_i hc
    cases h
    have hlo : 48 ≤ c.toNat := UInt8.le_iff_toNat_le.mp hc.1
    have hhi : c.toNat ≤ 57 := UInt8.le_iff_toNat_le.mp hc.2
    refine ⟨by omega, ?_⟩
    rw [digitByte, Nat.add_sub_cancel' hlo, UInt8.ofNat_toNat]
  · cases h

theorem parseDigits_concat (s : Bytes) (c : UInt8) (k : Nat) :
    parseDigits (s ++ [c]) k = (parseDigits s k).bind fun m => (digit? c).map fun d =>
      10 * m + d := by
  induction s generalizing k with
  | nil =>
    show ((digit? c).bind fun d => some (10 * k + d)) = _
    cases digit? c <;> rfl
  | cons b s ih =>
    show ((digit? b).bind fun d => parseDigits (s ++ [c]) (10 * k + d)) = _
    simp only [ih, parseDigits, Option.bind_assoc]

theorem eq_zero_of_head?_decimal (h : (decimal n).head? = some 48) : n = 0 := by
  induction n using Nat.strong_induction_on with
  | _ n ih =>
    by_cases hn : n < 10
    · have hall : ∀ d : Fin 10, digitByte d = 48 → d.val = 0 := by decide
      rw [decimal_of_lt hn, List.head?_cons, Option.some.injEq] at h
      exact hall ⟨n, hn⟩ h
    · rw [decimal_of_le (by omega), List.head?_append_of_ne_nil _ (decimal_ne_nil _)] at h
      have := ih (n / 10) (by omega) h
      omega

theorem eq_decimal_of_parseDigits {s : Bytes} (hne : s ≠ [])
    (hzero : s.head? = some 48 → s.length = 1) (h : parseDigits s 0 = some n) : s = decimal n := by
  induction s using List.reverseRecOn generalizing n with
  | nil => exact absurd rfl hne
  | append_singleton t c ih =>
    rw [parseDigits_concat] at h
    obtain ⟨m, hm, h⟩ := Option.bind_eq_some_iff.mp h
    obtain ⟨d, hd, rfl⟩ := Option.map_eq_some_iff.mp h
    obtain ⟨hlt, rfl⟩ := digit?_eq_some hd
    by_cases ht : t = []
    · subst ht
      cases hm
      rw [decimal_of_lt (by omega)]
      simp
    · rw [List.head?_append_of_ne_nil t ht] at hzero
      -- more than one digit, so the first is not a zero
      have hhead : t.head? ≠ some 48 := by
        intro hh
        have := hzero hh
        have := List.length_pos_iff.mpr ht
        rw [List.length_append, List.length_singleton] at *
        omega
      have htm := ih ht (fun hh => absurd hh hhead) hm
      have hpos : m ≠ 0 := by
        rintro rfl
        exact hhead (by rw [htm]; rfl)
      have hdiv : (10 * m + d) / 10 = m := by omega
      have hmod : (10 * m + d) % 10 = d := by omega
      rw [decimal_of_le (by omega), hdiv, hmod, ← htm]

end GoAtlas.Lib
