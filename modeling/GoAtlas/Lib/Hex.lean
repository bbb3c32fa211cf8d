import GoAtlas.Lib.Bytes

/-!
# Hexadecimal texts

Two digits for a byte, written in lower case and read in either case.
-/

namespace GoAtlas.Lib.Hex

def char (d : Nat) : UInt8 := UInt8.ofNat (if d < 10 then 48 + d else 87 + d)

def digit? (c : UInt8) : Option Nat :=
  if 48 ≤ c ∧ c ≤ 57 then some (c.toNat - 48)
  else if 97 ≤ c ∧ c ≤ 102 then some (c.toNat - 87)
  else if 65 ≤ c ∧ c ≤ 70 then some (c.toNat - 55)
  else none

def encode : Bytes → Bytes
  | [] => []
  | b :: bs => char (b.toNat / 16) :: char (b.toNat % 16) :: encode bs

def decode : Bytes → Option Bytes
  | [] => some []
  | [_] => none
  | a :: b :: cs => do
    let hi ← digit? a
    let lo ← digit? b
    let bs ← decode cs
    return UInt8.ofNat (16 * hi + lo) :: bs

theorem digit?_char {d : Nat} (h : d < 16) : digit? (char d) = some d := by
  have hall : ∀ d : Fin 16, digit? (char d) = some d.val := by decide
  exact hall ⟨d, h⟩

theorem decode_encode (bs : Bytes) : decode (encode bs) = some bs := by
  induction bs with
  | nil => rfl
  | cons b bs ih =>
    have hb := b.toNat_lt
    have hjoin : UInt8.ofNat (16 * (b.toNat / 16) + b.toNat % 16) = b := by
      rw [Nat.div_add_mod]
      simp
    rw [encode, decode, digit?_char (show b.toNat / 16 < 16 by omega), digit?_char
      (show b.toNat % 16 < 16 by omega), ih]
    exact congrArg (fun x => some (x :: bs)) hjoin

theorem exists_of_mem_encode {bs : Bytes} {c : UInt8} (h : c ∈ encode bs) :
    ∃ d < 16, c = char d := by
  induction bs with
  | nil => cases h
  | cons b bs ih =>
    have hb := b.toNat_lt
    simp only [encode, List.mem_cons] at h
    rcases h with rfl | rfl | h
    · exact ⟨_, by omega, rfl⟩
    · exact ⟨_, by omega, rfl⟩
    · exact ih h

end GoAtlas.Lib.Hex
