import GoAtlas.Lib.Bytes

/-!
# Variable-length unsigned numbers

Seven bits a byte, least significant first, with the high bit set on every byte but the last. A
number below `2 ^ 64` takes at most ten bytes, and the reader refuses more.
-/

namespace GoAtlas.Lib.Uvarint

/-- The bytes of a number, with room for `k` more after the first. -/
def bytes : Nat → Nat → Bytes
  | 0, x => [UInt8.ofNat x]
  | k + 1, x =>
    if x < 128 then [UInt8.ofNat x] else UInt8.ofNat (x % 128 + 128) :: bytes k (x / 128)

def encode (x : Nat) : Bytes := bytes 9 x

/-- Read from the byte with index `i`, with `x` read so far: the number and how many bytes it took,
`0` bytes where the input is too short, and a negative count where the number is too long. -/
def read : Bytes → Nat → Nat → Nat × Int
  | [], _, _ => (0, 0)
  | b :: bs, i, x =>
    if i = 10 then (0, -(i + 1))
    else if b.toNat < 128 then
      if i = 9 ∧ 1 < b.toNat then (0, -(i + 1)) else (x + b.toNat * 2 ^ (7 * i), i + 1)
    else read bs (i + 1) (x + b.toNat % 128 * 2 ^ (7 * i))

def decode (bs : Bytes) : Nat × Int := read bs 0 0

theorem length_bytes_le (k x : Nat) : 1 ≤ (bytes k x).length ∧ (bytes k x).length ≤ k + 1 := by
  induction k generalizing x with
  | zero => simp [bytes]
  | succ k ih =>
    unfold bytes
    split
    · simp
    · have := ih (x / 128)
      simp only [List.length_cons]
      omega

theorem length_encode_le (x : Nat) : 1 ≤ (encode x).length ∧ (encode x).length ≤ 10 :=
  length_bytes_le 9 x

theorem read_bytes {k i x : Nat} (hk : i + k = 9) (hx : x < 2 ^ (64 - 7 * i)) (acc : Nat)
    (rest : Bytes) :
    read (bytes k x ++ rest) i acc = (acc + x * 2 ^ (7 * i), (i + (bytes k x).length : Int)) := by
  induction k generalizing i x acc with
  | zero =>
    obtain rfl : i = 9 := by omega
    have hx : x < 2 := by simpa using hx
    have hb : (UInt8.ofNat x).toNat = x := by
      rw [UInt8.toNat_ofNat']
      omega
    rw [bytes, List.singleton_append, read, if_neg (by omega), hb, if_pos (by omega),
      if_neg (by omega)]
    rfl
  | succ k ih =>
    have hi : i ≠ 10 ∧ i ≠ 9 := by omega
    by_cases hsmall : x < 128
    · have hb : (UInt8.ofNat x).toNat = x := by
        rw [UInt8.toNat_ofNat']
        omega
      rw [bytes, if_pos hsmall, List.singleton_append, read, if_neg hi.1, hb, if_pos hsmall,
        if_neg (by omega)]
      rfl
    · have hb : (UInt8.ofNat (x % 128 + 128)).toNat = x % 128 + 128 := by
        rw [UInt8.toNat_ofNat']
        omega
      have hdiv : x / 128 < 2 ^ (64 - 7 * (i + 1)) := by
        rw [Nat.div_lt_iff_lt_mul (by decide)]
        have hpow : 2 ^ (64 - 7 * (i + 1)) * 128 = 2 ^ (64 - 7 * i) := by
          rw [show 64 - 7 * i = 64 - 7 * (i + 1) + 7 by omega, pow_add]
          rfl
        omega
      have hsplit : x % 128 * 2 ^ (7 * i) + x / 128 * 2 ^ (7 * (i + 1)) = x * 2 ^ (7 * i) := by
        rw [show 7 * (i + 1) = 7 * i + 7 by ring, pow_add]
        calc x % 128 * 2 ^ (7 * i) + x / 128 * (2 ^ (7 * i) * 2 ^ 7)
            = (x % 128 + 128 * (x / 128)) * 2 ^ (7 * i) := by ring
          _ = x * 2 ^ (7 * i) := by rw [Nat.mod_add_div]
      rw [bytes, if_neg hsmall, List.cons_append, read, if_neg hi.1, hb, if_neg (by omega),
        ih (by omega) hdiv]
      rw [show (x % 128 + 128) % 128 = x % 128 by omega, Nat.add_assoc, hsplit, List.length_cons]
      push_cast
      rw [show ((i : Int) + 1 + (bytes k (x / 128)).length) =
        i + ((bytes k (x / 128)).length + 1) by ring]

theorem decode_encode {x : Nat} (hx : x < 2 ^ 64) (rest : Bytes) :
    decode (encode x ++ rest) = (x, ((encode x).length : Int)) := by
  have h := read_bytes (k := 9) (i := 0) rfl (by simpa using hx) 0 rest
  simpa [decode, encode] using h

end GoAtlas.Lib.Uvarint
