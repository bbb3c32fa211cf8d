import GoAtlas.Bits.Range

/-!
# Rotations, reversal and counts of bits

The other operations of package `bits`. Where the type switch finds the width of the type, a
rotation moves bit `i` to bit `(i+n) mod w`, a reversal to bit `w-1-i`, and the counts are those of
the set of one bits. A defined type narrower than 64 bits is rotated, reversed and searched as if it
had 64.
-/

namespace GoAtlas.Bits

open Lib.OneBits

variable {T : IntType}

/-! ## Rotations and reversal -/

/-- `uint64(v)`, which extends the sign of a signed value. -/
def toUint64 (v : T.Value) : BitVec 64 := if T.signed then v.signExtend 64 else v.setWidth 64

def rotateLeft (v : T.Value) (n : UInt64) : T.Value :=
  let maxBits := getBitWidth T
  let n := n % maxBits
  if n = 0 then v
  else
    let widthMask := (1#64 <<< maxBits.toNat) - 1#64
    let uv := toUint64 v &&& widthMask
    (((uv <<< n.toNat) ||| (uv >>> (maxBits - n).toNat)) &&& widthMask).setWidth T.width

def rotateRight (v : T.Value) (n : UInt64) : T.Value :=
  rotateLeft v (getBitWidth T - n % getBitWidth T)

def isBitSet (v : T.Value) (bitPosition : UInt64) : Bool :=
  if !isValidBitPosition T bitPosition then false else v &&& shl 1#_ bitPosition != 0#_

def setBit (v : T.Value) (bitPosition : UInt64) : T.Value :=
  if !isValidBitPosition T bitPosition then v else v ||| shl 1#_ bitPosition

def reverseStep (v result : T.Value) (i : Nat) : T.Value :=
  if isBitSet v (UInt64.ofNat i) then setBit result (getBitWidth T - 1 - UInt64.ofNat i) else result

def reverseBits (v : T.Value) : T.Value :=
  (List.range (getBitWidth T).toNat).foldl (reverseStep v) 0#_

/-! ## Counts

A loop that is given as many turns as the type has bits; `none` if they do not suffice.
-/

/-- `value &= value - 1` until nothing is left. -/
def clearLoop (v : T.Value) (count : UInt64) : Nat → Option UInt64
  | 0 => if v ≠ 0#_ then none else some count
  | turns + 1 => if v ≠ 0#_ then clearLoop (v &&& (v - 1#_)) (count + 1) turns else some count

def countSetBits (v : T.Value) : Option UInt64 := if v = 0#_ then some 0 else clearLoop v 0 T.width

/-- `value >>= 1` until the last bit is one. -/
def trailingLoop (v : T.Value) (count : UInt64) : Nat → Option UInt64
  | 0 => if v &&& 1#_ = 0#_ then none else some count
  | turns + 1 => if v &&& 1#_ = 0#_ then trailingLoop (shr v 1) (count + 1) turns else some count

def countTrailingZeros (v : T.Value) : Option UInt64 :=
  if v = 0#_ then some (getBitWidth T) else trailingLoop v 0 T.width

/-- From the top position down; below zero the counter wraps around and the loop ends. -/
def leadingLoop (v : T.Value) (i count : UInt64) : Nat → Option UInt64
  | 0 => if i < getBitWidth T then none else some count
  | turns + 1 =>
    if i < getBitWidth T then
      if v &&& shl 1#_ i ≠ 0#_ then some count else leadingLoop v (i - 1) (count + 1) turns
    else some count

def countLeadingZeros (v : T.Value) : Option UInt64 :=
  if v = 0#_ then some (getBitWidth T) else leadingLoop v (getBitWidth T - 1) 0
    (getBitWidth T).toNat

def findFirstSet (v : T.Value) : Option UInt64 :=
  if v = 0#_ then some 0 else (countTrailingZeros v).map (· + 1)

def findLastSet (v : T.Value) : Option UInt64 :=
  if v = 0#_ then some 0 else (countLeadingZeros v).map (getBitWidth T - ·)

/-! ## Rotations move every bit -/

section Rotations

variable {v : T.Value} {n m : UInt64} {i : Nat}

theorem mod_of_lt_two_mul {a w : Nat} (h : a < 2 * w) : a % w = if a < w then a else a - w := by
  split
  · exact Nat.mod_eq_of_lt (by assumption)
  · rw [Nat.mod_eq_sub_mod (by omega), Nat.mod_eq_of_lt (by omega)]

theorem getLsbD_toUint64 (hi : i < T.width) : (toUint64 v).getLsbD i = v.getLsbD i := by
  have h64 := width_le T
  unfold toUint64
  split
  · rw [BitVec.getLsbD_signExtend, if_pos hi, decide_eq_true (by omega), Bool.true_and]
  · rw [BitVec.getLsbD_setWidth, decide_eq_true (by omega), Bool.true_and]

variable (hT : (getBitWidth T).toNat = T.width)

include hT

theorem getLsbD_rotateLeft (hi : i < T.width) :
    (rotateLeft v n).getLsbD i = v.getLsbD ((i + (T.width - n.toNat % T.width)) % T.width) := by
  have h64 := width_le T
  have hpos := width_pos T
  have hmod : (n % getBitWidth T).toNat = n.toNat % T.width := by rw [UInt64.toNat_mod, hT]
  have hlt : n.toNat % T.width < T.width := Nat.mod_lt _ hpos
  rw [mod_of_lt_two_mul (by omega)]
  unfold rotateLeft
  dsimp only
  split
  · rename_i hzero
    rw [hzero] at hmod
    have hr : n.toNat % T.width = 0 := hmod.symm
    rw [hr, if_neg (by omega)]
    congr 1
    omega
  · rename_i hzero
    have hr : n.toNat % T.width ≠ 0 := fun h0 => hzero (UInt64.toNat_inj.mp (hmod.trans h0))
    have hsub : (getBitWidth T - n % getBitWidth T).toNat = T.width - n.toNat % T.width := by
      rw [UInt64.toNat_sub_of_le _ _ (by rw [UInt64.le_iff_toNat_le]; omega), hmod, hT]
    simp only [BitVec.getLsbD_setWidth, BitVec.getLsbD_and, BitVec.getLsbD_or,
      BitVec.getLsbD_shiftLeft, BitVec.getLsbD_ushiftRight, getLsbD_one_shiftLeft_sub_one,
      hmod, hsub, hT]
    by_cases hir : i < n.toNat % T.width
    · -- the bits that come around from the top
      have hbit :=
        getLsbD_toUint64 (v := v) (show T.width - n.toNat % T.width + i < T.width by omega)
      rw [if_pos (by omega), Nat.add_comm i, ← hbit]
      simp only [hir, hi, decide_true, Bool.not_true, Bool.and_false, Bool.false_and, Bool.false_or,
        Bool.true_and, Bool.and_true, decide_eq_true (show i < 64 by omega),
        decide_eq_true (show T.width - n.toNat % T.width + i < T.width by omega),
        decide_eq_true (show T.width - n.toNat % T.width + i < 64 by omega)]
    · have hbit := getLsbD_toUint64 (v := v) (show i - n.toNat % T.width < T.width by omega)
      rw [if_neg (by omega), show i + (T.width - n.toNat % T.width) - T.width =
        i - n.toNat % T.width by omega, ← hbit]
      simp only [hir, hi, decide_true, decide_false, Bool.not_false, Bool.and_false, Bool.or_false,
        Bool.true_and, Bool.and_true, decide_eq_true (show i < 64 by omega), decide_eq_true
        (show i - n.toNat % T.width < T.width by omega),
        decide_eq_true (show i - n.toNat % T.width < 64 by omega),
        decide_eq_false (show ¬ T.width - n.toNat % T.width + i < T.width by omega)]

theorem getLsbD_rotateLeft_add (hi : i < T.width) :
    (rotateLeft v n).getLsbD ((i + n.toNat) % T.width) = v.getLsbD i := by
  have hpos := width_pos T
  rw [getLsbD_rotateLeft hT (Nat.mod_lt _ hpos), ← Nat.add_mod_mod i]
  have hlt : n.toNat % T.width < T.width := Nat.mod_lt _ hpos
  generalize n.toNat % T.width = r at hlt
  congr 1
  rw [mod_of_lt_two_mul (show i + r < 2 * T.width by omega)]
  split
  · rw [mod_of_lt_two_mul (by omega), if_neg (by omega)]
    omega
  · rw [mod_of_lt_two_mul (by omega), if_pos (by omega)]
    omega

theorem rotateLeft_rotateLeft :
    rotateLeft (rotateLeft v n) m =
      rotateLeft v (UInt64.ofNat ((n.toNat + m.toNat) % T.width)) := by
  have h64 := width_le T
  have hpos := width_pos T
  apply BitVec.eq_of_getLsbD_eq
  intro i hi
  have hsum : (UInt64.ofNat ((n.toNat + m.toNat) % T.width)).toNat % T.width =
      (n.toNat % T.width + m.toNat % T.width) % T.width := by
    have hlt : (n.toNat + m.toNat) % T.width < T.width := Nat.mod_lt _ hpos
    rw [UInt64.toNat_ofNat', Nat.mod_eq_of_lt
      (show (n.toNat + m.toNat) % T.width < 2 ^ 64 by omega), Nat.mod_mod, Nat.add_mod]
  rw [getLsbD_rotateLeft hT hi, getLsbD_rotateLeft hT (Nat.mod_lt _ hpos),
    getLsbD_rotateLeft hT hi, hsum]
  have hn : n.toNat % T.width < T.width := Nat.mod_lt _ hpos
  have hm : m.toNat % T.width < T.width := Nat.mod_lt _ hpos
  generalize n.toNat % T.width = a at hn
  generalize m.toNat % T.width = b at hm
  congr 1
  -- every remainder is of a number below twice the width
  rw [mod_of_lt_two_mul (show a + b < 2 * T.width by omega), mod_of_lt_two_mul
    (show i + (T.width - b) < 2 * T.width by omega)]
  split <;> split <;>
    rw [mod_of_lt_two_mul (by omega), mod_of_lt_two_mul (by omega)] <;> split <;> split <;> omega

omit hT in
theorem rotateLeft_zero : rotateLeft v 0 = v := by
  unfold rotateLeft
  dsimp only
  rw [UInt64.zero_mod, if_pos rfl]

theorem rotateRight_rotateLeft : rotateRight (rotateLeft v n) n = v := by
  have hpos := width_pos T
  have hlt : n.toNat % T.width < T.width := Nat.mod_lt _ hpos
  have hmod : (n % getBitWidth T).toNat = n.toNat % T.width := by rw [UInt64.toNat_mod, hT]
  have hsub : (getBitWidth T - n % getBitWidth T).toNat = T.width - n.toNat % T.width := by
    rw [UInt64.toNat_sub_of_le _ _ (by rw [UInt64.le_iff_toNat_le]; omega), hmod, hT]
  have hsum : (n.toNat + (T.width - n.toNat % T.width)) % T.width = 0 := by
    rw [← Nat.mod_add_mod, mod_of_lt_two_mul (by omega), if_neg (by omega)]
    omega
  unfold rotateRight
  rw [rotateLeft_rotateLeft hT, hsub, hsum]
  exact rotateLeft_zero

/-! ## Reversal -/

theorem isBitSet_eq (hi : i < T.width) : isBitSet v (UInt64.ofNat i) = v.getLsbD i := by
  have h64 := width_le T
  have hnat : (UInt64.ofNat i).toNat = i := by
    rw [UInt64.toNat_ofNat']
    exact Nat.mod_eq_of_lt (by omega)
  have hvalid : isValidBitPosition T (UInt64.ofNat i) = true := by
    unfold isValidBitPosition
    rw [decide_eq_true_eq, UInt64.lt_iff_toNat_lt, hnat, hT]
    exact hi
  unfold isBitSet
  rw [hvalid, if_neg (by decide), shl_eq, hnat, Bool.eq_iff_iff, bne_iff_ne]
  exact and_one_shiftLeft_ne_zero_iff i

theorem getLsbD_setBit {j : Nat} (hi : i < T.width) :
    (setBit v (getBitWidth T - 1 - UInt64.ofNat i)).getLsbD j =
    (v.getLsbD j || decide (j = T.width - 1 - i)) := by
  have h64 := width_le T
  have hnat : (getBitWidth T - 1 - UInt64.ofNat i).toNat = T.width - 1 - i := by
    have hone : (getBitWidth T - 1).toNat = T.width - 1 := by
      rw [UInt64.toNat_sub_of_le _ _ (by rw [UInt64.le_iff_toNat_le, hT]; exact width_pos T), hT]
      rfl
    have hi64 : (UInt64.ofNat i).toNat = i := by
      rw [UInt64.toNat_ofNat']
      exact Nat.mod_eq_of_lt (by omega)
    rw [UInt64.toNat_sub_of_le _ _ (by rw [UInt64.le_iff_toNat_le, hone, hi64]; omega), hone, hi64]
  have hvalid : isValidBitPosition T (getBitWidth T - 1 - UInt64.ofNat i) = true := by
    unfold isValidBitPosition
    rw [decide_eq_true_eq, UInt64.lt_iff_toNat_lt, hnat, hT]
    omega
  unfold setBit
  rw [hvalid, if_neg (by decide), shl_eq, hnat, BitVec.getLsbD_or, ← BitVec.twoPow_eq,
    BitVec.getLsbD_twoPow, decide_eq_true (show T.width - 1 - i < T.width by omega), Bool.true_and]
  congr 1
  exact decide_eq_decide.mpr eq_comm

theorem getLsbD_foldl_reverseStep {k j : Nat} (hk : k ≤ T.width) (hj : j < T.width) :
    ((List.range k).foldl (reverseStep v) 0#_).getLsbD j =
      (decide (T.width - 1 - j < k) && v.getLsbD (T.width - 1 - j)) := by
  induction k with
  | zero => simp
  | succ k ih =>
    have hbit : ∀ result : T.Value, reverseStep v result k =
        if v.getLsbD k then setBit result (getBitWidth T - 1 - UInt64.ofNat k) else result := by
      intro result
      unfold reverseStep
      rw [isBitSet_eq hT (by omega : k < T.width)]
    rw [List.range_succ, List.foldl_append, List.foldl_cons, List.foldl_nil, hbit]
    by_cases hjk : T.width - 1 - j = k
    · rw [decide_eq_true (by omega : T.width - 1 - j < k + 1), Bool.true_and, hjk]
      cases hk' : v.getLsbD k with
      | true =>
        rw [if_pos rfl, getLsbD_setBit hT (by omega), decide_eq_true
          (by omega : j = T.width - 1 - k), Bool.or_true]
      | false =>
        rw [if_neg (by decide), ih (by omega), hjk, hk', Bool.and_false]
    · have hstep : decide (T.width - 1 - j < k + 1) = decide (T.width - 1 - j < k) := by
        rw [decide_eq_decide]
        omega
      rw [hstep, ← ih (by omega)]
      split
      · rw [getLsbD_setBit hT (by omega), decide_eq_false (by omega : ¬ j = T.width - 1 - k),
          Bool.or_false]
      · rfl

theorem getLsbD_reverseBits (hi : i < T.width) :
    (reverseBits v).getLsbD i = v.getLsbD (T.width - 1 - i) := by
  unfold reverseBits
  rw [hT, getLsbD_foldl_reverseStep hT le_rfl hi, decide_eq_true (by omega), Bool.true_and]

theorem reverseBits_reverseBits : reverseBits (reverseBits v) = v := by
  apply BitVec.eq_of_getLsbD_eq
  intro i hi
  rw [getLsbD_reverseBits hT hi, getLsbD_reverseBits hT (by omega)]
  congr 1
  omega

end Rotations

/-! ## Counts are of the one bits -/

section Counts

variable {v : T.Value} {k : Nat}

theorem toNat_succ (count : UInt64) (h : count.toNat < 2 ^ 64 - 1) :
    (count + 1).toNat = count.toNat + 1 := by
  rw [UInt64.toNat_add]
  exact Nat.mod_eq_of_lt (by show _ + 1 < _; omega)

theorem clearLoop_eq {turns : Nat} {count : UInt64} (hturns : (ones v).card ≤ turns)
    (hcount : count.toNat + turns < 2 ^ 64) :
    (clearLoop v count turns).map UInt64.toNat = some (count.toNat + (ones v).card) := by
  induction turns generalizing v count with
  | zero =>
    have hempty : ones v = ∅ := Finset.card_eq_zero.mp (Nat.le_zero.mp hturns)
    rw [clearLoop, if_neg (not_not.mpr (ones_eq_empty_iff.mp hempty)), hempty]
    rfl
  | succ turns ih =>
    rw [clearLoop]
    by_cases hv : v = 0#_
    · rw [if_neg (not_not.mpr hv), ones_eq_empty_iff.mpr hv]
      rfl
    · obtain ⟨k, hk⟩ := exists_isFirst hv
      have hmem : k ∈ ones v := mem_ones.mpr hk.one
      have hcard : (ones (v &&& (v - 1#_))).card = (ones v).card - 1 := by
        rw [ones_and_sub_one hk, Finset.card_erase_of_mem hmem]
      have hpos : 0 < (ones v).card := Finset.card_pos.mpr ⟨k, hmem⟩
      have hsucc := toNat_succ count (by omega)
      rw [if_pos hv, ih (by omega) (by omega), hsucc, hcard, Option.some.injEq]
      omega

theorem countSetBits_eq : (countSetBits v).map UInt64.toNat = some (ones v).card := by
  have h64 := width_le T
  unfold countSetBits
  split
  · rename_i hv
    rw [ones_eq_empty_iff.mpr hv]
    rfl
  · rw [clearLoop_eq card_ones_le (by show 0 + _ < _; omega)]
    exact congrArg some (Nat.zero_add _)

theorem and_one_eq_zero_iff : v &&& 1#_ = 0#_ ↔ v.getLsbD 0 = false := by
  have htest := and_one_shiftLeft_ne_zero_iff (v := v) 0
  rw [BitVec.shiftLeft_zero, ne_eq] at htest
  rw [← Bool.not_eq_true, ← htest, not_not]

theorem isFirst_shr (h : IsFirst v (k + 1)) : IsFirst (shr v 1) k := by
  have hone : ((1 : UInt64)).toNat = 1 := rfl
  have hlt := h.lt
  refine ⟨?_, fun j hj => ?_⟩
  · rw [getLsbD_shr (by omega), hone, Nat.add_comm]
    exact h.one
  · rw [getLsbD_shr (by omega), hone]
    exact h.before _ (by omega)

theorem trailingLoop_eq {turns : Nat} {count : UInt64} (h : IsFirst v k) (hturns : k ≤ turns)
    (hcount : count.toNat + turns < 2 ^ 64) :
    (trailingLoop v count turns).map UInt64.toNat = some (count.toNat + k) := by
  induction k generalizing v count turns with
  | zero =>
    have hbit : ¬ (v &&& 1#_ = 0#_) := by
      rw [and_one_eq_zero_iff, h.one]
      decide
    cases turns with
    | zero => rw [trailingLoop, if_neg hbit]; rfl
    | succ turns => rw [trailingLoop, if_neg hbit]; rfl
  | succ k ih =>
    cases turns with
    | zero => omega
    | succ turns =>
      have hbit : v &&& 1#_ = 0#_ := and_one_eq_zero_iff.mpr (h.before 0 (by omega))
      have hsucc := toNat_succ count (by omega)
      rw [trailingLoop, if_pos hbit, ih (isFirst_shr h) (by omega) (by omega), hsucc,
        Option.some.injEq]
      omega

theorem countTrailingZeros_eq (h : IsFirst v k) :
    (countTrailingZeros v).map UInt64.toNat = some k := by
  have h64 := width_le T
  have hlt := h.lt
  unfold countTrailingZeros
  rw [if_neg h.ne_zero, trailingLoop_eq h (by omega) (by show 0 + _ < _; omega)]
  exact congrArg some (Nat.zero_add k)

theorem findFirstSet_eq (h : IsFirst v k) : (findFirstSet v).map UInt64.toNat = some (k + 1) := by
  have h64 := width_le T
  have hlt := h.lt
  unfold findFirstSet
  rw [if_neg h.ne_zero]
  obtain ⟨zeros, hzeros, hnat⟩ := Option.map_eq_some_iff.mp (countTrailingZeros_eq h)
  rw [hzeros, Option.map_some, Option.map_some, toNat_succ zeros (by omega), hnat]

theorem leadingLoop_eq {turns d : Nat} {i count : UInt64} (h : IsLast v k) (hi : i.toNat = k + d)
    (hvalid : k + d < (getBitWidth T).toNat) (hturns : d < turns)
    (hcount : count.toNat + turns < 2 ^ 64) :
    (leadingLoop v i count turns).map UInt64.toNat = some (count.toNat + d) := by
  have hbound := getBitWidth_le T
  induction d generalizing i count turns with
  | zero =>
    obtain ⟨turns, rfl⟩ : ∃ t, turns = t + 1 := ⟨turns - 1, by omega⟩
    have hbit : v &&& shl 1#_ i ≠ 0#_ := by
      rw [shl_eq, and_one_shiftLeft_ne_zero_iff, hi]
      exact h.one
    rw [leadingLoop, if_pos (by rw [UInt64.lt_iff_toNat_lt]; omega), if_pos hbit]
    rfl
  | succ d ih =>
    obtain ⟨turns, rfl⟩ : ∃ t, turns = t + 1 := ⟨turns - 1, by omega⟩
    have hbit : ¬ (v &&& shl 1#_ i ≠ 0#_) := by
      rw [shl_eq, and_one_shiftLeft_ne_zero_iff, hi, h.after _ (by omega)]
      decide
    have hpred : (i - 1).toNat = k + d := by
      rw [UInt64.toNat_sub_of_le _ _ (by rw [UInt64.le_iff_toNat_le, hi]; show 1 ≤ _; omega), hi]
      show _ - 1 = _
      omega
    have hsucc := toNat_succ count (by omega)
    rw [leadingLoop, if_pos (by rw [UInt64.lt_iff_toNat_lt]; omega), if_neg hbit,
      ih hpred (by omega) (by omega) (by omega), hsucc, Option.some.injEq]
    omega

theorem countLeadingZeros_eq (h : IsLast v k) :
    (countLeadingZeros v).map UInt64.toNat = some ((getBitWidth T).toNat - 1 - k) := by
  have hbound := getBitWidth_le T
  have hlt := h.lt
  have hwidth := width_le_getBitWidth T
  have htop : (getBitWidth T - 1).toNat = k + ((getBitWidth T).toNat - 1 - k) := by
    rw [UInt64.toNat_sub_of_le _ _ (by rw [UInt64.le_iff_toNat_le]; show 1 ≤ _; omega)]
    show _ - 1 = _
    omega
  unfold countLeadingZeros
  rw [if_neg h.ne_zero, leadingLoop_eq h htop (by omega) (by omega) (by show 0 + _ < _; omega)]
  exact congrArg some (Nat.zero_add _)

theorem findLastSet_eq (h : IsLast v k) : (findLastSet v).map UInt64.toNat = some (k + 1) := by
  have hbound := getBitWidth_le T
  have hlt := h.lt
  have hwidth := width_le_getBitWidth T
  unfold findLastSet
  rw [if_neg h.ne_zero]
  obtain ⟨zeros, hzeros, hnat⟩ := Option.map_eq_some_iff.mp (countLeadingZeros_eq h)
  rw [hzeros, Option.map_some, Option.map_some, UInt64.toNat_sub_of_le _ _
    (by rw [UInt64.le_iff_toNat_le]; omega), hnat, Option.some.injEq]
  omega

end Counts

/-! ## The laws -/

/-- The laws of the operations for one value and two rotations. -/
structure BitLaws (v : T.Value) (n m : UInt64) : Prop where
  rotate : ∀ i < T.width, (rotateLeft v n).getLsbD ((i + n.toNat) % T.width) = v.getLsbD i
  compose : rotateLeft (rotateLeft v n) m =
    rotateLeft v (UInt64.ofNat ((n.toNat + m.toNat) % T.width))
  inverse : rotateRight (rotateLeft v n) n = v
  reverse : ∀ i < T.width, (reverseBits v).getLsbD (T.width - 1 - i) = v.getLsbD i
  involution : reverseBits (reverseBits v) = v
  count : (countSetBits v).map UInt64.toNat = some (ones v).card
  zero : ones v = ∅ → (countTrailingZeros v).map UInt64.toNat = some T.width ∧
    (countLeadingZeros v).map UInt64.toNat = some T.width ∧ findFirstSet v = some 0 ∧
    findLastSet v = some 0
  first : ∀ k ∈ ones v, (∀ j ∈ ones v, k ≤ j) →
    (countTrailingZeros v).map UInt64.toNat = some k ∧
    (findFirstSet v).map UInt64.toNat = some (k + 1)
  last : ∀ k ∈ ones v, (∀ j ∈ ones v, j ≤ k) →
    (countLeadingZeros v).map UInt64.toNat = some (T.width - 1 - k) ∧
    (findLastSet v).map UInt64.toNat = some (k + 1)

theorem bitLaws_of_width (hT : (getBitWidth T).toNat = T.width) (v : T.Value) (n m : UInt64) :
    BitLaws v n m where
  rotate := fun _ hi => getLsbD_rotateLeft_add hT hi
  compose := rotateLeft_rotateLeft hT
  inverse := rotateRight_rotateLeft hT
  reverse := by
    intro i hi
    rw [getLsbD_reverseBits hT (by omega)]
    congr 1
    omega
  involution := reverseBits_reverseBits hT
  count := countSetBits_eq
  zero := by
    intro hempty
    have hv := ones_eq_empty_iff.mp hempty
    unfold countTrailingZeros countLeadingZeros findFirstSet findLastSet
    rw [if_pos hv, if_pos hv, if_pos hv, if_pos hv, Option.map_some, hT]
    exact ⟨rfl, rfl, rfl, rfl⟩
  first := fun _ hk hmin =>
    ⟨countTrailingZeros_eq (isFirst_of_le hk hmin), findFirstSet_eq (isFirst_of_le hk hmin)⟩
  last := by
    intro k hk hmax
    have hlast := isLast_of_le hk hmax
    rw [countLeadingZeros_eq hlast, hT]
    exact ⟨rfl, findLastSet_eq hlast⟩

/-- The laws hold exactly for the predeclared types and those of 64 bits. In any other type already
the leading zeros of every value are wrong. -/
theorem bitLaws_iff (T : IntType) (v : T.Value) (n m : UInt64) :
    BitLaws v n m ↔ T.named = false ∨ T.width = 64 := by
  have hwidth := getBitWidth_toNat T
  have h64 := width_le T
  refine ⟨fun hlaws => ?_, fun h => bitLaws_of_width ?_ v n m⟩
  · by_contra hnot
    rw [not_or, Bool.not_eq_false] at hnot
    rw [hnot.1, if_pos rfl] at hwidth
    by_cases hv : v = 0#_
    · have hzeros := (hlaws.zero (ones_eq_empty_iff.mpr hv)).2.1
      unfold countLeadingZeros at hzeros
      rw [if_pos hv, Option.map_some, hwidth, Option.some.injEq] at hzeros
      exact hnot.2 hzeros.symm
    · obtain ⟨k, hk⟩ := exists_isLast hv
      have hmax : ∀ j ∈ ones v, j ≤ k := by
        intro j hj
        by_contra hlt
        have hbit := hk.after j (by omega)
        rw [mem_ones.mp hj] at hbit
        cases hbit
      have hzeros := (hlaws.last k (mem_ones.mpr hk.one) hmax).1
      have hlt := hk.lt
      rw [countLeadingZeros_eq hk, hwidth, Option.some.injEq] at hzeros
      omega
  · rw [hwidth]
    rcases h with hpre | hwide
    · rw [hpre, if_neg (by decide)]
    · rw [hwide, ite_self]

/-- A defined type of eight bits: the bit that leaves at the top is lost, the reversal is zero, and
one has 63 leading zeros. -/
theorem named_uint8_as_64_bits :
    (rotateLeft (T := namedUint8) 129#8 1).toNat = 2 ∧
    (reverseBits (T := namedUint8) 1#8).toNat = 0 ∧
    countLeadingZeros (T := namedUint8) 1#8 = some 63 :=
  ⟨by decide, by decide +kernel, by decide +kernel⟩

end GoAtlas.Bits
