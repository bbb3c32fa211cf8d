import GoAtlas.Lib.OneBits

/-!
# Ranges of bits

The operations of package `bits` on the bits `[start, start+length)` of an integer of any type. The
width of the type is found by a type switch on a value, which has no case for a defined type: such a
type is taken to have 64 bits. The end of the range is computed modulo 2^64.
-/

namespace GoAtlas.Bits

open Lib.OneBits

/-! ## Integer types -/

/-- The size of a machine word. -/
inductive Arch where
  | bits32
  | bits64
  deriving DecidableEq, Repr

/-- `unsafe.Sizeof(uint(0))`, in bytes. -/
def Arch.wordSize : Arch → UInt64
  | .bits32 => 4
  | .bits64 => 8

inductive Kind where
  | int
  | int8
  | int16
  | int32
  | int64
  | uint
  | uint8
  | uint16
  | uint32
  | uint64
  | uintptr
  deriving DecidableEq, Repr

/-- A type of `constraints.Integer`: a predeclared type, or a defined type with that underlying
type. -/
structure IntType where
  arch : Arch
  kind : Kind
  named : Bool
  deriving DecidableEq, Repr

namespace IntType

variable (T : IntType)

def width : Nat :=
  match T.kind with
  | .int8 | .uint8 => 8
  | .int16 | .uint16 => 16
  | .int32 | .uint32 => 32
  | .int64 | .uint64 => 64
  | .int | .uint | .uintptr => 8 * T.arch.wordSize.toNat

def signed : Bool :=
  match T.kind with
  | .int | .int8 | .int16 | .int32 | .int64 => true
  | .uint | .uint8 | .uint16 | .uint32 | .uint64 | .uintptr => false

abbrev Value : Type := BitVec T.width

end IntType

variable {T : IntType}

/-- `v << n`; the count has no upper limit. -/
def shl (v : T.Value) (n : UInt64) : T.Value := if T.width ≤ n.toNat then 0#_ else v <<< n.toNat

theorem shl_eq (v : T.Value) (n : UInt64) : shl v n = v <<< n.toNat := by
  unfold shl
  split
  · rename_i hle
    rw [BitVec.shiftLeft_eq_zero hle]
  · rfl

/-- `v >> n`: an arithmetic shift of a signed value. -/
def shr (v : T.Value) (n : UInt64) : T.Value :=
  if T.signed then v.sshiftRight n.toNat else v >>> n.toNat

/-- The type switch. A defined type is none of the cases. -/
def getBitWidth (T : IntType) : UInt64 :=
  if T.named then 64
  else
    match T.kind with
    | .uint8 | .int8 => 8
    | .uint16 | .int16 => 16
    | .uint32 | .int32 => 32
    | .uint64 | .int64 => 64
    | .uint | .int => T.arch.wordSize * 8
    | .uintptr => T.arch.wordSize * 8

def isValidBitPosition (T : IntType) (bitPosition : UInt64) : Bool := bitPosition < getBitWidth T

def isValidBitRange (T : IntType) (start length : UInt64) : Bool :=
  start < getBitWidth T && start + length ≤ getBitWidth T

/-! ## The operations -/

/-- `T((1 << length) - 1)`. -/
def mask (T : IntType) (length : UInt64) : T.Value := shl (T := T) 1#_ length - 1#_

def getBits (v : T.Value) (start length : UInt64) : T.Value :=
  if length == 0 || !isValidBitRange T start length then 0#_ else shr v start &&& mask T length

def setBits (v : T.Value) (start length : UInt64) : T.Value :=
  if length == 0 || !isValidBitRange T start length then v else v ||| shl (mask T length) start

def clearBits (v : T.Value) (start length : UInt64) : T.Value :=
  if length == 0 || !isValidBitRange T start length then v else v &&& ~~~shl (mask T length) start

def toggleBits (v : T.Value) (start length : UInt64) : T.Value :=
  if length == 0 || !isValidBitRange T start length then v else v ^^^ shl (mask T length) start

def testBits (v : T.Value) (start length : UInt64) : Bool :=
  if length == 0 then true
  else if !isValidBitRange T start length then false
  else v &&& shl (mask T length) start == shl (mask T length) start

/-! ## Widths -/

theorem getBitWidth_toNat (T : IntType) :
    (getBitWidth T).toNat = if T.named then 64 else T.width := by
  obtain ⟨arch, kind, named⟩ := T
  cases named <;> cases kind <;> cases arch <;> rfl

theorem width_pos (T : IntType) : 0 < T.width := by
  obtain ⟨arch, kind, named⟩ := T
  cases named <;> cases kind <;> cases arch <;> decide

theorem width_le (T : IntType) : T.width ≤ 64 := by
  obtain ⟨arch, kind, named⟩ := T
  cases named <;> cases kind <;> cases arch <;> decide

theorem width_le_getBitWidth (T : IntType) : T.width ≤ (getBitWidth T).toNat := by
  rw [getBitWidth_toNat]
  split
  · exact width_le T
  · exact le_rfl

theorem getBitWidth_le (T : IntType) : (getBitWidth T).toNat ≤ 64 := by
  rw [getBitWidth_toNat]
  split
  · exact le_rfl
  · exact width_le T

theorem isValidBitRange_iff {start length : UInt64} : isValidBitRange T start length = true ↔
    start.toNat < (getBitWidth T).toNat ∧
      (start.toNat + length.toNat) % 2 ^ 64 ≤ (getBitWidth T).toNat := by
  unfold isValidBitRange
  rw [Bool.and_eq_true, decide_eq_true_eq, decide_eq_true_eq, UInt64.lt_iff_toNat_lt,
    UInt64.le_iff_toNat_le, UInt64.toNat_add]

/-! ## Masks -/

variable {v : T.Value} {start length : UInt64} {i : Nat}

def within (start length : UInt64) (i : Nat) : Bool :=
  start.toNat ≤ i && i < start.toNat + length.toNat

theorem getLsbD_mask :
    (mask T length).getLsbD i = (decide (i < T.width) && decide (i < length.toNat)) := by
  unfold mask
  rw [shl_eq]
  exact getLsbD_one_shiftLeft_sub_one length.toNat i

theorem getLsbD_shl_mask :
    (shl (mask T length) start).getLsbD i = (decide (i < T.width) && within start length i) := by
  unfold within
  rw [shl_eq, BitVec.getLsbD_shiftLeft, getLsbD_mask, Bool.eq_iff_iff]
  simp only [Bool.and_eq_true, Bool.not_eq_true', decide_eq_true_eq, decide_eq_false_iff_not]
  omega

theorem getLsbD_shr (h : start.toNat + i < T.width) :
    (shr v start).getLsbD i = v.getLsbD (start.toNat + i) := by
  unfold shr
  split
  · rw [BitVec.getLsbD_sshiftRight, if_pos h, decide_eq_false (by omega)]
    rfl
  · rw [BitVec.getLsbD_ushiftRight]

theorem and_shl_mask_eq_iff :
    (v &&& shl (mask T length) start == shl (mask T length) start) = true ↔
    ∀ i < T.width, within start length i = true → v.getLsbD i = true := by
  rw [beq_iff_eq, BitVec.eq_of_getLsbD_eq_iff]
  refine forall₂_congr fun i hi => ?_
  rw [BitVec.getLsbD_and, getLsbD_shl_mask, decide_eq_true hi, Bool.true_and,
    Bool.and_eq_right_iff_imp]

/-! ## The law of the ranges -/

def InRange (w : Nat) (start length : UInt64) : Prop :=
  start.toNat < w ∧ start.toNat + length.toNat ≤ w

instance (w : Nat) (start length : UInt64) : Decidable (InRange w start length) :=
  inferInstanceAs (Decidable (_ ∧ _))

/-- The operations on one value and one range. The test of no bits succeeds wherever the range
starts. -/
structure RangeLaw (v : T.Value) (start length : UInt64) : Prop where
  get : InRange T.width start length →
    ∀ i, (getBits v start length).getLsbD i =
    (decide (i < length.toNat) && v.getLsbD (start.toNat + i))
  set : InRange T.width start length →
    ∀ i, (setBits v start length).getLsbD i = (within start length i || v.getLsbD i)
  clear : InRange T.width start length →
    ∀ i, (clearBits v start length).getLsbD i = (!within start length i && v.getLsbD i)
  toggle : InRange T.width start length →
    ∀ i, (toggleBits v start length).getLsbD i = (within start length i ^^ v.getLsbD i)
  test : InRange T.width start length →
    (testBits v start length = true ↔ ∀ i, within start length i = true → v.getLsbD i = true)
  out : ¬ InRange T.width start length →
    getBits v start length = 0#_ ∧ setBits v start length = v ∧ clearBits v start length = v ∧
      toggleBits v start length = v ∧ testBits v start length = decide (length = 0)

theorem lt_of_within (h : InRange T.width start length) (hi : within start length i = true) :
    i < T.width := by
  unfold within at hi
  rw [Bool.and_eq_true, decide_eq_true_eq, decide_eq_true_eq] at hi
  have := h.2
  omega

theorem within_of_length_eq_zero (h : length = 0) : within start length i = false := by
  subst h
  unfold within
  rw [Bool.and_eq_false_iff, decide_eq_false_iff_not, decide_eq_false_iff_not]
  show _ ∨ ¬ i < start.toNat + 0
  omega

section

variable (h : InRange T.width start length)
include h

theorem guard_eq :
    (length == 0 || !isValidBitRange T start length) = (length == 0) := by
  have hwidth := width_le_getBitWidth T
  have hbound := getBitWidth_le T
  have hvalid : isValidBitRange T start length = true := by
    rw [isValidBitRange_iff, Nat.mod_eq_of_lt (by have := h.2; omega)]
    exact ⟨h.1.trans_le hwidth, h.2.trans hwidth⟩
  rw [hvalid]
  simp

theorem getLsbD_shl_mask_of_inRange :
    (shl (mask T length) start).getLsbD i = within start length i := by
  rw [getLsbD_shl_mask]
  cases hi : within start length i with
  | false => rw [Bool.and_false]
  | true => rw [decide_eq_true (lt_of_within h hi), Bool.and_self]

theorem getLsbD_getBits (i : Nat) :
    (getBits v start length).getLsbD i =
    (decide (i < length.toNat) && v.getLsbD (start.toNat + i)) := by
  unfold getBits
  rw [guard_eq h]
  by_cases hlen : length = 0
  · subst hlen
    simp
  · rw [beq_false_of_ne hlen, if_neg (by decide), BitVec.getLsbD_and, getLsbD_mask]
    by_cases hi : i < length.toNat
    · have hrange := h.2
      rw [getLsbD_shr (by omega), decide_eq_true hi, decide_eq_true (show i < T.width by omega),
        Bool.and_self, Bool.and_true, Bool.true_and]
    · rw [decide_eq_false hi, Bool.and_false, Bool.and_false, Bool.false_and]

theorem getLsbD_setBits (i : Nat) :
    (setBits v start length).getLsbD i = (within start length i || v.getLsbD i) := by
  unfold setBits
  rw [guard_eq h]
  by_cases hlen : length = 0
  · rw [within_of_length_eq_zero hlen, hlen]
    simp
  · rw [beq_false_of_ne hlen, if_neg (by decide), BitVec.getLsbD_or, getLsbD_shl_mask_of_inRange h,
      Bool.or_comm]

theorem getLsbD_clearBits (i : Nat) :
    (clearBits v start length).getLsbD i = (!within start length i && v.getLsbD i) := by
  unfold clearBits
  rw [guard_eq h]
  by_cases hlen : length = 0
  · rw [within_of_length_eq_zero hlen, hlen]
    simp
  · rw [beq_false_of_ne hlen, if_neg (by decide), BitVec.getLsbD_and, BitVec.getLsbD_not,
      getLsbD_shl_mask_of_inRange h, Bool.and_comm]
    by_cases hlt : i < T.width
    · rw [decide_eq_true hlt, Bool.true_and]
    · rw [BitVec.getLsbD_of_ge v i (by omega), Bool.and_false, Bool.and_false]

theorem getLsbD_toggleBits (i : Nat) :
    (toggleBits v start length).getLsbD i = (within start length i ^^ v.getLsbD i) := by
  unfold toggleBits
  rw [guard_eq h]
  by_cases hlen : length = 0
  · rw [within_of_length_eq_zero hlen, hlen]
    simp
  · rw [beq_false_of_ne hlen, if_neg (by decide), BitVec.getLsbD_xor, getLsbD_shl_mask_of_inRange h,
      Bool.xor_comm]

theorem testBits_iff :
    testBits v start length = true ↔ ∀ i, within start length i = true → v.getLsbD i = true := by
  unfold testBits
  by_cases hlen : length = 0
  · rw [hlen]
    refine iff_of_true rfl fun i hi => ?_
    rw [within_of_length_eq_zero rfl] at hi
    cases hi
  · have hguard := guard_eq h
    rw [beq_false_of_ne hlen, Bool.false_or] at hguard
    rw [beq_false_of_ne hlen, if_neg (by decide), hguard, if_neg (by decide), and_shl_mask_eq_iff]
    exact ⟨fun hall i hi => hall i (lt_of_within h hi) hi, fun hall i _ hi => hall i hi⟩

theorem rangeLaw_of_inRange : RangeLaw v start length where
  get := getLsbD_getBits
  set := getLsbD_setBits
  clear := getLsbD_clearBits
  toggle := getLsbD_toggleBits
  test := testBits_iff
  out := fun hout => absurd h hout

end

/-- Out of range, an operation on no bits or one that is refused changes nothing. -/
theorem rangeLaw_of_refused (hout : ¬ InRange T.width start length)
    (h : length = 0 ∨ isValidBitRange T start length = false) : RangeLaw v start length where
  get := fun hin => absurd hin hout
  set := fun hin => absurd hin hout
  clear := fun hin => absurd hin hout
  toggle := fun hin => absurd hin hout
  test := fun hin => absurd hin hout
  out := by
    intro _
    unfold getBits setBits clearBits toggleBits testBits
    by_cases hlen : length = 0
    · rw [hlen]
      exact ⟨rfl, rfl, rfl, rfl, rfl⟩
    · rw [beq_false_of_ne hlen, h.resolve_left hlen, decide_eq_false hlen]
      exact ⟨rfl, rfl, rfl, rfl, rfl⟩

theorem not_rangeLaw_of_valid (hout : ¬ InRange T.width start length) (hlen : length ≠ 0)
    (hvalid : isValidBitRange T start length = true) : ¬ RangeLaw v start length := by
  intro hlaw
  obtain ⟨-, -, -, htoggle, htest⟩ := hlaw.out hout
  unfold testBits at htest
  unfold toggleBits at htoggle
  rw [hvalid, beq_false_of_ne hlen, if_neg (by decide)] at htoggle
  rw [hvalid, beq_false_of_ne hlen, if_neg (by decide), if_neg (by decide),
    decide_eq_false hlen] at htest
  have hmask : shl (mask T length) start = 0#_ := by
    apply BitVec.eq_of_getLsbD_eq
    intro i _
    have hbit := congrArg (BitVec.getLsbD · i) htoggle
    rw [BitVec.getLsbD_xor] at hbit
    rw [BitVec.getLsbD_zero]
    cases hm : (shl (mask T length) start).getLsbD i with
    | false => rfl
    | true =>
      rw [hm] at hbit
      cases hv : v.getLsbD i <;> rw [hv] at hbit <;> cases hbit
  rw [hmask, BitVec.and_zero, beq_self_eq_true] at htest
  cases htest

/-- A range of no bits, or one that starts, or ends below 2^64, beyond the width the type switch
finds. -/
def Refused (T : IntType) (start length : UInt64) : Prop :=
  length = 0 ∨ (getBitWidth T).toNat ≤ start.toNat ∨
    ((getBitWidth T).toNat < start.toNat + length.toNat ∧ start.toNat + length.toNat < 2 ^ 64)

instance (T : IntType) (start length : UInt64) : Decidable (Refused T start length) :=
  inferInstanceAs (Decidable (_ ∨ _))

theorem rangeLaw_iff (v : T.Value) (start length : UInt64) :
    RangeLaw v start length ↔ InRange T.width start length ∨ Refused T start length := by
  have hbound := getBitWidth_le T
  unfold Refused
  by_cases h : InRange T.width start length
  · exact iff_of_true (rangeLaw_of_inRange h) (.inl h)
  by_cases hlen : length = 0
  · exact iff_of_true (rangeLaw_of_refused h (.inl hlen)) (.inr (.inl hlen))
  cases hvalid : isValidBitRange T start length with
  | false =>
    refine iff_of_true (rangeLaw_of_refused h (.inr hvalid)) (.inr (.inr ?_))
    have hnot := isValidBitRange_iff.not.mp (Bool.eq_false_iff.mp hvalid)
    have hlt := start.toNat_lt
    have hlt' := length.toNat_lt
    omega
  | true =>
    refine iff_of_false (not_rangeLaw_of_valid h hlen hvalid) ?_
    have hmod := isValidBitRange_iff.mp hvalid
    rintro (hin | hzero | hrefused)
    · exact h hin
    · exact hlen hzero
    · omega

/-- Each operation reads or changes the bits of a range that lies in the type, named or not, and
nothing for one that lies beyond the width found; there a test fails unless it is of no bits. -/
theorem ranges_exact (T : IntType) (v : T.Value) (start length : UInt64)
    (h : InRange T.width start length ∨ Refused T start length) : RangeLaw v start length :=
  (rangeLaw_iff v start length).mpr h

def predeclaredUint8 : IntType := ⟨.bits64, .uint8, false⟩

def namedUint8 : IntType := ⟨.bits64, .uint8, true⟩

/-- The last two bits of a `uint8` and two beyond them. -/
theorem ranges_exact_beyond :
    Refused predeclaredUint8 6 4 ∧ ¬ InRange 8 6 4 ∧ RangeLaw (T := predeclaredUint8) 255#8 6 4 ∧
    InRange 8 2 3 ∧ RangeLaw (T := namedUint8) 28#8 2 3 :=
  ⟨by decide, by decide, ranges_exact predeclaredUint8 255#8 6 4 (.inr (by decide)), by decide,
    ranges_exact namedUint8 28#8 2 3 (.inl (by decide))⟩

/-- By its documentation, `TestBits` of no bits is true, also where no bit is. -/
theorem ranges_let_through :
    ¬ InRange 8 8 0 ∧ testBits (T := predeclaredUint8) 0#8 8 0 = true ∧
      testBits (T := namedUint8) 255#8 200 0 = true :=
  ⟨by decide, rfl, rfl⟩

-- Two slips that are neither in range nor refused: the end of the range wraps around, and a defined
-- type is taken to have 64 bits.
example : ¬ InRange 8 1 (-1) ∧ setBits (T := predeclaredUint8) 0#8 1 (-1) = 254#8 :=
  ⟨by decide, rfl⟩

example : ¬ InRange 8 4 5 ∧ getBits (T := namedUint8) 240#8 4 5 = 15#8 := ⟨by decide, rfl⟩

end GoAtlas.Bits
