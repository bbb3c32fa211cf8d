import GoAtlas.Filter.Evaluator

/-!
# The comparisons of values

`compare` and the equality of `in` are two chains of cases over the dynamic types. On values that
are no floats each pair either has an order that both follow, the pair turned around included, or
has none; then every ordering comparison fails.
-/

namespace GoAtlas.Filter

open GoAtlas.Lib

variable {lib : GoLib} {a b : Value}

/-! ## Integers -/

def Value.integer? : Value → Option Int
  | .int64 i | .int32 i | .int i => some i
  | .uint64 n => some n
  | _ => none

theorem compare_natCast (m n : Nat) : compare (m : Int) (n : Int) = compare m n := by
  rcases lt_trichotomy m n with h | rfl | h
  · rw [compare_lt_iff_lt.mpr h, compare_lt_iff_lt.mpr (by exact_mod_cast h)]
  · rw [compare_eq_iff_eq.mpr rfl, compare_eq_iff_eq.mpr rfl]
  · rw [compare_gt_iff_gt.mpr h, compare_gt_iff_gt.mpr (by exact_mod_cast h)]

theorem compare_unsigned_signed (n : Nat) (i : Int) :
    (if i < 0 then .gt else compare n i.toNat) = compare (n : Int) i := by
  split
  · exact (compare_gt_iff_gt.mpr (by omega)).symm
  · rw [← compare_natCast, Int.toNat_of_nonneg (by omega)]

theorem compare_signed_unsigned (i : Int) (n : Nat) :
    (if i < 0 then .lt else compare i.toNat n) = compare i (n : Int) := by
  split
  · exact (compare_lt_iff_lt.mpr (by omega)).symm
  · rw [← compare_natCast, Int.toNat_of_nonneg (by omega)]

theorem compareIntegers_eq {i j : Int} (ha : a.integer? = some i) (hb : b.integer? = some j) :
    compareIntegers a b = some (compare i j) := by
  cases a <;> cases ha <;> cases b <;> cases hb <;>
    simp only [compareIntegers, integerParts, compare_unsigned_signed, compare_signed_unsigned,
      compare_natCast]

theorem compareIntegers_eq_none (h : a.integer? = none ∨ b.integer? = none) :
    compareIntegers a b = none := by
  rcases h with h | h
  · cases a <;> cases h <;> rfl
  · cases b <;> cases h <;> simp only [compareIntegers, integerParts] <;> split <;> simp_all

/-! ## One order for a pair -/

def NoFloat (v : Value) : Prop := ∀ f, v ≠ .float64 f

def orderings : List Operator := [.opLT, .opLTE, .opGT, .opGTE]

/-- The pair compares as `c`, the pair turned around as the opposite, and the values are equal if
`c` says so. -/
structure Ordered (lib : GoLib) (a b : Value) (c : Ordering) : Prop where
  compare : ∀ op, compareValues lib op a b = compareResult op c
  swap : ∀ op, compareValues lib op b a = compareResult op c.swap
  equal : valuesEqual lib a b = (c == .eq)

/-- The pair has no order, and its equality, if it has one, is that of `in`. -/
structure Unordered (lib : GoLib) (a b : Value) : Prop where
  fails : ∀ op ∈ orderings, ∀ r, compareValues lib op a b ≠ .ok r
  equal : ∀ r, compareValues lib .opEqual a b = .ok r → valuesEqual lib a b = r

def Value.isDecimal : Value → Bool
  | .decimal _ => true
  | _ => false

theorem compareDecimal_eq (lib : GoLib) (a b : Value) :
    compareDecimal lib a b = if a.isDecimal || b.isDecimal then
      some do
        let l ← decimalLiteral lib a
        let r ← decimalLiteral lib b
        .ok (lib.cmp l r)
    else none := by
  cases a <;> cases b <;> rfl

theorem GoLib.CmpByValue.swap (h : lib.CmpByValue) (x y : Decimal) :
    lib.cmp y x = (lib.cmp x y).swap := by
  rw [h, h]
  exact Std.OrientedOrd.eq_swap

theorem compareDecimal_swap (hcmp : lib.CmpByValue) {c : Ordering}
    (h : compareDecimal lib a b = some (.ok c)) :
    compareDecimal lib b a = some (.ok c.swap) := by
  rw [compareDecimal_eq] at h
  split at h
  · rename_i hdecimal
    rw [compareDecimal_eq, if_pos (by rwa [Bool.or_comm])]
    cases hl : decimalLiteral lib a <;> cases hr : decimalLiteral lib b <;>
      rw [hl, hr] at h <;> cases h
    exact congrArg (fun c => some (Except.ok c)) (hcmp.swap _ _)
  · cases h

theorem unordered_of_null (h : a = .null ∨ b = .null) : Unordered lib a b := by
  have hnil : ∀ op, compareValues lib op a b = compareNil op a b := by
    intro op
    rw [compareValues, if_pos (by rcases h with rfl | rfl <;> simp [Value.isNull])]
  refine ⟨fun op hop r => ?_, fun r hr => ?_⟩
  · rw [hnil]
    simp only [orderings, List.mem_cons, List.not_mem_nil, or_false] at hop
    rcases hop with rfl | rfl | rfl | rfl <;> simp [compareNil]
  · rw [hnil] at hr
    cases hr
    rcases h with rfl | rfl
    · cases b <;> rfl
    · cases a <;> try rfl
      case decimal d => cases hd : boundedDecimal d <;>
        simp [valuesEqual, compareDecimal, decimalLiteral, hd, bind, Except.bind, Value.isNull]

theorem ordered_of_integers {i j : Int} (ha : a.integer? = some i) (hb : b.integer? = some j) :
    Ordered lib a b (compare i j) := by
  have hab := compareIntegers_eq ha hb
  have hba := compareIntegers_eq hb ha
  rw [Std.OrientedOrd.eq_swap] at hba
  refine ⟨fun op => ?_, fun op => ?_, ?_⟩
  · cases a <;> cases ha <;> cases b <;> cases hb <;>
      simp only [compareValues, Value.isNull, compareDecimal, compareTyped, hab, Bool.or_self,
        Bool.false_eq_true, if_false]
  · cases a <;> cases ha <;> cases b <;> cases hb <;>
      simp only [compareValues, Value.isNull, compareDecimal, compareTyped, hba, Bool.or_self,
        Bool.false_eq_true, if_false]
  · cases a <;> cases ha <;> cases b <;> cases hb <;> simp only [valuesEqual, compareDecimal, hab]

/-- Values of one type that is neither numeric nor a truth value. -/
inductive SameType : Value → Value → Ordering → Prop where
  | time (s t : Int) : SameType (.time s) (.time t) (compare s t)
  | bytes (s t : Option (List UInt8)) : SameType (.bytes s) (.bytes t) (compareBytes s t)
  | string (s t : String) : SameType (.string s) (.string t) (compare s t)

theorem SameType.ordered {c : Ordering} (h : SameType a b c) : Ordered lib a b c := by
  cases h with
  | time s t =>
    refine ⟨fun _ => rfl, fun op => ?_, Std.compare_beq_eq_beq.symm⟩
    rw [← Std.OrientedOrd.eq_swap]
    rfl
  | bytes s t =>
    refine ⟨fun _ => rfl, fun op => ?_, Std.compare_beq_eq_beq.symm⟩
    rw [compareBytes, ← Std.OrientedOrd.eq_swap]
    rfl
  | string s t =>
    refine ⟨fun _ => rfl, fun op => ?_, Std.compare_beq_eq_beq.symm⟩
    rw [← Std.OrientedOrd.eq_swap]
    rfl

theorem integer_of_toFloat64 (ha : NoFloat a) {f : Double} (h : toFloat64 a = some f) :
    ∃ i, a.integer? = some i := by
  cases a <;> first | exact ⟨_, rfl⟩ | exact absurd rfl (ha _) | cases h

theorem compareTyped_fails (ha : NoFloat a) (hb : NoFloat b)
    (hint : ¬ ((∃ i, a.integer? = some i) ∧ ∃ j, b.integer? = some j))
    (hsame : ¬ ∃ c, SameType a b c) (op : Operator) :
    (∃ l r, a = .bool l ∧ b = .bool r) ∨ ∃ e, compareTyped op a b = .error e := by
  unfold compareTyped
  split
  · exact absurd ⟨_, .time _ _⟩ hsame
  · exact absurd ⟨_, .bytes _ _⟩ hsame
  · exact absurd ⟨_, .string _ _⟩ hsame
  · exact .inl ⟨_, _, rfl, rfl⟩
  · refine .inr ?_
    rw [compareIntegers_eq_none (by
      by_contra h
      simp only [not_or, ← ne_eq, Option.ne_none_iff_exists'] at h
      exact hint h)]
    dsimp only
    split
    · rename_i hl hr
      exact absurd ⟨integer_of_toFloat64 ha hl, integer_of_toFloat64 hb hr⟩ hint
    · exact ⟨_, rfl⟩

theorem ordered_or_unordered (hcmp : lib.CmpByValue) (ha : NoFloat a) (hb : NoFloat b) :
    (∃ c, Ordered lib a b c) ∨ Unordered lib a b := by
  by_cases hnull : a = .null ∨ b = .null
  · exact .inr (unordered_of_null hnull)
  obtain ⟨hna, hnb⟩ := not_or.mp hnull
  have hif : ¬ ((a.isNull || b.isNull) = true) := by simp [hna, hnb]
  have hif' : ¬ ((b.isNull || a.isNull) = true) := by simp [hna, hnb]
  match hd : compareDecimal lib a b with
  | some (.ok c) =>
    refine .inl ⟨c, fun op => ?_, fun op => ?_, ?_⟩
    · rw [compareValues, if_neg hif, hd]
    · rw [compareValues, if_neg hif', compareDecimal_swap hcmp hd]
    · unfold valuesEqual
      rw [hd]
  | some (.error e) =>
    have hfails : ∀ op r, compareValues lib op a b ≠ .ok r := by
      intro op r
      rw [compareValues, if_neg hif, hd]
      exact nofun
    exact .inr ⟨fun op _ => hfails op, fun r hr => absurd hr (hfails _ r)⟩
  | none =>
    by_cases hint : (∃ i, a.integer? = some i) ∧ ∃ j, b.integer? = some j
    · obtain ⟨⟨i, hi⟩, j, hj⟩ := hint
      exact .inl ⟨_, ordered_of_integers hi hj⟩
    by_cases hsame : ∃ c, SameType a b c
    · obtain ⟨c, hc⟩ := hsame
      exact .inl ⟨c, hc.ordered⟩
    have hab : ∀ op, compareValues lib op a b = compareTyped op a b := by
      intro op
      rw [compareValues, if_neg hif, hd]
    refine .inr ⟨fun op hop r hr => ?_, fun r hr => ?_⟩
    · rw [hab] at hr
      rcases compareTyped_fails ha hb hint hsame op with ⟨l, r, rfl, rfl⟩ | ⟨e, he⟩
      · simp only [orderings, List.mem_cons, List.not_mem_nil, or_false] at hop
        rcases hop with rfl | rfl | rfl | rfl <;> cases hr
      · rw [he] at hr
        cases hr
    · rw [hab] at hr
      rcases compareTyped_fails ha hb hint hsame .opEqual with ⟨l, r, rfl, rfl⟩ | ⟨e, he⟩
      · cases hr
        rfl
      · rw [he] at hr
        cases hr

/-- Over values that are no floats: an equality that `compare` decides is that of `in`; where one
ordering comparison succeeds, all do, exactly one of `<`, `==` and `>` holds, the others are what
follows from them, and the pair turned around compares the other way; and integers compare as
integers. -/
theorem compare_consistent (lib : GoLib) (hcmp : lib.CmpByValue) (a b : Value) (ha : NoFloat a)
    (hb : NoFloat b) :
    (∀ r, compareValues lib .opEqual a b = .ok r → valuesEqual lib a b = r) ∧
    (∀ op ∈ orderings, ∀ r, compareValues lib op a b = .ok r → ∃ lt eq gt : Bool,
      compareValues lib .opLT a b = .ok lt ∧ compareValues lib .opEqual a b = .ok eq ∧
      compareValues lib .opGT a b = .ok gt ∧ [lt, eq, gt].count true = 1 ∧
      compareValues lib .opLTE a b = .ok (lt || eq) ∧ compareValues lib .opGTE a b =
        .ok (gt || eq) ∧
      compareValues lib .opGT b a = .ok lt ∧ compareValues lib .opLT b a = .ok gt) ∧
    ∀ i j, a.integer? = some i → b.integer? = some j → ∀ op, compareValues lib op a b =
      compareResult op (compare i j) := by
  refine ⟨fun r hr => ?_, fun op hop r hr => ?_,
    fun i j hi hj op => (ordered_of_integers hi hj).compare op⟩
  · rcases ordered_or_unordered hcmp ha hb with ⟨c, hc⟩ | hun
    · rw [hc.compare] at hr
      cases hr
      exact hc.equal
    · exact hun.equal r hr
  · rcases ordered_or_unordered hcmp ha hb with ⟨c, hc⟩ | hun
    · refine ⟨c == .lt, c == .eq, c == .gt, hc.compare _, hc.compare _, hc.compare _, ?_,
        ?_, ?_, ?_, ?_⟩
      · cases c <;> rfl
      · rw [hc.compare]
        cases c <;> rfl
      · rw [hc.compare]
        cases c <;> rfl
      · rw [hc.swap]
        cases c <;> rfl
      · rw [hc.swap]
        cases c <;> rfl
    · exact absurd hr (hun.fails op hop r)

theorem compare_consistent_extremes :
    compareValues refusingLib .opLT (.int64 (-1)) (.uint64 (2 ^ 64 - 1)) = .ok true ∧
      compareValues refusingLib .opGT (.uint64 (2 ^ 64 - 1)) (.int64 (-1)) = .ok true := by
  have hcmp : refusingLib.CmpByValue := fun _ _ => rfl
  have hlt := (compare_consistent refusingLib hcmp (.int64 (-1)) (.uint64 (2 ^ 64 - 1))
    nofun nofun).2.2 _ _ rfl rfl .opLT
  have hgt := (compare_consistent refusingLib hcmp (.uint64 (2 ^ 64 - 1)) (.int64 (-1))
    nofun nofun).2.2 _ _ rfl rfl .opGT
  exact ⟨hlt.trans (by decide), hgt.trans (by decide)⟩

end GoAtlas.Filter
