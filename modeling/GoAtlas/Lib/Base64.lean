import GoAtlas.Lib.Bytes

/-!
# Base64

Three bytes are four digits of the URL-safe alphabet; one or two bytes at the end are two or three
digits, whose unused bits a strict decoder wants to be zero. The decoder skips line breaks. Encoding
and decoding are inverse to each other on strings without line breaks, and both may be done piece by
piece as long as the pieces before the last are whole. With padding the text is filled up to whole
groups of four characters; the standard alphabet has `+` and `/` for `-` and `_`.
-/

namespace GoAtlas.Lib.Base64

/-! ## The alphabet -/

/-- The character of a digit: `A-Z`, `a-z`, `0-9`, `-`, `_`. -/
def char (d : Nat) : UInt8 :=
  UInt8.ofNat (if d < 26 then 65 + d else if d < 52 then 97 + (d - 26)
    else if d < 62 then 48 + (d - 52)
    else if d = 62 then 45 else 95)

def digit? (c : UInt8) : Option Nat :=
  let n := c.toNat
  if 65 ≤ n ∧ n ≤ 90 then some (n - 65)
  else if 97 ≤ n ∧ n ≤ 122 then some (n - 97 + 26)
  else if 48 ≤ n ∧ n ≤ 57 then some (n - 48 + 52)
  else if n = 45 then some 62
  else if n = 95 then some 63
  else none

theorem digit?_char {d : Nat} (h : d < 64) : digit? (char d) = some d := by
  revert d
  decide

theorem char_of_digit? {c : UInt8} {d : Nat} (h : digit? c = some d) : char d = c ∧ d < 64 := by
  have hall : ∀ c : Fin 256, ∀ d ∈ digit? (UInt8.ofNat c), char d = UInt8.ofNat c ∧
      d < 64 := by decide +kernel
  have := hall ⟨c.toNat, c.toNat_lt⟩ d
  simp only [UInt8.ofNat_toNat, Option.mem_def] at this
  exact this h

/-! ## Digits of bytes -/

def digits : Bytes → List Nat
  | a :: b :: c :: rest =>
    a.toNat / 4 :: (a.toNat % 4 * 16 + b.toNat / 16) :: (b.toNat % 16 * 4 + c.toNat / 64) ::
      c.toNat % 64 :: digits rest
  | [a, b] => [a.toNat / 4, a.toNat % 4 * 16 + b.toNat / 16, b.toNat % 16 * 4]
  | [a] => [a.toNat / 4, a.toNat % 4 * 16]
  | [] => []

/-- The bytes of the digits, unless they end in one digit or in unused bits that are not zero. -/
def ofDigits : List Nat → Option Bytes
  | d₀ :: d₁ :: d₂ :: d₃ :: rest =>
    (ofDigits rest).map fun bs =>
      UInt8.ofNat (d₀ * 4 + d₁ / 16) :: UInt8.ofNat (d₁ % 16 * 16 + d₂ / 4) :: UInt8.ofNat
        (d₂ % 4 * 64 + d₃) :: bs
  | [d₀, d₁, d₂] =>
    if d₂ % 4 = 0 then some [UInt8.ofNat (d₀ * 4 + d₁ / 16), UInt8.ofNat (d₁ % 16 * 16 + d₂ / 4)]
      else none
  | [d₀, d₁] => if d₁ % 16 = 0 then some [UInt8.ofNat (d₀ * 4 + d₁ / 16)] else none
  | [_] => none
  | [] => some []

theorem toNat_ofNat_of_lt {n : Nat} (h : n < 256) : (UInt8.ofNat n).toNat = n := by
  rw [UInt8.toNat_ofNat']
  omega

theorem ofNat_eq {a : UInt8} {n : Nat} (h : n = a.toNat) : UInt8.ofNat n = a := by
  rw [h, UInt8.ofNat_toNat]

theorem digits_lt (bs : Bytes) : ∀ d ∈ digits bs, d < 64 := by
  induction bs using digits.induct with
  | case1 a b c rest ih =>
    have ha := a.toNat_lt
    have hb := b.toNat_lt
    have hc := c.toNat_lt
    simp only [digits, List.mem_cons, forall_eq_or_imp]
    exact ⟨by omega, by omega, by omega, by omega, ih⟩
  | case2 a b =>
    have ha := a.toNat_lt
    have hb := b.toNat_lt
    simp only [digits, List.mem_cons, List.not_mem_nil, or_false, forall_eq_or_imp, forall_eq]
    exact ⟨by omega, by omega, by omega⟩
  | case3 a =>
    have ha := a.toNat_lt
    simp only [digits, List.mem_cons, List.not_mem_nil, or_false, forall_eq_or_imp, forall_eq]
    exact ⟨by omega, by omega⟩
  | case4 => simp [digits]

theorem ofDigits_digits (bs : Bytes) : ofDigits (digits bs) = some bs := by
  induction bs using digits.induct with
  | case1 a b c rest ih =>
    have ha := a.toNat_lt
    have hb := b.toNat_lt
    have hc := c.toNat_lt
    simp only [digits, ofDigits, ih, Option.map_some, Option.some.injEq, List.cons.injEq, and_true]
    exact ⟨ofNat_eq (by omega), ofNat_eq (by omega), ofNat_eq (by omega)⟩
  | case2 a b =>
    have ha := a.toNat_lt
    have hb := b.toNat_lt
    rw [digits, ofDigits, if_pos (by omega)]
    simp only [Option.some.injEq, List.cons.injEq, and_true]
    exact ⟨ofNat_eq (by omega), ofNat_eq (by omega)⟩
  | case3 a =>
    have ha := a.toNat_lt
    rw [digits, ofDigits, if_pos (by omega)]
    simp only [Option.some.injEq, List.cons.injEq, and_true]
    exact ofNat_eq (by omega)
  | case4 => rfl

variable {ds : List Nat}

theorem digits_ofDigits {bs : Bytes} (hds : ∀ d ∈ ds, d < 64) (h : ofDigits ds = some bs) :
    digits bs = ds := by
  induction ds using ofDigits.induct generalizing bs with
  | case1 d₀ d₁ d₂ d₃ rest ih =>
    simp only [List.mem_cons, forall_eq_or_imp] at hds
    obtain ⟨h₀, h₁, h₂, h₃, hrest⟩ := hds
    obtain ⟨bs', hbs', rfl⟩ := Option.map_eq_some_iff.mp h
    rw [digits, ih hrest hbs', toNat_ofNat_of_lt (by omega), toNat_ofNat_of_lt (by omega),
      toNat_ofNat_of_lt (by omega)]
    simp only [List.cons.injEq, and_true]
    exact ⟨by omega, by omega, by omega, by omega⟩
  | case2 d₀ d₁ d₂ hz =>
    simp only [List.mem_cons, List.not_mem_nil, or_false, forall_eq_or_imp, forall_eq] at hds
    rw [ofDigits, if_pos hz] at h
    cases h
    rw [digits, toNat_ofNat_of_lt (by omega), toNat_ofNat_of_lt (by omega)]
    simp only [List.cons.injEq, and_true]
    exact ⟨by omega, by omega, by omega⟩
  | case3 d₀ d₁ d₂ hz =>
    rw [ofDigits, if_neg hz] at h
    cases h
  | case4 d₀ d₁ hz =>
    simp only [List.mem_cons, List.not_mem_nil, or_false, forall_eq_or_imp, forall_eq] at hds
    rw [ofDigits, if_pos hz] at h
    cases h
    rw [digits, toNat_ofNat_of_lt (by omega)]
    simp only [List.cons.injEq, and_true]
    exact ⟨by omega, by omega⟩
  | case5 d₀ d₁ hz =>
    rw [ofDigits, if_neg hz] at h
    cases h
  | case6 d => cases h
  | case7 =>
    cases h
    rfl

/-! ### Whole pieces -/

theorem digits_append {bs : Bytes} (h : bs.length % 3 = 0) (cs : Bytes) :
    digits (bs ++ cs) = digits bs ++ digits cs := by
  induction bs using digits.induct with
  | case1 a b c rest ih =>
    simp only [List.length_cons] at h
    simp only [List.cons_append, digits, ih (by omega)]
  | case2 a b => simp at h
  | case3 a => simp at h
  | case4 => rfl

theorem ofDigits_append (h : ds.length % 4 = 0) (es : List Nat) :
    ofDigits (ds ++ es) = (ofDigits ds).bind fun bs => (ofDigits es).map (bs ++ ·) := by
  induction ds using ofDigits.induct with
  | case1 d₀ d₁ d₂ d₃ rest ih =>
    simp only [List.length_cons] at h
    simp only [List.cons_append, ofDigits, ih (by omega)]
    cases ofDigits rest with
    | none => rfl
    | some bs =>
      simp only [Option.bind_some, Option.map_some, Option.map_map]
      rfl
  | case2 d₀ d₁ d₂ hz => simp at h
  | case3 d₀ d₁ d₂ hz => simp at h
  | case4 d₀ d₁ hz => simp at h
  | case5 d₀ d₁ hz => simp at h
  | case6 d => simp at h
  | case7 => simp [ofDigits]

theorem length_digits (bs : Bytes) :
    (digits bs).length = bs.length / 3 * 4 + (bs.length % 3 * 8 + 5) / 6 := by
  induction bs using digits.induct with
  | case1 a b c rest ih =>
    simp only [digits, List.length_cons, ih]
    omega
  | case2 a b => simp [digits]
  | case3 a => simp [digits]
  | case4 => rfl

/-! ## Strings -/

def encodedLen (n : Nat) : Nat := n / 3 * 4 + (n % 3 * 8 + 5) / 6

theorem encodedLen_mono {m n : Nat} (h : m ≤ n) : encodedLen m ≤ encodedLen n := by
  unfold encodedLen
  omega

def encode (bs : Bytes) : Bytes := (digits bs).map char

def isBreak (c : UInt8) : Bool := c = 13 || c = 10

def digits? : Bytes → Option (List Nat)
  | [] => some []
  | c :: cs => (digit? c).bind fun d => (digits? cs).map (d :: ·)

def decode (cs : Bytes) : Option Bytes := (digits? (cs.filter fun c => !isBreak c)).bind ofDigits

@[simp] theorem length_encode (bs : Bytes) : (encode bs).length = encodedLen bs.length := by
  rw [encode, List.length_map, length_digits, encodedLen]

theorem digits?_map_char (h : ∀ d ∈ ds, d < 64) :
    digits? (ds.map char) = some ds := by
  induction ds with
  | nil => rfl
  | cons d ds ih =>
    rw [List.forall_mem_cons] at h
    rw [List.map_cons, digits?, digit?_char h.1, Option.bind_some, ih h.2, Option.map_some]

theorem map_char_of_digits? {cs : Bytes} (h : digits? cs = some ds) :
    ds.map char = cs ∧ ∀ d ∈ ds, d < 64 := by
  induction cs generalizing ds with
  | nil =>
    cases h
    simp
  | cons c cs ih =>
    obtain ⟨d, hd, h⟩ := Option.bind_eq_some_iff.mp h
    obtain ⟨ds', hds', rfl⟩ := Option.map_eq_some_iff.mp h
    obtain ⟨hchar, hlt⟩ := char_of_digit? hd
    obtain ⟨hmap, hall⟩ := ih hds'
    exact ⟨by rw [List.map_cons, hchar, hmap], List.forall_mem_cons.mpr ⟨hlt, hall⟩⟩

theorem digits?_append (cs cs' : Bytes) :
    digits? (cs ++ cs') = (digits? cs).bind fun ds => (digits? cs').map (ds ++ ·) := by
  induction cs with
  | nil => simp [digits?]
  | cons c cs ih =>
    rw [List.cons_append, digits?, digits?, ih]
    cases digit? c with
    | none => rfl
    | some d =>
      cases digits? cs with
      | none => rfl
      | some ds => simp [Function.comp_def]

theorem not_isBreak_of_digit? {c : UInt8} {d : Nat} (h : digit? c = some d) :
    isBreak c = false := by
  by_contra hb
  rw [Bool.not_eq_false, isBreak, Bool.or_eq_true, decide_eq_true_eq, decide_eq_true_eq] at hb
  rcases hb with rfl | rfl
  · exact absurd h (by simp [digit?])
  · exact absurd h (by simp [digit?])

section NoBreaks

variable {cs : Bytes}

/-- A string of the alphabet: every character is a digit. -/
def Canonical (cs : Bytes) : Prop := ∀ c ∈ cs, (digit? c).isSome

theorem Canonical.filter_eq (h : Canonical cs) : (cs.filter fun c => !isBreak c) = cs := by
  refine List.filter_eq_self.mpr fun c hc => ?_
  obtain ⟨d, hd⟩ := Option.isSome_iff_exists.mp (h c hc)
  rw [not_isBreak_of_digit? hd, Bool.not_false]

theorem Canonical.of_subset {cs' : Bytes} (h : Canonical cs) (hsub : ∀ c ∈ cs', c ∈ cs) :
    Canonical cs' :=
  fun c hc => h c (hsub c hc)

theorem canonical_encode (bs : Bytes) : Canonical (encode bs) := by
  intro c hc
  obtain ⟨d, hd, rfl⟩ := List.mem_map.mp hc
  rw [digit?_char (digits_lt bs d hd)]
  rfl

theorem decode_encode (bs : Bytes) : decode (encode bs) = some bs := by
  rw [decode, (canonical_encode bs).filter_eq, encode, digits?_map_char (digits_lt bs),
    Option.bind_some, ofDigits_digits]

theorem encode_of_decode {bs : Bytes} (hcs : Canonical cs) (h : decode cs = some bs) :
    encode bs = cs := by
  rw [decode, hcs.filter_eq] at h
  obtain ⟨ds, hds, hbs⟩ := Option.bind_eq_some_iff.mp h
  obtain ⟨hmap, hlt⟩ := map_char_of_digits? hds
  rw [encode, digits_ofDigits hlt hbs, hmap]

theorem length_of_digits? {ds : List Nat} (h : digits? cs = some ds) : ds.length = cs.length := by
  rw [← (map_char_of_digits? h).1, List.length_map]

theorem encode_append {bs : Bytes} (h : bs.length % 3 = 0) (bs' : Bytes) :
    encode (bs ++ bs') = encode bs ++ encode bs' := by
  rw [encode, digits_append h, List.map_append, encode, encode]

theorem decode_append {cs' : Bytes} (h : cs.length % 4 = 0) (hcs : Canonical cs)
    (hcs' : Canonical cs') :
    decode (cs ++ cs') = (decode cs).bind fun bs => (decode cs').map (bs ++ ·) := by
  rw [decode, decode, decode, List.filter_append, hcs.filter_eq, hcs'.filter_eq, digits?_append]
  cases hds : digits? cs with
  | none => rfl
  | some ds =>
    have hlen : ds.length % 4 = 0 := by rw [length_of_digits? hds, h]
    cases digits? cs' with
    | none =>
      simp
    | some ds' =>
      simp only [Option.bind_some, Option.map_some]
      exact ofDigits_append hlen ds'

end NoBreaks

end GoAtlas.Lib.Base64
