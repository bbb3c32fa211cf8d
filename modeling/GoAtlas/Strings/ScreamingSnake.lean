import GoAtlas.Lib.Runes

/-!
# SCREAMING_SNAKE_CASE

`ToScreamingSnakeCase` reads an ASCII string by bytes and any other string by runes. The two loops
were written separately: the loop over bytes puts an underscore before a capital that opens a word
only after another letter, the loop over runes after any character. So they agree on an ASCII string
exactly if no capital that opens a word follows a character that is not a letter.
-/

namespace GoAtlas.Strings

open Lib Lib.Runes

/-- The tables of package `unicode` beyond ASCII. -/
structure Unicode where
  isUpper : Rune → Bool
  isLower : Rune → Bool
  toUpper : Rune → Rune

def isCapital (b : UInt8) : Bool := 65 ≤ b && b ≤ 90

def isSmall (b : UInt8) : Bool := 97 ≤ b && b ≤ 122

def capital (b : UInt8) : UInt8 := if isSmall b then b - 32 else b

namespace Unicode

variable (u : Unicode)

/-- `unicode.IsUpper`. -/
def upper : Rune → Bool
  | .ascii b => isCapital b
  | r => u.isUpper r

/-- `unicode.IsLower`. -/
def lower : Rune → Bool
  | .ascii b => isSmall b
  | r => u.isLower r

/-- `unicode.ToUpper`. -/
def raise : Rune → Rune
  | .ascii b => .ascii (capital b)
  | r => u.toUpper r

end Unicode

/-- A byte converted to a rune: beyond ASCII, the character of Latin-1. -/
def rune (b : UInt8) : Rune :=
  if b < 128 then .ascii b
  else .wide [(0xC0 : UInt8) ||| (b >>> 6), (0x80 : UInt8) ||| (b &&& 0x3F)]

def underscore : UInt8 := 95

variable (u : Unicode)

/-! ## The loop over bytes -/

def pluralSuffix (next : UInt8) (rest : Bytes) : Bool :=
  next == 115 &&
    match rest with
    | [] => true
    | b :: _ => !u.lower (rune b)

def nextIsLower : Bytes → Bool
  | [] => false
  | next :: rest => u.lower (rune next) && !pluralSuffix u next rest

/-- Whether an underscore comes before the byte `b`. -/
def splits (prev : Option UInt8) (b : UInt8) (rest : Bytes) : Bool :=
  match prev with
  | none => false
  | some prev =>
    u.upper (rune b) && (u.lower (rune prev) || (u.upper (rune prev) && nextIsLower u rest))

/-- The loop; `none` at the first byte beyond ASCII. -/
def scanBytes (prev : Option UInt8) : Bytes → Option Bytes
  | [] => some []
  | b :: rest =>
    if b > 127 then none
    else (scanBytes (some b) rest).map fun out =>
      (if splits u prev b rest then [underscore] else []) ++ ((u.raise (rune b)).bytes ++ out)

/-! ## The loop over runes -/

def pluralSuffixRunes : List Rune → Bool
  | [] => false
  | r :: rest =>
    r == .ascii 115 &&
      match rest with
      | [] => true
      | next :: _ => !u.lower next

def nextIsLowerRune : List Rune → Bool
  | [] => false
  | next :: rest => u.lower next && !pluralSuffixRunes u (next :: rest)

def splitsRune (prev : Option Rune) (r : Rune) (rest : List Rune) : Bool :=
  match prev with
  | none => false
  | some prev => u.upper r && (u.lower prev || nextIsLowerRune u rest)

def scanRunes (prev : Option Rune) : List Rune → Bytes
  | [] => []
  | r :: rest =>
    (if splitsRune u prev r rest then [underscore] else []) ++ ((u.raise r).bytes ++ scanRunes
      (some r) rest)

def toScreamingSnakeCaseComplex (s : Bytes) : Bytes := scanRunes u none (runes s)

def toScreamingSnakeCase (s : Bytes) : Bytes :=
  if s = [] then []
  else
    match scanBytes u none s with
    | some out => out
    | none => toScreamingSnakeCaseComplex u s

/-! ## ASCII -/

def Ascii (s : Bytes) : Prop := ∀ b ∈ s, b < 128

def isLetter (b : UInt8) : Bool := isCapital b || isSmall b

variable {u} {s rest : Bytes} {prev : Option UInt8} {b : UInt8} {a : UInt8}

theorem over_iff : b > 127 ↔ ¬ b < 128 := by
  rw [gt_iff_lt, UInt8.lt_iff_toNat_lt, UInt8.lt_iff_toNat_lt]
  show 127 < b.toNat ↔ ¬ b.toNat < 128
  omega

theorem rune_of_ascii (h : b < 128) : rune b = .ascii b := if_pos h

theorem runesOf_ascii_append (h : Ascii s) (t : Bytes) (n : Nat) :
    runesOf (s.length + n) (s ++ t) = s.map .ascii ++ runesOf n t := by
  induction s with
  | nil => simp
  | cons b s ih =>
    unfold Ascii at h
    rw [List.forall_mem_cons] at h
    rw [List.length_cons, Nat.add_right_comm, List.cons_append, runesOf, if_pos h.1, ih h.2]
    rfl

theorem runes_ascii_append (h : Ascii s) (t : Bytes) :
    runes (s ++ t) = s.map .ascii ++ runes t := by
  unfold runes
  rw [List.length_append, runesOf_ascii_append h]

theorem runes_of_ascii (h : Ascii s) : runes s = s.map .ascii := by
  have hrunes := runes_ascii_append h []
  simpa [runes, runesOf] using hrunes

theorem nextIsLowerRune_map (h : Ascii s) : nextIsLowerRune u (s.map .ascii) = nextIsLower u s := by
  unfold Ascii at h
  cases s with
  | nil => rfl
  | cons next rest =>
    rw [List.forall_mem_cons] at h
    have hs : (Rune.ascii next == Rune.ascii 115) = (next == 115) := by simp [BEq.beq]
    rw [List.map_cons, nextIsLowerRune, nextIsLower, rune_of_ascii h.1]
    unfold pluralSuffix pluralSuffixRunes
    cases rest with
    | nil =>
      dsimp only
      rw [hs]
      rfl
    | cons c rest =>
      rw [List.forall_mem_cons] at h
      dsimp only
      rw [hs, rune_of_ascii h.2.1]
      rfl

/-- A capital that opens a word. -/
def OpensWord (u : Unicode) (b : UInt8) (rest : Bytes) : Prop :=
  isCapital b = true ∧ nextIsLower u rest = true

/-- What the loop over runes splits and the loop over bytes does not. -/
theorem splitsRune_ascii (ha : a < 128) (hb : b < 128) (hrest : Ascii rest) :
    splitsRune u (some (.ascii a)) (.ascii b) (rest.map .ascii) = true ↔
      splits u (some a) b rest = true ∨ (isLetter a = false ∧ OpensWord u b rest) := by
  unfold splitsRune splits OpensWord isLetter
  dsimp only
  rw [nextIsLowerRune_map hrest, rune_of_ascii ha, rune_of_ascii hb]
  show (isCapital b && (isSmall a || nextIsLower u rest)) = true ↔
    (isCapital b && (isSmall a || (isCapital a && nextIsLower u rest))) = true ∨ _
  cases isCapital b <;> cases isSmall a <;> cases isCapital a <;>
    cases nextIsLower u rest <;> decide

theorem not_splits_of_opens (ha : a < 128) (hletter : isLetter a = false) :
    splits u (some a) b rest = false := by
  unfold isLetter at hletter
  rw [Bool.or_eq_false_iff] at hletter
  unfold splits
  dsimp only
  rw [rune_of_ascii ha]
  simp [Unicode.lower, Unicode.upper, hletter]

theorem capital_of_isCapital (h : isCapital b = true) : capital b = b ∧ b ≠ underscore := by
  have hall : ∀ b : UInt8, isCapital b = true → isSmall b = false ∧ b ≠ underscore := by
    intro b hb
    unfold isCapital at hb
    simp only [Bool.and_eq_true, decide_eq_true_eq, UInt8.le_iff_toNat_le, UInt8.toNat_ofNat] at hb
    refine ⟨?_, ?_⟩
    · unfold isSmall
      simp only [Bool.and_eq_false_iff, decide_eq_false_iff_not, UInt8.le_iff_toNat_le,
        UInt8.toNat_ofNat]
      omega
    · rintro rfl
      exact absurd hb.2 (by decide)
  obtain ⟨hsmall, hne⟩ := hall b h
  unfold capital
  rw [hsmall]
  exact ⟨rfl, hne⟩

/-- A capital that opens a word comes right after a character that is not a letter. -/
def OpensAfterNonLetter (u : Unicode) (s : Bytes) : Prop :=
  ∃ front a b rest, s = front ++ a :: b :: rest ∧ isLetter a = false ∧ OpensWord u b rest

theorem opensAfterNonLetter_cons : OpensAfterNonLetter u (a :: b :: rest) ↔
    (isLetter a = false ∧ OpensWord u b rest) ∨ OpensAfterNonLetter u (b :: rest) := by
  refine ⟨?_, ?_⟩
  · rintro ⟨front, a', b', rest', heq, hopens⟩
    cases front with
    | nil =>
      cases heq
      exact .inl hopens
    | cons c front => exact .inr ⟨front, a', b', rest', (List.cons.inj heq).2, hopens⟩
  · rintro (hopens | ⟨front, a', b', rest', heq, hopens⟩)
    · exact ⟨[], a, b, rest, rfl, hopens⟩
    · exact ⟨a :: front, a', b', rest', by rw [heq, List.cons_append], hopens⟩

theorem not_opensAfterNonLetter_singleton : ¬ OpensAfterNonLetter u [b] := by
  rintro ⟨front, a, b', rest, heq, -⟩
  have hlen := congrArg List.length heq
  simp only [List.length_append, List.length_cons, List.length_nil] at hlen
  omega

/-! ## The two loops -/

/-- The text of one character in front of two texts: the texts are equal just if the underscores are
and the rest is. -/
theorem prefixed_eq_iff {x : UInt8} {out out' : Bytes} {p q : Bool} (hpq : p = true → q = true)
    (hx : q = true → p = false → x ≠ underscore) :
    (if p then [underscore] else []) ++ (x :: out) =
    (if q then [underscore] else []) ++ (x :: out') ↔
      (q = true → p = true) ∧ out = out' := by
  cases p with
  | true => simp [hpq rfl]
  | false =>
    cases q with
    | false => simp
    | true => simpa using fun heq => absurd heq (hx rfl rfl)

theorem raise_bytes (h : b < 128) : (u.raise (rune b)).bytes = [capital b] := by
  rw [rune_of_ascii h]
  rfl

theorem scanBytes_eq_iff (ha : a < 128) (hs : Ascii s) :
    scanBytes u (some a) s = some (scanRunes u (some (.ascii a)) (s.map .ascii)) ↔
      ¬ OpensAfterNonLetter u (a :: s) := by
  induction s generalizing a with
  | nil => exact iff_of_true rfl not_opensAfterNonLetter_singleton
  | cons b rest ih =>
    unfold Ascii at hs
    rw [List.forall_mem_cons] at hs
    obtain ⟨hb, hrest⟩ := hs
    have hover : ¬ b > 127 := over_iff.not_left.mpr hb
    have hiff := splitsRune_ascii (u := u) ha hb hrest
    rw [scanBytes, if_neg hover, raise_bytes hb, List.map_cons, scanRunes,
      opensAfterNonLetter_cons, not_or, ← ih hb hrest]
    show _ = some ((if splitsRune u (some (.ascii a)) (.ascii b) (rest.map .ascii) then [underscore]
      else []) ++
      (capital b :: scanRunes u (some (.ascii b)) (rest.map .ascii))) ↔ _
    have hneed : (splitsRune u (some (.ascii a)) (.ascii b) (rest.map .ascii) = true →
      splits u (some a) b rest = true) ↔
        ¬ (isLetter a = false ∧ OpensWord u b rest) := by
      rw [hiff]
      refine ⟨?_, ?_⟩
      · intro h hopens
        have hsplits := h (.inr hopens)
        rw [not_splits_of_opens ha hopens.1] at hsplits
        cases hsplits
      · rintro hnot (hsplits | hopens)
        · exact hsplits
        · exact absurd hopens hnot
    have hcapital : splitsRune u (some (.ascii a)) (.ascii b) (rest.map .ascii) = true →
        capital b ≠ underscore := by
      intro h
      unfold splitsRune at h
      obtain ⟨hcap, -⟩ := Bool.and_eq_true_iff.mp h
      obtain ⟨heq, hne⟩ := capital_of_isCapital hcap
      rwa [heq]
    rw [← hneed]
    cases hscan : scanBytes u (some b) rest with
    | none => simp
    | some out =>
      rw [Option.map_some, Option.some.injEq, Option.some.injEq, List.singleton_append]
      exact prefixed_eq_iff (fun h => hiff.mpr (.inl h)) fun h _ => hcapital h

theorem scanBytes_ascii (hs : Ascii s) : ∃ out, scanBytes u prev s = some out := by
  induction s generalizing prev with
  | nil => exact ⟨[], rfl⟩
  | cons b rest ih =>
    unfold Ascii at hs
    rw [List.forall_mem_cons] at hs
    obtain ⟨out, hout⟩ : ∃ out, scanBytes u (some b) rest = some out := ih hs.2
    have hover : ¬ b > 127 := over_iff.not_left.mpr hs.1
    rw [scanBytes, if_neg hover, hout]
    exact ⟨_, rfl⟩

theorem scanBytes_not_ascii (hs : ¬ Ascii s) : scanBytes u prev s = none := by
  induction s generalizing prev with
  | nil => exact absurd (fun b hb => absurd hb List.not_mem_nil) hs
  | cons b rest ih =>
    rw [scanBytes]
    split
    · rfl
    · rename_i hover
      have hb : b < 128 := over_iff.not_left.mp hover
      have hrest : ¬ Ascii rest := fun h => hs (List.forall_mem_cons.mpr ⟨hb, h⟩)
      rw [ih hrest]
      rfl

theorem toScreamingSnakeCase_not_ascii (hs : ¬ Ascii s) :
    toScreamingSnakeCase u s = toScreamingSnakeCaseComplex u s := by
  have hne : s ≠ [] := by
    rintro rfl
    exact hs fun b hb => absurd hb List.not_mem_nil
  unfold toScreamingSnakeCase
  rw [if_neg hne, scanBytes_not_ascii hs]

theorem toScreamingSnakeCase_eq_complex_iff (hs : Ascii s) :
    toScreamingSnakeCase u s = toScreamingSnakeCaseComplex u s ↔ ¬ OpensAfterNonLetter u s := by
  unfold toScreamingSnakeCase toScreamingSnakeCaseComplex
  rw [runes_of_ascii hs]
  cases s with
  | nil =>
    refine iff_of_true rfl ?_
    rintro ⟨front, a, b, rest, heq, -⟩
    cases front <;> cases heq
  | cons b rest =>
    unfold Ascii at hs
    rw [List.forall_mem_cons] at hs
    rw [if_neg (List.cons_ne_nil b rest), ← scanBytes_eq_iff hs.1 hs.2]
    obtain ⟨out, hout⟩ : ∃ out, scanBytes u (some b) rest = some out := scanBytes_ascii hs.2
    have hover : ¬ b > 127 := over_iff.not_left.mpr hs.1
    rw [scanBytes, if_neg hover, hout, raise_bytes hs.1, List.map_cons, scanRunes]
    show capital b :: out = capital b :: _ ↔ _
    simp

/-! ## A suffix beyond ASCII -/

def EndsInNonLetter (s : Bytes) : Prop := ∃ front b, s = front ++ [b] ∧ isLetter b = false

theorem splitsRune_append {prev : Option Rune} (hend : EndsInNonLetter (b :: rest))
    (rs : List Rune) :
    splitsRune u prev (.ascii b) (rest.map .ascii ++ rs) = splitsRune u prev (.ascii b)
      (rest.map .ascii) := by
  obtain ⟨front, last, heq, hlast⟩ := hend
  unfold isLetter at hlast
  rw [Bool.or_eq_false_iff] at hlast
  cases prev with
  | none => rfl
  | some prev =>
    unfold splitsRune
    dsimp only
    cases rest with
    | nil =>
      -- the last character is no capital
      have hb : b = last := by
        cases front with
        | nil => cases heq; rfl
        | cons c front => cases front <;> cases heq
      subst hb
      show (isCapital b && _) = (isCapital b && _)
      rw [hlast.1]
      rfl
    | cons next rest =>
      cases rest with
      | nil =>
        -- the last character is not a small letter
        have hnext : next = last := by
          have := congrArg List.getLast? heq
          simpa using this
        subst hnext
        have hlower : u.lower (.ascii next) = false := hlast.2
        simp only [List.map_cons, List.map_nil, List.cons_append, List.nil_append, nextIsLowerRune,
          hlower, Bool.false_and]
      | cons c rest => rfl

theorem EndsInNonLetter.tail (h : EndsInNonLetter (b :: rest)) (hne : rest ≠ []) :
    EndsInNonLetter rest := by
  obtain ⟨front, last, heq, hlast⟩ := h
  cases front with
  | nil =>
    cases heq
    exact absurd rfl hne
  | cons c front =>
    cases heq
    exact ⟨front, last, rfl, hlast⟩

theorem scanRunes_append {prev : Option Rune} (hend : EndsInNonLetter s) (rs : List Rune) :
    scanRunes u prev (s.map .ascii) <+: scanRunes u prev (s.map .ascii ++ rs) := by
  induction s generalizing prev with
  | nil => exact List.nil_prefix
  | cons b rest ih =>
    rw [List.map_cons, List.cons_append, scanRunes, scanRunes, splitsRune_append hend,
      List.prefix_append_right_inj, List.prefix_append_right_inj]
    cases rest with
    | nil => exact List.nil_prefix
    | cons c rest => exact ih (hend.tail (List.cons_ne_nil c rest))

/-- The byte-wise result is the rune-wise one, and a suffix beyond ASCII leaves what a non-letter
ends as it is, exactly if no capital opens a word after a character that is not a letter. -/
theorem uniform_iff (u : Unicode) (s : Bytes) (hs : Ascii s) :
    (toScreamingSnakeCase u s = toScreamingSnakeCaseComplex u s ∧
      (EndsInNonLetter s → ∀ t, ¬ Ascii t →
      toScreamingSnakeCase u s <+: toScreamingSnakeCase u (s ++ t))) ↔
    ¬ OpensAfterNonLetter u s := by
  rw [← toScreamingSnakeCase_eq_complex_iff hs]
  refine ⟨And.left, fun heq => ⟨heq, ?_⟩⟩
  intro hend t ht
  have hst : ¬ Ascii (s ++ t) := fun h => ht fun b hb => h b (List.mem_append_right s hb)
  rw [toScreamingSnakeCase_not_ascii hst, heq]
  unfold toScreamingSnakeCaseComplex
  rw [runes_ascii_append hs, runes_of_ascii hs]
  exact scanRunes_append hend _

def asciiLetters : Unicode := ⟨fun _ => false, fun _ => false, id⟩

/-- `1Ab`: one loop writes `1AB`, the other `1_AB`. With a space and `é` behind it, it is split
where it was not. -/
theorem split_after_digit :
    Ascii [49, 65, 98] ∧ toScreamingSnakeCase asciiLetters [49, 65, 98] = [49, 65, 66] ∧
    toScreamingSnakeCaseComplex asciiLetters [49, 65, 98] = [49, 95, 65, 66] ∧
    EndsInNonLetter [49, 65, 98, 32] ∧ toScreamingSnakeCase asciiLetters [49, 65, 98, 32] =
      [49, 65, 66, 32] ∧
    toScreamingSnakeCase asciiLetters ([49, 65, 98, 32] ++ [0xC3, 0xA9]) =
      [49, 95, 65, 66, 32, 0xC3, 0xA9] :=
  ⟨by simp [Ascii], by decide, by decide, ⟨[49, 65, 98], 32, rfl, rfl⟩, by decide, by decide⟩

/-- `aB`, in both loops. -/
theorem uniform_iff_camel :
    Ascii [97, 66] ∧ toScreamingSnakeCase asciiLetters [97, 66] = [65, 95, 66] ∧
    toScreamingSnakeCase asciiLetters [97, 66] =
      toScreamingSnakeCaseComplex asciiLetters [97, 66] := by
  have hascii : Ascii [97, 66] := by simp [Ascii]
  have hopens : ¬ OpensAfterNonLetter asciiLetters [97, 66] := by
    rw [opensAfterNonLetter_cons]
    rintro (⟨hletter, -⟩ | hrest)
    · cases hletter
    · exact not_opensAfterNonLetter_singleton hrest
  exact ⟨hascii, by decide, ((uniform_iff asciiLetters [97, 66] hascii).mpr hopens).1⟩

end GoAtlas.Strings
