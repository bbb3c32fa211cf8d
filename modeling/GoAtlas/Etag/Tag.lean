import GoAtlas.Lib.Numeral
import GoAtlas.Lib.Trim

/-!
# Entity tags

Rendering and parsing of HTTP entity tags, alone and in the lists of `If-Match`, and the tags that
carry a resource version. Texts are bytes: a value may hold any byte from 0x80 up, and commas.
-/

namespace GoAtlas.Etag

open Lib

/-- The empty value is the absent tag. -/
structure Tag where
  value : Bytes
  weak : Bool
  deriving DecidableEq

inductive Err where
  /-- `etag: parse %q`. -/
  | parse (s : Bytes)
  /-- `etag: parse list %q`. -/
  | parseList (s : Bytes)
  | notVersion
  | missing
  | malformed
  deriving DecidableEq

def quote : UInt8 := 0x22

def weakIndicator : Bytes := [0x57, 0x2f]

def Tag.string (t : Tag) : Bytes :=
  if t.value = [] then []
  else if t.weak then weakIndicator ++ quote :: (t.value ++ [quote])
  else quote :: (t.value ++ [quote])

def isETagChar (c : UInt8) : Bool := c == 0x21 || (0x23 ≤ c && c ≤ 0x7e) || 0x80 ≤ c

/-- The loop of `parseOne`: the value up to the closing quote, and what follows it. -/
def scanValue : Bytes → (value : Bytes) → Option (Bytes × Bytes)
  | [], _ => none
  | c :: s, value =>
    if c = quote then if value = [] then none else some (value, s)
    else if !isETagChar c then none
    else scanValue s (value ++ [c])

/-- `parseOne` after the weak indicator. -/
def parseOpaque (weak : Bool) (s : Bytes) : Option (Tag × Bytes) :=
  match s with
  | [] => none
  | c :: s =>
    if s = [] ∨ c ≠ quote then none
    else (scanValue s []).map fun (value, rest) => (⟨value, weak⟩, rest)

def parseOne (s : Bytes) : Option (Tag × Bytes) :=
  match strip weakIndicator s with
  | some rest => parseOpaque true rest
  | none => parseOpaque false s

def parse (s : Bytes) : Except Err Tag :=
  match parseOne (trimSpace s) with
  | none => .error (.parse s)
  | some (t, rest) => if trimSpace rest = [] then .ok t else .error (.parse s)

def isBlank (c : UInt8) : Bool := c == 0x20 || c == 0x09

/-- `strings.TrimLeft(s, " \t")`. -/
def trimLeft (s : Bytes) : Bytes := s.dropWhile isBlank

theorem length_of_scanValue {s value v rest : Bytes} (h : scanValue s value = some (v, rest)) :
    rest.length < s.length := by
  induction s generalizing value with
  | nil => cases h
  | cons c s ih =>
    unfold scanValue at h
    split at h
    · split at h
      · cases h
      · cases h
        exact Nat.lt_succ_self _
    · split at h
      · cases h
      · exact Nat.lt_succ_of_lt (ih h)

variable {t : Tag}

theorem length_of_parseOpaque {weak : Bool} {s rest : Bytes}
    (h : parseOpaque weak s = some (t, rest)) :
    rest.length < s.length := by
  cases s with
  | nil => cases h
  | cons c s =>
    unfold parseOpaque at h
    dsimp only at h
    split at h
    · cases h
    · obtain ⟨⟨value, rest'⟩, hscan, heq⟩ := Option.map_eq_some_iff.mp h
      cases heq
      exact Nat.lt_succ_of_lt (length_of_scanValue hscan)

theorem length_of_parseOne {s rest : Bytes} (h : parseOne s = some (t, rest)) :
    rest.length < s.length := by
  unfold parseOne at h
  split at h
  · rename_i s' hs
    exact (length_of_parseOpaque h).trans_le (length_of_strip hs)
  · exact length_of_parseOpaque h

theorem length_trimLeft (s : Bytes) : (trimLeft s).length ≤ s.length :=
  (List.dropWhile_sublist _).length_le

set_option linter.unusedVariables false in
def parseListLoop (s rest : Bytes) (tags : List Tag) : Except Err (List Tag) :=
  if trimLeft rest = [] then .ok tags
  else match h : parseOne (trimLeft rest) with
    | none => .error (.parseList s)
    | some (t, after) =>
      match hafter : trimLeft after with
      | [] => .ok (tags ++ [t])
      | c :: rest' =>
        if c = comma then parseListLoop s rest' (tags ++ [t]) else .error (.parseList s)
termination_by rest.length
decreasing_by
  have h₁ := length_of_parseOne h
  have h₂ := length_trimLeft after
  have h₃ := length_trimLeft rest
  rw [hafter, List.length_cons] at h₂
  omega

theorem parseListLoop_eq (s rest : Bytes) (tags : List Tag) :
    parseListLoop s rest tags =
      if trimLeft rest = [] then .ok tags
      else match parseOne (trimLeft rest) with
        | none => .error (.parseList s)
        | some (t, after) =>
          match trimLeft after with
          | [] => .ok (tags ++ [t])
          | c :: rest' =>
            if c = comma then parseListLoop s rest' (tags ++ [t]) else .error (.parseList s) := by
  rw [parseListLoop]
  split
  · rfl
  · split
    · rename_i hnone
      rw [hnone]
    · rename_i t after hsome
      rw [hsome]
      split <;> rename_i hafter <;> simp only [hafter]

def parseList (s : Bytes) : Except Err (List Tag × Bool) :=
  if trimSpace s = [0x2a] then .ok ([], true)
  else match parseListLoop s (trimSpace s) [] with
    | .error e => .error e
    | .ok tags => if tags = [] then .error (.parseList s) else .ok (tags, false)

/-! ## Versions -/

def fromVersion (version : Int64) : Tag :=
  if version < 0 then ⟨[], false⟩ else ⟨signed version.toInt, true⟩

def canonicalDecimal (s : Bytes) : Bool :=
  match s with
  | [] => false
  | c :: cs => !(c == 48 && !cs.isEmpty) && s.all fun c => 48 ≤ c && c ≤ 57

def Tag.version (t : Tag) : Except Err Int64 :=
  if !t.weak || !canonicalDecimal t.value then .error .notVersion
  else match parseInt t.value with
    | none => .error .notVersion
    | some v => .ok (Int64.ofInt v)

def parseVersion (s : Bytes) (singleton : Bool) : Except Err Int64 :=
  if s = [] then .error .missing
  else match parse s with
    | .error _ => .error .malformed
    | .ok tag =>
      if tag.string ≠ s then .error .malformed
      else match tag.version with
        | .error _ => .error .malformed
        | .ok v => if v = Int64.maxValue ∨ v = 0 ∧ !singleton then .error .malformed else .ok v

/-! ## One tag -/

structure Tag.Legal (t : Tag) : Prop where
  nonempty : t.value ≠ []
  chars : ∀ c ∈ t.value, isETagChar c = true

theorem quote_not_etagChar : isETagChar quote = false := rfl

theorem scanValue_append {value rest acc : Bytes} (h : ∀ c ∈ value, isETagChar c = true)
    (hne : acc ++ value ≠ []) :
    scanValue (value ++ quote :: rest) acc = some (acc ++ value, rest) := by
  induction value generalizing acc with
  | nil =>
    rw [List.append_nil] at hne
    simp [scanValue, hne]
  | cons c value ih =>
    have hc := h c List.mem_cons_self
    have hq : c ≠ quote := by
      rintro rfl
      cases hc.symm.trans quote_not_etagChar
    have hacc : acc ++ [c] ++ value = acc ++ c :: value := by simp
    rw [List.cons_append, scanValue, if_neg hq, hc, Bool.not_true, if_neg Bool.false_ne_true,
      ih (fun d hd => h d (List.mem_cons_of_mem c hd)) (by simp), hacc]

theorem parseOpaque_append {value : Bytes} (weak : Bool) (hne : value ≠ [])
    (h : ∀ c ∈ value, isETagChar c = true) (rest : Bytes) :
    parseOpaque weak (quote :: (value ++ quote :: rest)) = some (⟨value, weak⟩, rest) := by
  have hscan := @scanValue_append value rest [] h (by simpa using hne)
  simp [parseOpaque, hscan]

theorem parseOne_string (h : t.Legal) (rest : Bytes) :
    parseOne (t.string ++ rest) = some (t, rest) := by
  obtain ⟨value, weak⟩ := t
  have hparse := parseOpaque_append weak h.nonempty h.chars rest
  have hvalue : value ≠ [] := h.nonempty
  cases weak with
  | true =>
    have hstring : (Tag.mk value true).string ++ rest =
        weakIndicator ++ quote :: (value ++ quote :: rest) := by
      simp [Tag.string, hvalue]
    rw [hstring]
    exact hparse
  | false =>
    have hstring : (Tag.mk value false).string ++ rest = quote :: (value ++ quote :: rest) := by
      simp [Tag.string, hvalue]
    rw [hstring]
    exact hparse

/-! ## White space -/

theorem isBlank_cases {b : UInt8} (h : isBlank b = true) : b = 0x20 ∨ b = 0x09 := by
  simpa [isBlank] using h

/-- A text from a quote or a weak indicator to a quote has no white space at its ends. -/
theorem trimSpace_pad {a : UInt8} {ws mid ws' : Bytes} (ha : a = 0x57 ∨ a = quote)
    (hws : ∀ b ∈ ws, isBlank b = true) (hws' : ∀ b ∈ ws', isBlank b = true) :
    trimSpace (ws ++ (a :: (mid ++ [quote]) ++ ws')) = a :: (mid ++ [quote]) := by
  have hfront : trimFront spaces (ws ++ (a :: (mid ++ [quote]) ++ ws')).length
    (ws ++ (a :: (mid ++ [quote]) ++ ws')) =
      a :: (mid ++ [quote]) ++ ws' := by
    rw [trimFront_append _ fun b hb s => by rcases isBlank_cases (hws b hb) with rfl | rfl <;> rfl]
    exact trimFront_of_none (by rcases ha with rfl | rfl <;> rfl) _
  -- the back is the front of the reversed text
  have hrev : (a :: (mid ++ [quote]) ++ ws').reverse =
      ws'.reverse ++ quote :: (mid.reverse ++ [a]) := by simp
  have hblank : ∀ b ∈ ws'.reverse, ∀ s,
      ((spaces.map List.reverse).findSome? fun text => strip text (b :: s)) = some s := by
    intro b hb s
    rcases isBlank_cases (hws' b (List.mem_reverse.mp hb)) with rfl | rfl <;> rfl
  unfold trimSpace
  simp only [hfront]
  rw [← List.length_reverse, hrev, trimFront_append _ hblank, trimFront_of_none rfl]
  simp

theorem string_eq (h : t.Legal) :
    ∃ a mid, (a = 0x57 ∨ a = quote) ∧ t.string = a :: (mid ++ [quote]) := by
  have hvalue := h.nonempty
  unfold Tag.string
  rw [if_neg hvalue]
  split
  · exact ⟨0x57, 0x2f :: quote :: t.value, .inl rfl, by simp [weakIndicator]⟩
  · exact ⟨quote, t.value, .inr rfl, rfl⟩

theorem parse_string (h : t.Legal) : parse t.string = .ok t := by
  obtain ⟨a, mid, ha, hstring⟩ := string_eq h
  have htrim : trimSpace t.string = t.string := by
    have := @trimSpace_pad a [] mid [] ha (by simp) (by simp)
    rwa [List.nil_append, List.append_nil, ← hstring] at this
  have hone := parseOne_string h []
  rw [List.append_nil] at hone
  unfold parse
  rw [htrim, hone]
  rfl

/-! ## Lists -/

structure Padded where
  before : Bytes
  tag : Tag
  after : Bytes

structure Padded.Ok (p : Padded) : Prop where
  before : ∀ b ∈ p.before, isBlank b = true
  legal : p.tag.Legal
  after : ∀ b ∈ p.after, isBlank b = true

def Padded.text (p : Padded) : Bytes := p.before ++ (p.tag.string ++ p.after)

def joined : List Padded → Bytes
  | [] => []
  | [p] => p.text
  | p :: q :: ps => p.text ++ comma :: joined (q :: ps)

theorem trimLeft_append {ws : Bytes} (h : ∀ b ∈ ws, isBlank b = true) (s : Bytes) :
    trimLeft (ws ++ s) = trimLeft s :=
  List.dropWhile_append_of_pos h

theorem trimLeft_string (h : t.Legal) (s : Bytes) :
    trimLeft (t.string ++ s) = t.string ++ s := by
  obtain ⟨a, mid, ha, hstring⟩ := string_eq h
  have hblank : isBlank a = false := by rcases ha with rfl | rfl <;> rfl
  rw [hstring, List.cons_append, trimLeft, List.dropWhile_cons_of_neg (by simp [hblank])]

theorem trimLeft_text {p : Padded} (h : p.Ok) (rest : Bytes) :
    trimLeft (p.text ++ rest) = p.tag.string ++ (p.after ++ rest) := by
  rw [Padded.text, List.append_assoc, List.append_assoc, trimLeft_append h.before,
    trimLeft_string h.legal]

theorem parseListLoop_text {p : Padded} (h : p.Ok) (s rest : Bytes) (tags : List Tag) :
    parseListLoop s (p.text ++ rest) tags =
      match trimLeft rest with
      | [] => .ok (tags ++ [p.tag])
      | c :: rest' =>
        if c = comma then parseListLoop s rest' (tags ++ [p.tag]) else .error (.parseList s) := by
  have hone := parseOne_string h.legal (p.after ++ rest)
  have hafter := trimLeft_append h.after rest
  have hne : p.tag.string ++ (p.after ++ rest) ≠ [] := by
    obtain ⟨a, mid, -, hstring⟩ := string_eq h.legal
    simp [hstring]
  rw [parseListLoop_eq, trimLeft_text h, if_neg hne, hone]
  simp only [hafter]

theorem parseListLoop_joined {ps : List Padded} (hne : ps ≠ []) (h : ∀ p ∈ ps, p.Ok) (s : Bytes)
    (tags : List Tag) :
    parseListLoop s (joined ps) tags = .ok (tags ++ ps.map Padded.tag) := by
  induction ps generalizing tags with
  | nil => exact absurd rfl hne
  | cons p ps ih =>
    have hp := h p List.mem_cons_self
    cases ps with
    | nil =>
      rw [joined, ← List.append_nil p.text, parseListLoop_text hp]
      rfl
    | cons q ps =>
      have hcomma : trimLeft (comma :: joined (q :: ps)) = comma :: joined (q :: ps) := rfl
      rw [joined, parseListLoop_text hp, hcomma]
      simp only [if_true]
      rw [ih (by simp) fun r hr => h r (List.mem_cons_of_mem p hr)]
      simp

/-- A list as a text from a tag to a tag, with the white space at its two ends; without that at the
end it is a list of the same tags. -/
theorem joined_ends {ps : List Padded} (hne : ps ≠ []) (h : ∀ p ∈ ps, p.Ok) :
    ∃ ps' ws a mid ws', (∀ b ∈ ws, isBlank b = true) ∧ (∀ b ∈ ws', isBlank b = true) ∧
      (a = 0x57 ∨ a = quote) ∧
      (∀ p ∈ ps', Padded.Ok p) ∧ ps'.map Padded.tag = ps.map Padded.tag ∧
      joined ps' = ws ++ a :: (mid ++ [quote]) ∧ joined ps = joined ps' ++ ws' := by
  induction ps with
  | nil => exact absurd rfl hne
  | cons p ps ih =>
    have hp := h p List.mem_cons_self
    obtain ⟨a, mid, ha, hstring⟩ := string_eq hp.legal
    cases ps with
    | nil =>
      refine ⟨[⟨p.before, p.tag, []⟩], p.before, a, mid, p.after, hp.before, hp.after, ha,
        ?_, rfl, ?_, ?_⟩
      · intro q hq
        rw [List.mem_singleton.mp hq]
        exact ⟨hp.before, hp.legal, by simp⟩
      · simp [joined, Padded.text, hstring]
      · simp [joined, Padded.text]
    | cons q ps =>
      obtain ⟨ps', ws, b, mid', ws', -, hws', -, hps', htags, hfront, hback⟩ :=
        ih (by simp) fun r hr => h r (List.mem_cons_of_mem p hr)
      cases ps' with
      | nil => cases htags
      | cons q' ps' =>
        refine ⟨p :: q' :: ps', p.before, a,
          mid ++ quote :: (p.after ++ comma :: (ws ++ b :: mid')), ws', hp.before, hws', ha, ?_,
          congrArg (p.tag :: ·) htags, ?_, ?_⟩
        · intro r hr
          rcases List.mem_cons.mp hr with rfl | hr
          · exact hp
          · exact hps' r hr
        · rw [joined, hfront]
          simp [Padded.text, hstring]
        · rw [joined, hback, joined]
          simp

theorem parseListLoop_blanks {ws : Bytes} (h : ∀ b ∈ ws, isBlank b = true) (s rest : Bytes)
    (tags : List Tag) :
    parseListLoop s (ws ++ rest) tags = parseListLoop s rest tags := by
  rw [parseListLoop_eq, trimLeft_append h, ← parseListLoop_eq]

theorem parseList_joined {ps : List Padded} (hne : ps ≠ []) (h : ∀ p ∈ ps, p.Ok) :
    parseList (joined ps) = .ok (ps.map Padded.tag, false) := by
  obtain ⟨ps', ws, a, mid, ws', hws, hws', ha, hps', htags, hfront, hback⟩ := joined_ends hne h
  have hne' : ps' ≠ [] := by
    rintro rfl
    exact hne (List.map_eq_nil_iff.mp htags.symm)
  have htrim : trimSpace (joined ps) = a :: (mid ++ [quote]) := by
    rw [hback, hfront, List.append_assoc]
    exact trimSpace_pad ha hws hws'
  have hstar : a :: (mid ++ [quote]) ≠ [0x2a] := by
    intro hstar
    rcases ha with rfl | rfl <;> cases (List.cons.inj hstar).1
  have hloop := parseListLoop_joined hne' hps' (joined ps) []
  rw [hfront, parseListLoop_blanks hws, htags, List.nil_append] at hloop
  unfold parseList
  rw [htrim, if_neg hstar, hloop]
  exact if_neg (by simpa using hne)

/-! ## Versions -/

variable {s : Bytes} {v : Int64}

theorem toInt_nonneg_iff : ¬ v < 0 ↔ 0 ≤ v.toInt := by
  rw [Int64.not_lt, Int64.le_iff_toInt_le]
  rfl

theorem canonicalDecimal_decimal (n : Nat) : canonicalDecimal (decimal n) = true := by
  have hdigits : (decimal n).all (fun c => 48 ≤ c && c ≤ 57) = true := by
    rw [List.all_eq_true]
    intro c hc
    simpa using isDigit_of_mem_decimal hc
  cases hd : decimal n with
  | nil => exact absurd hd (decimal_ne_nil n)
  | cons c cs =>
    rw [hd] at hdigits
    show (!(c == 48 && !cs.isEmpty) && (c :: cs).all fun c => 48 ≤ c && c ≤ 57) = true
    rw [hdigits, Bool.and_true, Bool.not_eq_true']
    by_cases hc : c = 48
    · -- a zero in front is the whole number
      have hzero : n = 0 := eq_zero_of_head?_decimal (by rw [hd, hc]; rfl)
      rw [hzero] at hd
      cases hd
      rfl
    · simp [hc]

theorem eq_decimal_of_canonical {n : Int} (hc : canonicalDecimal s = true)
    (h : parseInt s = some n) :
    0 ≤ n ∧ s = decimal n.toNat := by
  cases s with
  | nil => cases hc
  | cons c cs =>
    simp only [canonicalDecimal, Bool.and_eq_true, Bool.not_eq_true', List.all_eq_true,
      decide_eq_true_eq] at hc
    obtain ⟨hzero, hdigits⟩ := hc
    have hdigit := hdigits c List.mem_cons_self
    obtain ⟨hminus, hplus⟩ := ne_sign_of_digit hdigit
    unfold parseInt at h
    dsimp only at h
    rw [if_neg hminus, if_neg hplus] at h
    obtain ⟨m, hm, hrange⟩ := Option.bind_eq_some_iff.mp h
    split at hrange
    · cases hrange
      refine ⟨Int.natCast_nonneg m, eq_decimal_of_parseDigits (List.cons_ne_nil c cs) ?_ ?_⟩
      · intro hhead
        rw [List.head?_cons, Option.some.injEq] at hhead
        have hcs : cs = [] := by simpa [hhead] using hzero
        rw [hcs]
        rfl
      · rw [Int.toNat_natCast]
        simpa [parseNat] using hm
    · cases hrange

theorem fromVersion_eq (h : 0 ≤ v.toInt) : fromVersion v = ⟨decimal v.toInt.toNat, true⟩ := by
  have hsigned : signed v.toInt = decimal v.toInt.toNat := by
    rw [signed, if_neg (by omega)]
    congr 1
    omega
  rw [fromVersion, if_neg (toInt_nonneg_iff.mpr h), hsigned]

theorem legal_fromVersion (h : 0 ≤ v.toInt) : (fromVersion v).Legal := by
  rw [fromVersion_eq h]
  refine ⟨decimal_ne_nil _, fun c hc => ?_⟩
  obtain ⟨hlo, hhi⟩ := isDigit_of_mem_decimal hc
  have h1 : (0x23 : UInt8) ≤ c := UInt8.le_trans (by decide) hlo
  have h2 : c ≤ (0x7e : UInt8) := UInt8.le_trans hhi (by decide)
  simp [isETagChar, h1, h2]

theorem version_fromVersion (h : 0 ≤ v.toInt) : (fromVersion v).version = .ok v := by
  have hlt := v.toInt_lt
  have hparse : parseInt (decimal v.toInt.toNat) = some v.toInt := by
    have := @parseInt_signed v.toInt (by omega) (by omega)
    rwa [signed, if_neg (by omega), ← Int.toNat_natCast v.toInt.natAbs, Int.natAbs_of_nonneg h]
      at this
  rw [fromVersion_eq h]
  unfold Tag.version
  rw [hparse, canonicalDecimal_decimal]
  show Except.ok (Int64.ofInt v.toInt) = .ok v
  rw [Int64.ofInt_toInt]

theorem eq_fromVersion_of_version {t : Tag} (h : t.version = .ok v) :
    0 ≤ v.toInt ∧ t = fromVersion v := by
  obtain ⟨value, weak⟩ := t
  unfold Tag.version at h
  split at h
  · cases h
  · rename_i hcond
    simp only [Bool.or_eq_true, Bool.not_eq_true', not_or, Bool.not_eq_false] at hcond
    obtain ⟨rfl, hcanonical⟩ := hcond
    split at h
    · cases h
    · rename_i n hn
      cases h
      obtain ⟨hlo, hhi⟩ := parseInt_range hn
      obtain ⟨hnonneg, hvalue⟩ := eq_decimal_of_canonical hcanonical hn
      have hback : (Int64.ofInt n).toInt = n := Int64.toInt_ofInt_of_le (by omega) (by omega)
      rw [← hback] at hnonneg
      refine ⟨hnonneg, ?_⟩
      rw [fromVersion_eq hnonneg, hback, ← hvalue]

theorem parseVersion_eq_ok_iff (s : Bytes) (v : Int64) (singleton : Bool) :
    parseVersion s singleton = .ok v ↔
      s = (fromVersion v).string ∧ (0 < v ∧ v < Int64.maxValue ∨ v = 0 ∧ singleton = true) := by
  have hrange : (0 < v ∧ v < Int64.maxValue ∨ v = 0 ∧ singleton = true) ↔
      0 ≤ v.toInt ∧ ¬ (v = Int64.maxValue ∨ v = 0 ∧ !singleton) := by
    have hzero : v = 0 ↔ v.toInt = 0 := by rw [← Int64.toInt_inj]; rfl
    have hmax : v = Int64.maxValue ↔ v.toInt = 2 ^ 63 - 1 := by rw [← Int64.toInt_inj]; rfl
    have hpos : 0 < v ↔ 0 < v.toInt := Int64.lt_iff_toInt_lt
    have hlt : v < Int64.maxValue ↔ v.toInt < 2 ^ 63 - 1 := Int64.lt_iff_toInt_lt
    have hle := v.toInt_lt
    rw [hzero, hmax, hpos, hlt]
    cases singleton <;> simp <;> omega
  rw [hrange]
  constructor
  · intro h
    unfold parseVersion at h
    split at h
    · cases h
    · split at h
      · cases h
      · rename_i tag _
        split at h
        · cases h
        · rename_i hstring
          split at h
          · cases h
          · rename_i v' hv'
            split at h
            · cases h
            · rename_i hcond
              cases h
              obtain ⟨hnonneg, rfl⟩ := eq_fromVersion_of_version hv'
              exact ⟨(not_not.mp hstring).symm, hnonneg, hcond⟩
  · rintro ⟨rfl, hnonneg, hcond⟩
    have hlegal := legal_fromVersion hnonneg
    have hne : (fromVersion v).string ≠ [] := by
      obtain ⟨a, mid, -, hstring⟩ := string_eq hlegal
      simp [hstring]
    unfold parseVersion
    rw [if_neg hne, parse_string hlegal]
    simp only [ne_eq, not_true_eq_false, if_false, version_fromVersion hnonneg]
    exact if_neg hcond

/-- Rendered tags are read back, alone and in lists, and each version has one spelling. -/
theorem entity_tags :
    (∀ t : Tag, t.Legal → parse t.string = .ok t) ∧
    (∀ ps : List Padded, ps ≠ [] → (∀ p ∈ ps, p.Ok) → parseList (joined ps) =
    .ok (ps.map Padded.tag, false)) ∧
    ∀ (s : Bytes) (v : Int64) (singleton : Bool), parseVersion s singleton = .ok v ↔
      s = (fromVersion v).string ∧ (0 < v ∧ v < Int64.maxValue ∨ v = 0 ∧ singleton = true) :=
  ⟨fun _ => parse_string, fun _ => parseList_joined, parseVersion_eq_ok_iff⟩

/-- A list of two tags, one with a comma and one with a high byte. -/
theorem entity_tags_list :
    parseList (joined [⟨[0x20], ⟨[0x61, 0x2c], false⟩, []⟩, ⟨[0x09], ⟨[0xff], true⟩, [0x20]⟩]) =
      .ok ([⟨[0x61, 0x2c], false⟩, ⟨[0xff], true⟩], false) := by
  refine entity_tags.2.1 [⟨[0x20], ⟨[0x61, 0x2c], false⟩, []⟩, ⟨[0x09], ⟨[0xff], true⟩, [0x20]⟩]
    (by decide) fun p hp => ?_
  rcases List.mem_pair.mp hp with rfl | rfl
  · exact ⟨List.all_eq_true.mp (by decide), ⟨by decide, List.all_eq_true.mp (by decide)⟩,
      List.all_eq_true.mp (by decide)⟩
  · exact ⟨List.all_eq_true.mp (by decide), ⟨by decide, List.all_eq_true.mp (by decide)⟩,
      List.all_eq_true.mp (by decide)⟩

end GoAtlas.Etag
