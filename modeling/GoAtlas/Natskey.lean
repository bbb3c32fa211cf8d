import GoAtlas.Lib.Bytes
import GoAtlas.Lib.StateExcept
import Mathlib.Data.List.Chain

/-!
# Keys of the NATS KeyValue buckets

`data/internal/natskey`: a key of any bytes as a key the server accepts. Letters, digits and some
punctuation stay, every other byte becomes `=` and two hexadecimal digits. A dot stays where it
separates two tokens that are not empty, so whether it does depends on the bytes beside it. The loop
over the positions of a key is a recursion that carries the byte before the position.
-/

namespace GoAtlas.Natskey

open GoAtlas.Lib

def maxLen : Nat := 3072

/-- `=`, which introduces an escaped byte and alone is the encoding of the empty key. -/
def escape : UInt8 := 61

def dot : UInt8 := 46

def emptyKey : Bytes := [escape]

inductive Err where
  /-- `ErrKeyTooLong` with the length it gives, of the key or of its encoding. -/
  | keyTooLong (bytes : Nat) (encoded : Bool)
  /-- `ErrMalformed` with the physical key. -/
  | truncatedEscape (physical : Bytes)
  | badEscape (physical : Bytes)
  | nonCanonical (physical : Bytes)
  deriving DecidableEq

def plain (c : UInt8) : Bool :=
  (97 ≤ c && c ≤ 122) || (65 ≤ c && c ≤ 90) || (48 ≤ c && c ≤ 57) || c == 45 || c == 95 || c == 47

/-- `literal`: the byte `c` of a key, with the byte before it and what comes after. -/
def literal (prev : Option UInt8) (c : UInt8) (rest : Bytes) : Bool :=
  plain c || (c == dot && prev.isSome && !rest.isEmpty && prev != some dot)

def hexDigit (d : Nat) : UInt8 := UInt8.ofNat (if d < 10 then 48 + d else 55 + d)

def unhex (c : UInt8) : Option Nat :=
  if 48 ≤ c ∧ c ≤ 57 then some (c.toNat - 48)
  else if 65 ≤ c ∧ c ≤ 70 then some (c.toNat - 55)
  else none

def escapes (prev : Option UInt8) : Bytes → Nat
  | [] => 0
  | c :: rest => (if literal prev c rest then 0 else 1) + escapes (some c) rest

def spell (prev : Option UInt8) : Bytes → Bytes
  | [] => []
  | c :: rest =>
    (if literal prev c rest then [c]
      else [escape, hexDigit (c.toNat / 16), hexDigit (c.toNat % 16)]) ++
      spell (some c) rest

def encode (key : Bytes) : Except Err Bytes :=
  if maxLen < key.length then .error (.keyTooLong key.length false)
  else if key = [] then .ok emptyKey
  else
    let n := key.length + 2 * escapes none key
    if maxLen < n then .error (.keyTooLong n true)
    else if n = key.length then .ok key
    else .ok (spell none key)

/-- The loop of `Decode`; `physical` is the whole key, which the errors name. -/
def unescape (physical : Bytes) : Bytes → Except Err Bytes
  | [] => .ok []
  | c :: rest =>
    if c ≠ escape then (c :: ·) <$> unescape physical rest
    else match rest with
      | hi :: lo :: rest =>
        match unhex hi, unhex lo with
        | some hi, some lo => (UInt8.ofNat (16 * hi + lo) :: ·) <$> unescape physical rest
        | _, _ => .error (.badEscape physical)
      | _ => .error (.truncatedEscape physical)

def decode (physical : Bytes) : Except Err Bytes :=
  if physical = emptyKey then .ok []
  else do
    let key ← unescape physical physical
    if encode key = .ok physical then .ok key else .error (.nonCanonical physical)

/-! ## What an encoding looks like -/

def Allowed (c : UInt8) : Prop := plain c = true ∨ c = escape ∨ c = dot

theorem plain_hexDigit {d : Nat} (h : d < 16) : plain (hexDigit d) = true := by
  have hall : ∀ d : Fin 16, plain (hexDigit d) = true := by decide
  exact hall ⟨d, h⟩

theorem unhex_hexDigit {d : Nat} (h : d < 16) : unhex (hexDigit d) = some d := by
  have hall : ∀ d : Fin 16, unhex (hexDigit d) = some d.val := by decide
  exact hall ⟨d, h⟩

variable {c : UInt8}

theorem ne_of_plain (h : plain c = true) : c ≠ escape ∧ c ≠ dot := by
  constructor <;> rintro rfl <;> exact absurd h (by decide)

variable {prev : Option UInt8} {key : Bytes}

theorem literal_dot {rest : Bytes} (h : literal prev dot rest = true) :
    prev ≠ none ∧ prev ≠ some dot ∧ rest ≠ [] := by
  have hplain : plain dot = false := by decide
  simpa [literal, hplain, Option.isSome_iff_ne_none, and_assoc, and_comm, and_left_comm] using h

theorem literal_cases {rest : Bytes} (h : literal prev c rest = true) :
    plain c = true ∨ (c = dot ∧ prev ≠ none ∧ prev ≠ some dot ∧ rest ≠ []) := by
  by_cases hc : c = dot
  · subst hc
    exact .inr ⟨rfl, literal_dot h⟩
  · exact .inl (by simpa [literal, hc] using h)

inductive Spelled (prev : Option UInt8) (c : UInt8) (rest : Bytes) : Bytes → Prop where
  | plain : plain c = true → Spelled prev c rest [c]
  | dot : c = dot → prev ≠ none → prev ≠ some dot → rest ≠ [] → Spelled prev c rest [dot]
  | escaped {hi lo : UInt8} : plain hi = true → plain lo = true →
    unhex hi = some (c.toNat / 16) → unhex lo = some (c.toNat % 16) →
    Spelled prev c rest [escape, hi, lo]

theorem spell_cons (prev : Option UInt8) (c : UInt8) (rest : Bytes) :
    ∃ w, Spelled prev c rest w ∧ spell prev (c :: rest) = w ++ spell (some c) rest := by
  refine ⟨_, ?_, rfl⟩
  have hc := c.toNat_lt
  split
  · rename_i h
    rcases literal_cases h with h | ⟨rfl, hnone, hdot, hne⟩
    · exact .plain h
    · exact .dot rfl hnone hdot hne
  · exact .escaped (plain_hexDigit (by omega)) (plain_hexDigit (by omega))
      (unhex_hexDigit (by omega))
      (unhex_hexDigit (by omega))

theorem length_spell (prev : Option UInt8) (key : Bytes) :
    (spell prev key).length = key.length + 2 * escapes prev key := by
  induction key generalizing prev with
  | nil => rfl
  | cons c rest ih =>
    rw [spell, escapes, List.length_append, ih]
    split <;> simp <;> omega

theorem spell_eq_self (h : escapes prev key = 0) :
    spell prev key = key := by
  induction key generalizing prev with
  | nil => rfl
  | cons c rest ih =>
    rw [escapes] at h
    split at h
    · rename_i hlit
      rw [spell, if_pos hlit, ih (by omega)]
      rfl
    · omega

theorem allowed_of_mem_spell (h : c ∈ spell prev key) : Allowed c := by
  induction key generalizing prev with
  | nil => cases h
  | cons d rest ih =>
    obtain ⟨w, hw, hspell⟩ := spell_cons prev d rest
    rw [hspell, List.mem_append] at h
    rcases h with h | h
    · cases hw with
      | plain hd => exact .inl (by rwa [List.mem_singleton.mp h])
      | dot => exact .inr (.inr (List.mem_singleton.mp h))
      | escaped hhi hlo =>
        simp only [List.mem_cons, List.not_mem_nil, or_false] at h
        rcases h with rfl | rfl | rfl
        · exact .inr (.inl rfl)
        · exact .inl hhi
        · exact .inl hlo
    · exact ih h

theorem head?_spell (h : (spell prev key).head? = some dot) :
    prev ≠ none ∧ prev ≠ some dot := by
  cases key with
  | nil => cases h
  | cons c rest =>
    obtain ⟨w, hw, hspell⟩ := spell_cons prev c rest
    rw [hspell] at h
    cases hw with
    | plain hc => exact absurd (Option.some.inj h) (ne_of_plain hc).2
    | dot _ hnone hdot => exact ⟨hnone, hdot⟩
    | escaped => cases h

theorem getLast?_spell :
    (spell prev key).getLast? ≠ some dot := by
  induction key generalizing prev with
  | nil => simp [spell]
  | cons c rest ih =>
    obtain ⟨w, hw, hspell⟩ := spell_cons prev c rest
    rw [hspell, List.getLast?_append]
    cases hlast : (spell (some c) rest).getLast? with
    | some d =>
      rw [← hlast, Option.or_eq_left_of_isSome (by simp [hlast])]
      exact ih
    | none =>
      -- nothing follows, so a dot would not have stayed
      have hrest : rest = [] := by
        cases rest with
        | nil => rfl
        | cons d rest =>
          have := congrArg List.length (List.getLast?_eq_none_iff.mp hlast)
          rw [length_spell] at this
          simp at this
      cases hw with
      | plain hc => simpa using (ne_of_plain hc).2
      | dot _ _ _ hne => exact absurd hrest hne
      | escaped _ hlo => simpa using (ne_of_plain hlo).2

theorem isChain_spell :
    (spell prev key).IsChain fun a b => ¬ (a = dot ∧ b = dot) := by
  induction key generalizing prev with
  | nil => exact .nil
  | cons c rest ih =>
    obtain ⟨w, hw, hspell⟩ := spell_cons prev c rest
    rw [hspell]
    refine List.isChain_append.mpr ⟨?_, ih, ?_⟩
    · cases hw with
      | plain => exact .singleton _
      | dot => exact .singleton _
      | escaped hhi hlo =>
        refine List.isChain_cons_cons.mpr ⟨fun h => ?_, List.isChain_pair.mpr fun h => ?_⟩
        · exact (ne_of_plain hhi).2 h.2
        · exact (ne_of_plain hlo).2 h.2
    · rintro a ha b hb ⟨rfl, rfl⟩
      cases hw with
      | plain hc => exact (ne_of_plain hc).2 (by simpa using ha)
      | dot hc => exact (head?_spell hb).2 (by rw [hc])
      | escaped _ hlo => exact (ne_of_plain hlo).2 (by simpa using ha)

/-! ## Reading back -/

theorem unescape_cons {physical rest : Bytes} (h : c ≠ escape) :
    unescape physical (c :: rest) = (c :: ·) <$> unescape physical rest := by
  rw [unescape.eq_def]
  exact if_pos h

theorem unescape_spell (physical : Bytes) (prev : Option UInt8) (key : Bytes) :
    unescape physical (spell prev key) = .ok key := by
  induction key generalizing prev with
  | nil => rfl
  | cons c rest ih =>
    obtain ⟨w, hw, hspell⟩ := spell_cons prev c rest
    rw [hspell]
    cases hw with
    | plain hc =>
      rw [List.singleton_append, unescape_cons (ne_of_plain hc).1, ih]
      rfl
    | dot hc =>
      rw [List.singleton_append, unescape_cons (by decide), ih, hc]
      rfl
    | escaped _ _ hhi hlo =>
      have hjoin : UInt8.ofNat (16 * (c.toNat / 16) + c.toNat % 16) = c := by
        rw [Nat.div_add_mod]
        simp
      simp only [List.cons_append, List.nil_append, unescape, ne_eq, not_true_eq_false, if_false,
        hhi, hlo, ih, hjoin]
      rfl

def physical (key : Bytes) : Bytes := if key = [] then emptyKey else spell none key

theorem spell_ne_emptyKey (key : Bytes) : spell none key ≠ emptyKey := by
  intro he
  have hread := unescape_spell [] none key
  rw [he] at hread
  cases hread

theorem encode_eq_ok_iff {key e : Bytes} :
    encode key = .ok e ↔ e = physical key ∧ e.length ≤ maxLen := by
  have hlen := length_spell none key
  unfold encode physical
  by_cases hkey : key = []
  · subst hkey
    constructor
    · intro h
      cases h
      exact ⟨rfl, by decide⟩
    · rintro ⟨rfl, -⟩
      rfl
  · rw [if_neg hkey, if_neg hkey]
    constructor
    · intro h
      split at h
      · cases h
      dsimp only at h
      split at h
      · cases h
      split at h <;> cases h
      · rename_i hfits hnone
        have hself := spell_eq_self (show escapes none key = 0 by omega)
        exact ⟨hself.symm, by omega⟩
      · exact ⟨rfl, by omega⟩
    · rintro ⟨rfl, hle⟩
      rw [if_neg (by omega), if_neg (by omega)]
      split
      · rw [spell_eq_self (by omega)]
      · rfl

theorem decode_eq_ok_iff {p key : Bytes} : decode p = .ok key ↔ encode key = .ok p := by
  unfold decode
  constructor
  · intro h
    split at h
    · rename_i hempty
      cases h
      rw [hempty]
      rfl
    · obtain ⟨k, -, h⟩ := Run.except_bind.mp h
      split at h <;> cases h
      assumption
  · intro h
    obtain ⟨hp, -⟩ := encode_eq_ok_iff.mp h
    by_cases hkey : key = []
    · rw [hp, hkey]
      rfl
    · rw [physical, if_neg hkey] at hp
      have hne := spell_ne_emptyKey key
      have hread := unescape_spell p none key
      rw [← hp] at hne hread
      rw [if_neg hne, hread]
      exact if_pos h

/-- A key whose encoding fits is encoded, in bytes the server accepts and with no empty token, and
no other key is encoded the same; what is decoded is exactly what was encoded. -/
theorem encode_canonical (k : Bytes) (hfits : (physical k).length ≤ maxLen) :
    encode k = .ok (physical k) ∧ (∀ c ∈ physical k, Allowed c) ∧
    (physical k).head? ≠ some dot ∧ (physical k).getLast? ≠ some dot ∧
    ¬ [dot, dot] <:+: physical k ∧
    decode (physical k) = .ok k ∧ (∀ k', encode k' = .ok (physical k) → k' = k) ∧
    ∀ p k', decode p = .ok k' ↔ encode k' = .ok p := by
  have hencode : encode k = .ok (physical k) := encode_eq_ok_iff.mpr ⟨rfl, hfits⟩
  have hdecode : decode (physical k) = .ok k := decode_eq_ok_iff.mpr hencode
  have hinj : ∀ k', encode k' = .ok (physical k) → k' = k := by
    intro k' h
    exact Except.ok.inj ((decode_eq_ok_iff.mpr h).symm.trans hdecode)
  have hchain : (physical k).IsChain fun a b => ¬ (a = dot ∧ b = dot) := by
    unfold physical
    split
    · exact .singleton _
    · exact isChain_spell
  refine ⟨hencode, ?_, ?_, ?_, fun hdots => ?_, hdecode, hinj, fun p k' => decode_eq_ok_iff⟩
  · intro c hc
    unfold physical at hc
    split at hc
    · exact .inr (.inl (List.mem_singleton.mp hc))
    · exact allowed_of_mem_spell hc
  · intro hhead
    unfold physical at hhead
    split at hhead
    · cases hhead
    · exact (head?_spell hhead).1 rfl
  · unfold physical
    split
    · decide
    · exact getLast?_spell
  · have hpair := List.IsChain.infix hchain hdots
    exact List.isChain_pair.mp hpair ⟨rfl, rfl⟩

/-- The key `.a..=`, of which only one dot stays. -/
theorem encode_canonical_dots :
    (physical [46, 97, 46, 46, 61]).length ≤ maxLen ∧
      encode [46, 97, 46, 46, 61] = .ok [61, 50, 69, 97, 46, 61, 50, 69, 61, 51, 68] :=
  ⟨by decide, (encode_canonical [46, 97, 46, 46, 61] (by decide)).1⟩

end GoAtlas.Natskey
