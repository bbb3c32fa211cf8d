import GoAtlas.Lib.Base64
import GoAtlas.Lib.Uvarint

/-!
# Signed page tokens

`data/keyset`: a token carries a payload, its issue time and digests of what it is bound to, signed
with a key of the codec. `Issue` and `Resolve` go through base64 in chunks of 256 characters. What
is issued resolves to its payload under every codec that knows the key, as long as the issue time in
whole milliseconds is no older than the time to live; and a token has one accepted spelling. The
hash functions are parameters.
-/

namespace GoAtlas.Keyset

open Lib

def minKeyLength : Nat := 32

def maxPayloadLength : Nat := 1024

def version : UInt8 := 1

def digestLength : Nat := 16

def macLength : Nat := 32

def headerLength : Nat := 1 + 8 + 3 * digestLength

def maxRawLength : Nat := headerLength + 10 + maxPayloadLength + macLength

def maxTokenLength : Nat := Base64.encodedLen maxRawLength

/-- What a token is tied to: fingerprints chosen by the caller. -/
structure Bindings where
  sort : Bytes
  filter : Bytes
  subject : Bytes
  deriving DecidableEq

inductive Error where
  | invalidToken
  | expiredToken
  | sortChanged
  | filterChanged
  | subjectMismatch
  | payloadTooLarge (length : Nat)
  | codecRequired
  | outOfRange
  | marshalCursor
  deriving DecidableEq

abbrev Sum := { b : Bytes // b.length = macLength }

/-! ## Times -/

/-- A clock value, in nanoseconds since the epoch, in the range where its milliseconds fit an
`int64`. -/
structure Instant where
  nanos : Int
  fits : -2 ^ 63 ≤ nanos / 1000000 ∧ nanos / 1000000 < 2 ^ 63

def Instant.unixMilli (t : Instant) : Int := t.nanos / 1000000

/-- `Time.Sub`, which saturates. -/
def durationBetween (t u : Int) : Int := max (-2 ^ 63) (min (2 ^ 63 - 1) (t - u))

/-- `BigEndian.AppendUint64` of the `int64` as an `uint64`. -/
def be64 (ms : Int) : Bytes := (leBytes 8 (ms % 2 ^ 64).toNat).reverse

def readBe64 (bs : Bytes) : Int := Int.bmod (leNat bs.reverse) (2 ^ 64)

theorem length_be64 (ms : Int) : (be64 ms).length = 8 := by
  rw [be64, List.length_reverse, length_leBytes]

theorem bmod_emod_self {ms : Int} (hlo : -2 ^ 63 ≤ ms) (hhi : ms < 2 ^ 63) :
    Int.bmod (ms % 2 ^ 64) (2 ^ 64) = ms := by
  have hcast : (2 : Int) ^ 64 = ((2 ^ 64 : Nat) : Int) := by norm_num
  rw [hcast, Int.emod_bmod]
  exact Int.bmod_eq_of_le (by norm_num; omega) (by norm_num; omega)

theorem readBe64_be64 {ms : Int} (hlo : -2 ^ 63 ≤ ms) (hhi : ms < 2 ^ 63) :
    readBe64 (be64 ms) = ms := by
  have hlt : (ms % 2 ^ 64).toNat < 256 ^ 8 := by
    have := Int.emod_lt_of_pos ms (show (0 : Int) < 2 ^ 64 by omega)
    omega
  have hback : ((ms % 2 ^ 64).toNat : Int) = ms % 2 ^ 64 :=
    Int.toNat_of_nonneg (Int.emod_nonneg _ (by omega))
  have hnat : leNat (be64 ms).reverse = (ms % 2 ^ 64).toNat := by
    rw [be64, List.reverse_reverse]
    exact leNat_leBytes hlt
  unfold readBe64
  rw [hnat, hback]
  exact bmod_emod_self hlo hhi

/-! ## Chunked base64 -/

/-- The number of characters handled per step, and of the bytes they encode. -/
def codecChunk : Nat := 256

def rawChunk : Nat := codecChunk / 4 * 3

def encodeLoop : Nat → Bytes → Bytes
  | 0, _ => []
  | fuel + 1, raw =>
    if raw = [] then [] else Base64.encode (raw.take rawChunk) ++ encodeLoop fuel
      (raw.drop rawChunk)

def encodeToken (raw : Bytes) : Bytes := encodeLoop raw.length raw

def decodeLoop : Nat → Bytes → Option Bytes
  | 0, _ => some []
  | fuel + 1, token =>
    if token = [] then some []
    else (Base64.decode (token.take codecChunk)).bind fun bs =>
      (decodeLoop fuel (token.drop codecChunk)).map (bs ++ ·)

def decodeToken (token : Bytes) : Option Bytes := decodeLoop token.length token

theorem encodeLoop_eq {fuel : Nat} {raw : Bytes} (h : raw.length ≤ fuel) :
    encodeLoop fuel raw = Base64.encode raw := by
  induction fuel generalizing raw with
  | zero =>
    obtain rfl : raw = [] := List.length_eq_zero_iff.mp (by omega)
    rfl
  | succ fuel ih =>
    unfold encodeLoop
    split
    · rename_i hnil
      rw [hnil]
      rfl
    · rename_i hne
      have hpos := List.length_pos_iff.mpr hne
      have hdrop : (raw.drop rawChunk).length ≤ fuel := by
        rw [List.length_drop, rawChunk, codecChunk]
        omega
      rw [ih hdrop]
      rcases Nat.lt_or_ge raw.length rawChunk with hlt | hge
      · rw [List.take_of_length_le hlt.le, List.drop_of_length_le hlt.le]
        exact List.append_nil _
      · have hwhole : (raw.take rawChunk).length % 3 = 0 := by
          rw [List.length_take, Nat.min_eq_left hge]
          rfl
        rw [← Base64.encode_append hwhole, List.take_append_drop]

theorem decodeLoop_eq {fuel : Nat} {token : Bytes} (h : token.length ≤ fuel)
    (hcanon : Base64.Canonical token) :
    decodeLoop fuel token = Base64.decode token := by
  induction fuel generalizing token with
  | zero =>
    obtain rfl : token = [] := List.length_eq_zero_iff.mp (by omega)
    rfl
  | succ fuel ih =>
    unfold decodeLoop
    split
    · rename_i hnil
      rw [hnil]
      rfl
    · rename_i hne
      have hpos := List.length_pos_iff.mpr hne
      have hdrop : (token.drop codecChunk).length ≤ fuel := by
        rw [List.length_drop, codecChunk]
        omega
      have hcanon' := hcanon.of_subset fun c => List.mem_of_mem_drop (i := codecChunk)
      rw [ih hdrop hcanon']
      rcases Nat.lt_or_ge token.length codecChunk with hlt | hge
      · rw [List.take_of_length_le hlt.le, List.drop_of_length_le hlt.le]
        cases Base64.decode token with
        | none => rfl
        | some bs => exact congrArg some (List.append_nil bs)
      · have hwhole : (token.take codecChunk).length % 4 = 0 := by
          rw [List.length_take, Nat.min_eq_left hge]
          rfl
        rw [← Base64.decode_append hwhole (hcanon.of_subset fun c => List.mem_of_mem_take) hcanon',
          List.take_append_drop]

theorem encodeToken_eq (raw : Bytes) : encodeToken raw = Base64.encode raw :=
  encodeLoop_eq (Nat.le_refl _)

theorem decodeToken_eq {token : Bytes} (hcanon : Base64.Canonical token) :
    decodeToken token = Base64.decode token :=
  decodeLoop_eq (Nat.le_refl _) hcanon

/-! ## The codec -/

structure Options where
  ttl : Int := 24 * 3600 * 1000000000
  expiryDisabled : Bool := false
  maxClockSkew : Int := 60 * 1000000000
  /-- The setter ignores a duration that is not positive. -/
  ttl_pos : 0 < ttl := by decide

structure Codec where
  key : Bytes
  previous : List Bytes
  opts : Options

def isAlphabet (c : UInt8) : Bool :=
  let n := c.toNat
  (65 ≤ n && n ≤ 90) || (97 ≤ n && n ≤ 122) || (48 ≤ n && n ≤ 57) || n = 45 || n = 95

/-- The URL-safe alphabet only: the decoder would skip line breaks. -/
def canonicalAlphabet (token : Bytes) : Bool := token.all isAlphabet

section Hashes

variable (hmac : Bytes → Bytes → Sum) (sha256 : Bytes → Sum)

def digest (s : Bytes) : Bytes := (sha256 s).1.take digestLength

def digests (b : Bindings) : Bytes :=
  digest sha256 b.sort ++ digest sha256 b.filter ++ digest sha256 b.subject

def tokenBody (now : Instant) (payload : Bytes) (b : Bindings) : Bytes :=
  version :: (be64 now.unixMilli ++ digests sha256 b) ++ Uvarint.encode payload.length ++ payload

namespace Codec

variable (c : Codec)

def issue (now : Instant) (payload : Bytes) (b : Bindings) : Except Error Bytes :=
  if maxPayloadLength < payload.length then .error (.payloadTooLarge payload.length)
  else
    let body := tokenBody sha256 now payload b
    .ok (encodeToken (body ++ (hmac c.key body).1))

/-- Whether `mac` signs `body` under the current or a previous key. -/
def verify (body mac : Bytes) : Bool :=
  (c.key :: c.previous).any fun k => decide (mac = (hmac k body).1)

def checkDigests (digests : Bytes) (b : Bindings) : Except Error Unit :=
  if digests.take digestLength ≠ digest sha256 b.sort then .error .sortChanged
  else if (digests.drop digestLength).take digestLength ≠
    digest sha256 b.filter then .error .filterChanged
  else if digests.drop (2 * digestLength) ≠ digest sha256 b.subject then .error .subjectMismatch
  else .ok ()

def readPayload (body : Bytes) : Except Error Bytes :=
  let (n, size) := Uvarint.decode (body.drop headerLength)
  let rest := body.drop (headerLength + (max size 0).toNat)
  if size ≤ 0 ∨ maxPayloadLength < n ∨ n ≠ rest.length then .error .invalidToken else .ok rest

def resolveBody (now : Instant) (body : Bytes) (b : Bindings) : Except Error Bytes :=
  let issued := readBe64 ((body.drop 1).take 8) * 1000000
  if body.head? ≠ some version then .error .invalidToken
  else if now.nanos + c.opts.maxClockSkew < issued then .error .invalidToken
  else if !c.opts.expiryDisabled && c.opts.ttl < durationBetween now.nanos issued then
    .error .expiredToken
  else do
    checkDigests sha256 ((body.take headerLength).drop 9) b
    readPayload body

def resolve (now : Instant) (token : Bytes) (b : Bindings) : Except Error Bytes :=
  if token = [] ∨ maxTokenLength < token.length ∨ canonicalAlphabet token =
    false then .error .invalidToken
  else
    match decodeToken token with
    | none => .error .invalidToken
    | some raw =>
      let body := raw.take (raw.length - macLength)
      if raw.length < headerLength + 1 + macLength then .error .invalidToken
      else if c.verify hmac body (raw.drop (raw.length - macLength)) then c.resolveBody
        sha256 now body b
      else .error .invalidToken

end Codec

/-! ## Spellings -/

theorem isAlphabet_iff (c : UInt8) : isAlphabet c = true ↔ (Base64.digit? c).isSome = true := by
  have hall : ∀ c : Fin 256, isAlphabet (UInt8.ofNat c) =
      (Base64.digit? (UInt8.ofNat c)).isSome := by decide +kernel
  have := hall ⟨c.toNat, c.toNat_lt⟩
  simp only [UInt8.ofNat_toNat] at this
  rw [this]

theorem canonical_iff {token : Bytes} :
    canonicalAlphabet token = true ↔ Base64.Canonical token := by
  rw [canonicalAlphabet, List.all_eq_true]
  exact forall₂_congr fun c _ => isAlphabet_iff c

theorem decodeToken_encodeToken (raw : Bytes) : decodeToken (encodeToken raw) = some raw := by
  rw [encodeToken_eq, decodeToken_eq (Base64.canonical_encode raw), Base64.decode_encode]

variable {hmac sha256} {c : Codec} {now : Instant} {token payload : Bytes} {b : Bindings}

theorem canonical_of_resolve (h : c.resolve hmac sha256 now token b = .ok payload) :
    Base64.Canonical token := by
  unfold Codec.resolve at h
  split at h
  · cases h
  · rename_i hok
    refine canonical_iff.mp ?_
    simpa using fun hfalse => hok (Or.inr (Or.inr hfalse))

theorem decodeToken_of_resolve (h : c.resolve hmac sha256 now token b = .ok payload) :
    ∃ raw, decodeToken token = some raw := by
  unfold Codec.resolve at h
  split at h
  · cases h
  · split at h
    · cases h
    · rename_i raw hraw
      exact ⟨raw, hraw⟩

theorem encodeToken_of_resolve {raw : Bytes} (h : c.resolve hmac sha256 now token b = .ok payload)
    (hraw : decodeToken token = some raw) : encodeToken raw = token := by
  have hcanon := canonical_of_resolve h
  rw [decodeToken_eq hcanon] at hraw
  rw [encodeToken_eq, Base64.encode_of_decode hcanon hraw]

/-! ## Round trip -/

theorem length_digest (s : Bytes) : (digest sha256 s).length = digestLength := by
  rw [digest, List.length_take, (sha256 s).2]
  rfl

theorem length_digests (b : Bindings) : (digests sha256 b).length = 3 * digestLength := by
  simp only [digests, List.length_append, length_digest]
  omega

theorem checkDigests_digests (b : Bindings) :
    Codec.checkDigests sha256 (digests sha256 b) b = .ok () := by
  have hsort : (digest sha256 b.sort).length = digestLength := length_digest b.sort
  have hfilter : (digest sha256 b.filter).length = digestLength := length_digest b.filter
  have h₁ : (digests sha256 b).take digestLength = digest sha256 b.sort := by
    rw [digests, List.append_assoc, List.take_left' hsort]
  have h₂ : ((digests sha256 b).drop digestLength).take digestLength = digest sha256 b.filter := by
    rw [digests, List.append_assoc, List.drop_left' hsort, List.take_left' hfilter]
  have h₃ : (digests sha256 b).drop (2 * digestLength) = digest sha256 b.subject := by
    rw [digests, List.drop_left' (by rw [List.length_append, hsort, hfilter]; omega)]
  rw [Codec.checkDigests, h₁, h₂, h₃]
  simp

theorem tokenBody_eq (sha256 : Bytes → Sum) (now : Instant) (payload : Bytes) (b : Bindings) :
    ∃ header : Bytes, header.length = headerLength ∧
      header = version :: (be64 now.unixMilli ++ digests sha256 b) ∧
      tokenBody sha256 now payload b = header ++ (Uvarint.encode payload.length ++ payload) := by
  refine ⟨_, ?_, rfl, ?_⟩
  · rw [List.length_cons, List.length_append, length_be64, length_digests]
    rfl
  · rw [tokenBody, List.append_assoc]

theorem readPayload_tokenBody (hlen : payload.length ≤ maxPayloadLength) :
    Codec.readPayload (tokenBody sha256 now payload b) = .ok payload := by
  obtain ⟨header, hheader, -, hbody⟩ := tokenBody_eq sha256 now payload b
  have hread : Uvarint.decode (Uvarint.encode payload.length ++ payload) =
      (payload.length, ((Uvarint.encode payload.length).length : Int)) :=
    Uvarint.decode_encode (by unfold maxPayloadLength at hlen; omega) payload
  have hpos := (Uvarint.length_encode_le payload.length).1
  rw [hbody, Codec.readPayload, List.drop_left' hheader, hread]
  have hrest : (header ++ (Uvarint.encode payload.length ++ payload)).drop
      (headerLength + (max ((Uvarint.encode payload.length).length : Int) 0).toNat) = payload := by
    rw [← List.append_assoc, List.drop_left']
    rw [List.length_append, hheader]
    omega
  simp only [hrest]
  rw [if_neg]
  omega

/-- The time condition of `Resolve`: the token is not from the future, and not too old. -/
def Codec.InTime (c : Codec) (issued : Int) (now : Instant) : Prop :=
  issued ≤ now.nanos + c.opts.maxClockSkew ∧
    (c.opts.expiryDisabled = true ∨ now.nanos - issued ≤ c.opts.ttl)

theorem resolveBody_tokenBody {now' : Instant} (hlen : payload.length ≤ maxPayloadLength)
    (htime : c.InTime (now.unixMilli * 1000000) now') :
    c.resolveBody sha256 now' (tokenBody sha256 now payload b) b = .ok payload := by
  obtain ⟨header, hheader, hdef, hbody⟩ := tokenBody_eq sha256 now payload b
  have hissued : readBe64 (((tokenBody sha256 now payload b).drop 1).take 8) = now.unixMilli := by
    rw [hbody, hdef, List.cons_append, List.drop_one, List.tail_cons, List.append_assoc,
      List.take_left' (length_be64 _)]
    exact readBe64_be64 now.fits.1 now.fits.2
  have hdigests : ((tokenBody sha256 now payload b).take headerLength).drop 9 =
      digests sha256 b := by
    rw [hbody, List.take_left' hheader, hdef, List.drop_succ_cons, List.drop_left' (length_be64 _)]
  have hhead : (tokenBody sha256 now payload b).head? = some version := by
    rw [hbody, hdef]
    rfl
  have hskew : ¬ now'.nanos + c.opts.maxClockSkew < now.unixMilli * 1000000 := by
    have := htime.1
    omega
  have hfresh : (!c.opts.expiryDisabled && decide (c.opts.ttl <
      durationBetween now'.nanos (now.unixMilli * 1000000))) = false := by
    rcases htime.2 with hoff | hle
    · rw [hoff]
      rfl
    · have hpos := c.opts.ttl_pos
      rw [Bool.and_eq_false_iff]
      right
      rw [decide_eq_false_iff_not, durationBetween]
      omega
  simp only [Codec.resolveBody, hissued, hhead, hdigests, ne_eq, not_true_eq_false, if_false,
    if_neg hskew, hfresh, checkDigests_digests, readPayload_tokenBody hlen]
  rfl

theorem length_tokenBody (hlen : payload.length ≤ maxPayloadLength) :
    headerLength + 1 ≤ (tokenBody sha256 now payload b).length ∧
      (tokenBody sha256 now payload b).length ≤ headerLength + 10 + maxPayloadLength := by
  obtain ⟨header, hheader, -, heq⟩ := tokenBody_eq sha256 now payload b
  have hvar := Uvarint.length_encode_le payload.length
  rw [heq, List.length_append, hheader, List.length_append]
  omega

theorem resolve_encodeToken {body : Bytes} {mac : Sum} (hlo : headerLength + 1 ≤ body.length)
    (hhi : body.length ≤ headerLength + 10 + maxPayloadLength) :
    encodeToken (body ++ mac.1) ≠ [] ∧ c.resolve hmac sha256 now (encodeToken (body ++ mac.1)) b =
      if c.verify hmac body mac.1 then c.resolveBody sha256 now body b
        else .error .invalidToken := by
  set raw := body ++ mac.1 with hraw
  have hlenRaw : raw.length = body.length + macLength := by
    rw [hraw, List.length_append, mac.2]
  have hne : encodeToken raw ≠ [] := by
    intro hnil
    have hzero := congrArg List.length hnil
    rw [encodeToken_eq, Base64.length_encode, List.length_nil, Base64.encodedLen, hlenRaw] at hzero
    unfold macLength at hzero
    omega
  have hshort : (encodeToken raw).length ≤ maxTokenLength := by
    rw [encodeToken_eq, Base64.length_encode]
    exact Base64.encodedLen_mono (by rw [hlenRaw, maxRawLength]; omega)
  have hcanon : canonicalAlphabet (encodeToken raw) = true := by
    rw [encodeToken_eq]
    exact canonical_iff.mpr (Base64.canonical_encode raw)
  have hcut : raw.length - macLength = body.length := by omega
  refine ⟨hne, ?_⟩
  rw [Codec.resolve, if_neg (by simp [hne, hcanon, hshort]), decodeToken_encodeToken]
  simp only [hcut]
  rw [if_neg (by omega), hraw, List.take_left, List.drop_left]

theorem exists_issue (hlen : payload.length ≤ maxPayloadLength) :
    ∃ token, c.issue hmac sha256 now payload b = .ok token ∧ token ≠ [] := by
  obtain ⟨hlo, hhi⟩ : headerLength + 1 ≤ (tokenBody sha256 now payload b).length ∧ _ :=
    length_tokenBody hlen
  refine ⟨_, by rw [Codec.issue, if_neg (by omega)], ?_⟩
  exact (@resolve_encodeToken hmac sha256 c now b _ (hmac c.key _) hlo hhi).1

theorem resolve_issue {c' : Codec} {now' : Instant} (hkey : c.key ∈ c'.key :: c'.previous)
    (hlen : payload.length ≤ maxPayloadLength) (htime : c'.InTime (now.unixMilli * 1000000) now') :
    ∃ token, c.issue hmac sha256 now payload b = .ok token ∧ token ≠ [] ∧
      c'.resolve hmac sha256 now' token b = .ok payload := by
  obtain ⟨hlo, hhi⟩ : headerLength + 1 ≤ (tokenBody sha256 now payload b).length ∧ _ :=
    length_tokenBody hlen
  have hverify : c'.verify hmac (tokenBody sha256 now payload b)
    (hmac c.key (tokenBody sha256 now payload b)).1 = true :=
    List.any_eq_true.mpr ⟨c.key, hkey, decide_eq_true rfl⟩
  obtain ⟨hne, hresolve⟩ := @resolve_encodeToken hmac sha256 c' now' b _ (hmac c.key _) hlo hhi
  refine ⟨_, by rw [Codec.issue, if_neg (by omega)], hne, ?_⟩
  rw [hresolve, if_pos hverify]
  exact resolveBody_tokenBody hlen htime

theorem readPayload_of_resolveBody {body : Bytes}
    (h : c.resolveBody sha256 now body b = .ok payload) :
    Codec.readPayload body = .ok payload := by
  unfold Codec.resolveBody at h
  dsimp only at h
  split at h
  · cases h
  · split at h
    · cases h
    · split at h
      · cases h
      · cases hdigests : Codec.checkDigests sha256 ((body.take headerLength).drop 9) b with
        | error e =>
          rw [hdigests] at h
          cases h
        | ok u =>
          rw [hdigests] at h
          exact h

/-- A token that was issued is not empty, and whatever codec accepts it reads the payload it was
issued with. -/
theorem resolve_of_issue (h : c.issue hmac sha256 now payload b = .ok token) :
    token ≠ [] ∧ ∀ {c' : Codec} {now' : Instant} {b' : Bindings} {payload' : Bytes},
      c'.resolve hmac sha256 now' token b' = .ok payload' → payload' = payload := by
  unfold Codec.issue at h
  split at h
  · cases h
  · rename_i hlen
    cases h
    obtain ⟨hlo, hhi⟩ : headerLength + 1 ≤ (tokenBody sha256 now payload b).length ∧ _ :=
      length_tokenBody (by omega)
    refine ⟨(@resolve_encodeToken hmac sha256 c now b _ _ hlo hhi).1, ?_⟩
    intro c' now' b' payload' hresolve
    rw [(resolve_encodeToken hlo hhi).2] at hresolve
    split at hresolve
    · have hread := readPayload_of_resolveBody hresolve
      rw [readPayload_tokenBody (by omega)] at hread
      exact (Except.ok.inj hread).symm
    · cases hresolve

end Hashes

/-- A token resolves to the payload it was issued with, under every codec that has the issuing key
as its current or a previous one, for bindings it was issued for, while the issue time in whole
milliseconds is in time. Two accepted tokens with the same bytes are the same string. -/
theorem token_roundtrip (hmac : Bytes → Bytes → Sum) (sha256 : Bytes → Sum) :
    (∀ (c c' : Codec) (now now' : Instant) (payload : Bytes) (b : Bindings),
      c.key ∈ c'.key :: c'.previous → payload.length ≤ maxPayloadLength →
      now.nanos ≤ now'.nanos + c'.opts.maxClockSkew →
      (c'.opts.expiryDisabled = true ∨ now'.nanos - now.unixMilli * 1000000 ≤ c'.opts.ttl) →
      ∃ token, c.issue hmac sha256 now payload b = .ok token ∧ c'.resolve hmac sha256 now' token b =
        .ok payload) ∧
    ∀ (c₁ c₂ : Codec) (now₁ now₂ : Instant) (b₁ b₂ : Bindings) (t₁ t₂ p₁ p₂ : Bytes),
      c₁.resolve hmac sha256 now₁ t₁ b₁ = .ok p₁ → c₂.resolve hmac sha256 now₂ t₂ b₂ = .ok p₂ →
      decodeToken t₁ = decodeToken t₂ → t₁ = t₂ := by
  constructor
  · intro c c' now now' payload b hkey hlen hskew httl
    have hmilli : now.unixMilli * 1000000 ≤ now.nanos := by
      unfold Instant.unixMilli
      omega
    obtain ⟨token, hissue, -, hresolve⟩ := resolve_issue hkey hlen ⟨hmilli.trans hskew, httl⟩
    exact ⟨token, hissue, hresolve⟩
  · intro c₁ c₂ now₁ now₂ b₁ b₂ t₁ t₂ p₁ p₂ h₁ h₂ hsame
    obtain ⟨raw, hraw⟩ := decodeToken_of_resolve h₁
    rw [← encodeToken_of_resolve h₁ hraw, ← encodeToken_of_resolve h₂ (hsame ▸ hraw)]

def zeroSum : Sum := ⟨List.replicate macLength 0, List.length_replicate⟩

def halfMilli : Instant := ⟨500000, by decide⟩

def wholeMilliLater : Instant := ⟨86400000000000, by decide⟩

def halfMilliLater : Instant := ⟨86400000500000, by decide⟩

def plainCodec : Codec := { key := List.replicate minKeyLength 7, previous := [], opts := {} }

/-- A token that was issued half a millisecond after a whole one expires half a millisecond before
its time to live has passed. -/
theorem token_expires_early :
    halfMilliLater.nanos - halfMilli.nanos = plainCodec.opts.ttl ∧
    (plainCodec.issue (fun _ _ => zeroSum) (fun _ => zeroSum) halfMilli [1, 2, 3] ⟨[], [], []⟩).bind
      (fun token => plainCodec.resolve (fun _ _ => zeroSum) (fun _ => zeroSum) halfMilliLater token
        ⟨[], [], []⟩) = .error .expiredToken := by
  decide +kernel

/-- The codec after a rotation: the key of `plainCodec` is a previous one. -/
def rotatedCodec : Codec :=
  { key := List.replicate minKeyLength 8, previous := [List.replicate minKeyLength 7], opts := {} }

/-- A token of the old key still resolves, the whole time to live after the millisecond it was
issued in. -/
theorem token_roundtrip_rotated :
    ∃ token, plainCodec.issue (fun _ _ => zeroSum) (fun _ => zeroSum) halfMilli [1, 2, 3]
      ⟨[], [], []⟩ = .ok token ∧
      rotatedCodec.resolve (fun _ _ => zeroSum) (fun _ => zeroSum) wholeMilliLater token
        ⟨[], [], []⟩ =
        .ok [1, 2, 3] :=
  (token_roundtrip _ _).1 plainCodec rotatedCodec halfMilli wholeMilliLater [1, 2, 3] _
    (by decide) (by decide) (by decide) (Or.inr (by decide))

end GoAtlas.Keyset
