import GoAtlas.Lib.Hex
import GoAtlas.Lib.Instant
import GoAtlas.Lib.Numeral
import GoAtlas.Lib.Split
import GoAtlas.Lib.Trim

/-!
# Webhook signatures

`security/hmacsign`: a signer puts the HMAC of a message into a header, and a verifier checks a
received header against its secrets. GitHub signs the body; Stripe signs the body with a timestamp,
and its verifier has a replay window.

HMAC-SHA256 is any function to digests of 32 bytes. Texts are bytes.
-/

namespace GoAtlas.Hmacsign

open Lib

structure Digest where
  bytes : Bytes
  size : bytes.length = 32

/-- `digest`: the HMAC of a message under a secret. -/
abbrev Hmac := Bytes → Bytes → Digest

inductive Err where
  /-- `ErrMalformedSignature`, with what is wrong. -/
  | malformed (detail : String)
  /-- `ErrTimestampOutOfTolerance`, with the age that is reported. -/
  | outOfTolerance (diff : Int)
  | mismatch
  deriving DecidableEq

structure Scheme where
  message : Instant → Bytes → Bytes
  formatHeader : Instant → Bytes → Bytes
  parseHeader : Bytes → Except Err (Instant × List Bytes)

/-! ## GitHub -/

/-- `sha256=`. -/
def githubPrefix : Bytes := [115, 104, 97, 50, 53, 54, 61]

/-- `strings.TrimPrefix`. -/
def trimPrefix (s pre : Bytes) : Bytes := (strip pre s).getD s

def github : Scheme where
  message _ body := body
  formatHeader _ digest := githubPrefix ++ Hex.encode digest
  parseHeader header :=
    match Hex.decode (trimPrefix (trimSpace header) githubPrefix) with
    | some raw => if raw = [] then .error (.malformed "bad digest") else .ok (.zero, [raw])
    | none => .error (.malformed "bad digest")

/-! ## Stripe -/

def equals : UInt8 := 61

def dot : UInt8 := 46

/-- `t`. -/
def timestampKey : Bytes := [116]

/-- `v1`. -/
def digestKey : Bytes := [118, 49]

def stripeMessage (tsUnix : Int) (body : Bytes) : Bytes := signed tsUnix ++ dot :: body

def stripeFields : List Bytes → Option Int → List Bytes → Except Err (Option Int × List Bytes)
  | [], ts, sigs => .ok (ts, sigs)
  | part :: parts, ts, sigs =>
    match cut equals (trimSpace part) with
    | none => stripeFields parts ts sigs
    | some (key, val) =>
      if key = timestampKey then
        match parseInt val with
        | some n => stripeFields parts (some n) sigs
        | none => .error (.malformed "bad timestamp")
      else if key = digestKey then
        match Hex.decode val with
        | some raw => stripeFields parts ts (sigs ++ [raw])
        | none => .error (.malformed "bad v1 digest")
      else stripeFields parts ts sigs

def stripe : Scheme where
  message signedAt body := stripeMessage signedAt.unix body
  formatHeader signedAt digest :=
    timestampKey ++ equals :: signed signedAt.unix ++ comma ::
      (digestKey ++ equals :: Hex.encode digest)
  parseHeader header :=
    match stripeFields (splitAtSep comma header) none [] with
    | .error e => .error e
    | .ok (some tsUnix, sigs) =>
      if sigs = [] then .error (.malformed "missing t or v1") else .ok (.ofUnix tsUnix, sigs)
    | .ok (none, _) => .error (.malformed "missing t or v1")

/-! ## Signers and verifiers -/

section

variable (hmac : Hmac)

/-- `Sign`, at the time of the signer's clock. -/
def sign (scheme : Scheme) (secret : Bytes) (now : Instant) (body : Bytes) : Bytes :=
  scheme.formatHeader now (hmac secret (scheme.message now body)).bytes

/-- `DefaultTolerance`: five minutes. -/
def defaultTolerance : Int := 5 * 60 * 10 ^ 9

structure Verifier where
  scheme : Scheme
  secrets : List Bytes
  tolerance : Int

/-- `NewVerifier` with the secrets that `WithSecrets` was called with. -/
def newVerifier (scheme : Scheme) (secret : Bytes) (secrets : List Bytes) (tolerance : Int) :
    Verifier where
  scheme := scheme
  secrets := secret :: secrets.filter (· ≠ [])
  tolerance := tolerance

def checkTimestamp (tolerance : Int) (now ts : Instant) : Except Err Unit :=
  let diff := now.sub ts
  -- the negation is one of 64 bits
  let diff := if diff < 0 then wrap64 (-diff) else diff
  if tolerance < diff then .error (.outOfTolerance diff) else .ok ()

/-- `Verify`, at the time of the verifier's clock. -/
def Verifier.verify (v : Verifier) (now : Instant) (header body : Bytes) : Except Err Unit := do
  let (signedAt, sigs) ← v.scheme.parseHeader header
  if !signedAt.isZero && 0 < v.tolerance then
    checkTimestamp v.tolerance now signedAt
  if v.secrets.any fun secret => sigs.any fun sig =>
    (hmac secret (v.scheme.message signedAt body)).bytes == sig then
    .ok ()
  else .error .mismatch

end

end GoAtlas.Hmacsign
