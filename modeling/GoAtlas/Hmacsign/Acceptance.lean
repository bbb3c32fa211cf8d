import GoAtlas.Hmacsign.Scheme
import Mathlib.Algebra.Order.Group.Abs

/-!
# What a verifier accepts

A header is read as its fields: the last timestamp counts, and every digest is tried. From this
follows what an accepted header carries, and that what a signer writes is accepted. The replay
window does not hold for all timestamps: the difference of two instants saturates, and its smallest
value is its own negation.
-/

namespace GoAtlas.Hmacsign

open Lib

/-! ## The fields of a header -/

def fieldsOf (parts : List Bytes) : List (Bytes × Bytes) :=
  parts.filterMap fun part => cut equals (trimSpace part)

def valuesOf (key : Bytes) (parts : List Bytes) : List Bytes :=
  ((fieldsOf parts).filter fun f => f.1 = key).map Prod.snd

def lastTimestamp (header : Bytes) : Option Int :=
  ((valuesOf timestampKey (splitAtSep comma header)).getLast?).bind parseInt

def digests (header : Bytes) : List Bytes :=
  (valuesOf digestKey (splitAtSep comma header)).filterMap Hex.decode

def githubDigest (header : Bytes) : Option Bytes :=
  Hex.decode (trimPrefix (trimSpace header) githubPrefix)

variable {parts : List Bytes}

theorem valuesOf_skip {key part : Bytes} (h : cut equals (trimSpace part) = none) :
    valuesOf key (part :: parts) = valuesOf key parts := by
  simp [valuesOf, fieldsOf, h]

theorem valuesOf_self {key val part : Bytes} (h : cut equals (trimSpace part) = some (key, val)) :
    valuesOf key (part :: parts) = val :: valuesOf key parts := by
  simp [valuesOf, fieldsOf, h]

theorem valuesOf_other {key key' val part : Bytes}
    (h : cut equals (trimSpace part) = some (key', val)) (hne : key' ≠ key) :
    valuesOf key (part :: parts) = valuesOf key parts := by
  simp [valuesOf, fieldsOf, h, hne]

theorem stripeFields_ok {parts sigs sigs' : List Bytes} {ts ts' : Option Int}
    (h : stripeFields parts ts sigs = .ok (ts', sigs')) :
    ts' = ((valuesOf timestampKey parts).getLast?.map parseInt).getD ts ∧
      sigs' = sigs ++ (valuesOf digestKey parts).filterMap Hex.decode := by
  induction parts generalizing ts sigs with
  | nil =>
    cases h
    simp [valuesOf, fieldsOf]
  | cons part parts ih =>
    rw [stripeFields] at h
    split at h
    · rename_i hcut
      rw [valuesOf_skip hcut, valuesOf_skip hcut]
      exact ih h
    · rename_i key val hcut
      split at h
      · rename_i hkey
        subst hkey
        split at h
        · rename_i n hn
          obtain ⟨hts, hsigs⟩ := ih h
          rw [valuesOf_self hcut, valuesOf_other hcut (by decide), List.getLast?_cons]
          refine ⟨?_, hsigs⟩
          rw [hts]
          cases (valuesOf timestampKey parts).getLast? with
          | none => exact hn.symm
          | some last => rfl
        · cases h
      · split at h
        · rename_i hkey
          subst hkey
          split at h
          · rename_i raw hraw
            obtain ⟨hts, hsigs⟩ := ih h
            rw [valuesOf_self hcut, valuesOf_other hcut (by decide)]
            refine ⟨hts, ?_⟩
            rw [hsigs, List.filterMap_cons, hraw, List.append_assoc]
            rfl
          · cases h
        · rename_i hnot hnot'
          rw [valuesOf_other hcut hnot, valuesOf_other hcut hnot']
          exact ih h

variable {signedAt : Instant}

theorem stripe_parse {header : Bytes} {sigs : List Bytes}
    (h : stripe.parseHeader header = .ok (signedAt, sigs)) :
    ∃ t, lastTimestamp header = some t ∧ signedAt = .ofUnix t ∧ sigs = digests header := by
  simp only [stripe] at h
  split at h
  · cases h
  · rename_i t sigs' hfields
    split at h
    · cases h
    · cases h
      obtain ⟨hts, hsigs⟩ := stripeFields_ok hfields
      refine ⟨t, ?_, rfl, hsigs⟩
      unfold lastTimestamp
      cases hlast : (valuesOf timestampKey (splitAtSep comma header)).getLast? with
      | none =>
        rw [hlast] at hts
        cases hts
      | some val =>
        rw [hlast] at hts
        exact hts.symm
  · cases h

theorem github_parse {header : Bytes} {sigs : List Bytes}
    (h : github.parseHeader header = .ok (signedAt, sigs)) :
    ∃ raw, githubDigest header = some raw ∧ signedAt = .zero ∧ sigs = [raw] := by
  simp only [github] at h
  split at h
  · rename_i raw hraw
    split at h
    · cases h
    · cases h
      exact ⟨raw, hraw, rfl, rfl⟩
  · cases h

theorem verify_ok_iff {hmac : Hmac} {v : Verifier} {now : Instant} {header body : Bytes} :
    v.verify hmac now header body = .ok () ↔ ∃ signedAt sigs, v.scheme.parseHeader header =
      .ok (signedAt, sigs) ∧
      (signedAt.isZero = false → 0 < v.tolerance →
      checkTimestamp v.tolerance now signedAt = .ok ()) ∧
      ∃ secret ∈ v.secrets, (hmac secret (v.scheme.message signedAt body)).bytes ∈ sigs := by
  unfold Verifier.verify
  cases hparse : v.scheme.parseHeader header with
  | error e => simp [Bind.bind, Except.bind]
  | ok parsed =>
    obtain ⟨signedAt, sigs⟩ := parsed
    have hany : (v.secrets.any fun secret => sigs.any fun sig =>
        (hmac secret (v.scheme.message signedAt body)).bytes == sig) = true ↔
        ∃ secret ∈ v.secrets, (hmac secret (v.scheme.message signedAt body)).bytes ∈ sigs := by
      simp [List.any_eq_true]
    have hrest : ∀ b : Bool, (if b then Except.ok () else .error Err.mismatch) =
        (.ok () : Except Err Unit) ↔ b = true := by
      decide
    simp only [Bind.bind, Except.bind, Except.ok.injEq, Prod.mk.injEq]
    by_cases hwindow : (!signedAt.isZero && decide (0 < v.tolerance)) = true
    · rw [if_pos hwindow]
      simp only [Bool.and_eq_true, Bool.not_eq_true', decide_eq_true_eq] at hwindow
      cases hcheck : checkTimestamp v.tolerance now signedAt with
      | error e =>
        refine iff_of_false nofun ?_
        rintro ⟨_, _, ⟨rfl, rfl⟩, hok, -⟩
        rw [hok hwindow.1 hwindow.2] at hcheck
        cases hcheck
      | ok u =>
        rw [hrest, hany]
        constructor
        · exact fun h => ⟨signedAt, sigs, ⟨rfl, rfl⟩, fun _ _ => hcheck, h⟩
        · rintro ⟨_, _, ⟨rfl, rfl⟩, -, h⟩
          exact h
    · rw [if_neg hwindow]
      change (if _ then _ else _) = _ ↔ _
      rw [hrest, hany]
      constructor
      · refine fun h => ⟨signedAt, sigs, ⟨rfl, rfl⟩, fun hz htol => ?_, h⟩
        exact absurd (by simp [hz, htol]) hwindow
      · rintro ⟨_, _, ⟨rfl, rfl⟩, -, h⟩
        exact h

/-! ## What a signer writes -/

theorem solid_encode {bs : Bytes} {c : UInt8} (h : c ∈ Hex.encode bs) : Solid c ∧ c ≠ comma := by
  have hall : ∀ d : Fin 16, Solid (Hex.char d) ∧ Hex.char d ≠ comma := by decide
  obtain ⟨d, hd, rfl⟩ := Hex.exists_of_mem_encode h
  exact hall ⟨d, hd⟩

theorem solid_signed {n : Int} {c : UInt8} (h : c ∈ signed n) : Solid c ∧ c ≠ comma ∧ c ≠ dot := by
  rcases mem_signed h with rfl | ⟨hlo, hhi⟩
  · decide
  · have hlo' := UInt8.le_iff_toNat_le.mp hlo
    have hhi' := UInt8.le_iff_toNat_le.mp hhi
    refine ⟨⟨UInt8.le_iff_toNat_le.mpr ?_, UInt8.lt_iff_toNat_lt.mpr ?_⟩, ?_, ?_⟩
    · exact le_trans (by decide) hlo'
    · exact lt_of_le_of_lt hhi' (by decide)
    · rintro rfl
      exact absurd hlo (by decide)
    · rintro rfl
      exact absurd hlo (by decide)

theorem github_parse_sign (digest : Bytes) (hne : digest ≠ []) (signedAt : Instant) :
    github.parseHeader (github.formatHeader signedAt digest) = .ok (.zero, [digest]) := by
  have hsolid : ∀ c ∈ githubPrefix ++ Hex.encode digest, Solid c := by
    intro c hc
    rcases List.mem_append.mp hc with hpre | henc
    · have hall : ∀ c ∈ githubPrefix, Solid c := by decide +kernel
      exact hall c hpre
    · exact (solid_encode henc).1
  simp only [github, trimSpace_of_solid hsolid, trimPrefix, strip_append, Option.getD_some,
    Hex.decode_encode, if_neg hne]

theorem stripe_parse_sign {t : Int} (hlo : -2 ^ 63 ≤ t) (hhi : t < 2 ^ 63)
    (ht : signedAt.unix = t) (digest : Bytes) :
    stripe.parseHeader (stripe.formatHeader signedAt digest) = .ok (.ofUnix t, [digest]) := by
  have hfront : ∀ c ∈ timestampKey ++ equals :: signed t, Solid c ∧ c ≠ comma := by
    intro c hc
    rcases List.mem_append.mp hc with hkey | hrest
    · have hall : ∀ c ∈ timestampKey, Solid c ∧ c ≠ comma := by decide +kernel
      exact hall c hkey
    · rcases List.mem_cons.mp hrest with rfl | hmem
      · decide
      · exact ⟨(solid_signed hmem).1, (solid_signed hmem).2.1⟩
  have hback : ∀ c ∈ digestKey ++ equals :: Hex.encode digest, Solid c ∧ c ≠ comma := by
    intro c hc
    rcases List.mem_append.mp hc with hkey | hrest
    · have hall : ∀ c ∈ digestKey, Solid c ∧ c ≠ comma := by decide +kernel
      exact hall c hkey
    · rcases List.mem_cons.mp hrest with rfl | hmem
      · decide
      · exact solid_encode hmem
  have hsplit : splitAtSep comma (stripe.formatHeader signedAt digest) =
      [timestampKey ++ equals :: signed t, digestKey ++ equals :: Hex.encode digest] := by
    simp only [stripe, ht]
    rw [splitAtSep_append, splitAtSep_of_not_mem fun hmem => (hfront comma hmem).2 rfl,
      splitAtSep_of_not_mem fun hmem => (hback comma hmem).2 rfl]
    rfl
  have hcut : cut equals (trimSpace (timestampKey ++ equals :: signed t)) =
      some (timestampKey, signed t) := by
    rw [trimSpace_of_solid fun c hc => (hfront c hc).1]
    exact cut_append (by decide) _
  have hcut' : cut equals (trimSpace (digestKey ++ equals :: Hex.encode digest)) =
      some (digestKey, Hex.encode digest) := by
    rw [trimSpace_of_solid fun c hc => (hback c hc).1]
    exact cut_append (by decide) _
  have hfields : stripeFields (splitAtSep comma (stripe.formatHeader signedAt digest)) none [] =
      .ok (some t, [digest]) := by
    have hne : digestKey ≠ timestampKey := by decide
    simp only [hsplit, stripeFields, hcut, hcut', if_true, parseInt_signed hlo hhi, if_neg hne,
      Hex.decode_encode, List.nil_append]
  simp only [stripe] at hfields ⊢
  rw [hfields]
  rfl

theorem lastTimestamp_range {header : Bytes} {t : Int} (h : lastTimestamp header = some t) :
    -2 ^ 63 ≤ t ∧ t < 2 ^ 63 := by
  obtain ⟨val, -, hval⟩ := Option.bind_eq_some_iff.mp h
  exact parseInt_range hval


theorem lastTimestamp_sign {t : Int} (hlo : -2 ^ 63 ≤ t) (hhi : t < 2 ^ 63)
    (ht : signedAt.unix = t) (digest : Bytes) :
    lastTimestamp (stripe.formatHeader signedAt digest) = some t := by
  obtain ⟨t', hlast, heq, -⟩ := stripe_parse (stripe_parse_sign hlo hhi ht digest)
  obtain ⟨hlo', hhi'⟩ := lastTimestamp_range hlast
  rw [hlast, ← Instant.unix_ofUnix hlo hhi, heq, Instant.unix_ofUnix hlo' hhi']

theorem stripeMessage_inj {t t' : Int} {body body' : Bytes}
    (h : stripeMessage t body = stripeMessage t' body') :
    t = t' ∧ body = body' := by
  have hdot : ∀ n : Int, dot ∉ signed n := fun n hmem => (solid_signed hmem).2.2 rfl
  obtain ⟨hsigned, hbody⟩ := cut_inj (hdot t) (hdot t') h
  exact ⟨signed_inj hsigned, hbody⟩

/-! ## The replay window -/

def age (now : Instant) (t : Int) : Int := now.unixNanos - t * 10 ^ 9

def ThisCentury (now : Instant) : Prop :=
  unixToInternal ≤ now.sec ∧ now.sec < unixToInternal + 4133980800

/-- The instant is as far as 64 bits of nanoseconds reach, or farther, after the clock. -/
def FarFuture (now : Instant) (t : Int) : Prop :=
  age now t ≤ minDuration ∧ t + unixToInternal < 2 ^ 63

/-- The difference that the verifier computes: it saturates, and behind the end of the 64 bits the
timestamp is taken for one long past. -/
theorem sub_ofUnix {t : Int} {now : Instant} (hnow : ThisCentury now) (hlo : -2 ^ 63 ≤ t)
    (hhi : t < 2 ^ 63) :
    now.sub (.ofUnix t) =
      if t + unixToInternal < 2 ^ 63 then max minDuration (min maxDuration (age now t))
        else maxDuration := by
  have hnsec := now.nsec_lt
  obtain ⟨hfrom, hto⟩ := hnow
  by_cases hwrap : t + unixToInternal < 2 ^ 63
  · rw [if_pos hwrap]
    have hsec : (Instant.ofUnix t).nanos = (t + unixToInternal) * 10 ^ 9 := by
      simp only [Instant.nanos, Instant.ofUnix]
      rw [wrap64_of_range (by simp only [unixToInternal]; omega) hwrap]
      simp
    have hage : now.nanos - (Instant.ofUnix t).nanos = age now t := by
      rw [hsec]
      simp only [age, Instant.unixNanos, unixToInternal]
      omega
    rw [Instant.sub, hage]
  · rw [if_neg hwrap]
    have hsec : (Instant.ofUnix t).nanos = (t + unixToInternal - 2 ^ 64) * 10 ^ 9 := by
      simp only [Instant.nanos, Instant.ofUnix]
      rw [wrap64_of_ge (by omega) (by simp only [unixToInternal]; omega)]
      simp
    have hlarge : maxDuration ≤ now.nanos - (Instant.ofUnix t).nanos := by
      rw [hsec]
      simp only [maxDuration, Instant.nanos, unixToInternal] at hfrom hto ⊢
      omega
    rw [Instant.sub, min_eq_left hlarge]
    decide

theorem saturated_abs (a : Int) :
    (if max minDuration (min maxDuration a) < 0 then wrap64 (-max minDuration (min maxDuration a))
      else max minDuration (min maxDuration a)) = if a ≤ minDuration then minDuration
        else min maxDuration |a| := by
  have hmin : minDuration = -2 ^ 63 := rfl
  have hmax : maxDuration = 2 ^ 63 - 1 := rfl
  obtain ⟨d, hd⟩ : ∃ d, d = max minDuration (min maxDuration a) := ⟨_, rfl⟩
  rw [← hd]
  rcases lt_or_ge a 0 with hneg | hpos
  · rw [if_pos (by omega), abs_of_neg hneg]
    rcases le_or_gt a minDuration with hfar | hnear
    · have hd' : d = minDuration := by omega
      rw [if_pos hfar, hd']
      decide
    · rw [if_neg (by omega), wrap64_of_range (by omega) (by omega)]
      omega
  · rw [if_neg (by omega), if_neg (by omega), abs_of_nonneg hpos]
    omega

theorem checkTimestamp_ok_iff {tolerance t : Int} {now : Instant} (hnow : ThisCentury now)
    (htol : 0 < tolerance) (hmax : tolerance ≤ maxDuration) (hlo : -2 ^ 63 ≤ t) (hhi : t < 2 ^ 63) :
    checkTimestamp tolerance now (.ofUnix t) = .ok () ↔
      |age now t| ≤ tolerance ∨ tolerance = maxDuration ∨ FarFuture now t := by
  have hok : ∀ d : Int, (if tolerance < d then Except.error (Err.outOfTolerance d) else .ok ()) =
      .ok () ↔ d ≤ tolerance := by
    intro d
    split
    · exact iff_of_false nofun (by omega)
    · exact iff_of_true rfl (by omega)
  have hnsec := now.nsec_lt
  unfold checkTimestamp
  rw [hok, sub_ofUnix hnow hlo hhi]
  by_cases hwrap : t + unixToInternal < 2 ^ 63
  · rw [if_pos hwrap]
    simp only [FarFuture, hwrap, and_true]
    rw [saturated_abs]
    split
    · rename_i hfar
      exact iff_of_true (le_trans (by decide) htol.le) (.inr (.inr hfar))
    · rename_i hnear
      simp only [hnear, or_false, maxDuration] at hmax ⊢
      omega
  · -- taken for an instant long past
    rw [if_neg hwrap, if_neg (by decide)]
    have hfar : ¬ |age now t| ≤ tolerance := by
      rw [abs_le]
      obtain ⟨hfrom, hto⟩ := hnow
      simp only [age, Instant.unixNanos, Instant.nanos, unixToInternal, maxDuration]
        at hfrom hto hmax hwrap ⊢
      omega
    simp only [FarFuture, hwrap, and_false, hfar, or_false, false_or]
    omega

/-! ## Acceptance -/

section

variable {hmac : Hmac} {secret : Bytes} {secrets : List Bytes} {tolerance : Int} {now : Instant}
    {header body : Bytes}

theorem stripe_message_ofUnix {t : Int} (hlo : -2 ^ 63 ≤ t) (hhi : t < 2 ^ 63) (body : Bytes) :
    stripe.message (.ofUnix t) body = stripeMessage t body :=
  congrArg (fun t => stripeMessage t body) (Instant.unix_ofUnix hlo hhi)

/-- What a signer writes is accepted, unless its timestamp is checked and found too old. -/
theorem stripe_verify_sign {key : Bytes} {signedAt : Instant}
    (hkey : key ∈ (newVerifier stripe secret secrets tolerance).secrets)
    (hcheck : (Instant.ofUnix signedAt.unix).isZero = false → 0 < tolerance →
      checkTimestamp tolerance now (.ofUnix signedAt.unix) = .ok ()) :
    (newVerifier stripe secret secrets tolerance).verify hmac now
    (sign hmac stripe key signedAt body) body = .ok () := by
  obtain ⟨hlo, hhi⟩ := signedAt.unix_range
  refine verify_ok_iff.mpr ⟨_, _, stripe_parse_sign hlo hhi rfl _, hcheck, key, hkey, ?_⟩
  change (hmac key (stripe.message _ body)).bytes ∈ _
  rw [stripe_message_ofUnix hlo hhi]
  exact List.mem_singleton_self _

structure Guarantees (tolerance : Int) (now : Instant) : Prop where
  authenticGithub : ∀ hmac secret secrets header body,
    (newVerifier github secret secrets tolerance).verify hmac now header body = .ok () →
      ∃ key ∈ (newVerifier github secret secrets tolerance).secrets, githubDigest header =
      some (hmac key body).bytes
  authenticStripe : ∀ hmac secret secrets header body,
    (newVerifier stripe secret secrets tolerance).verify hmac now header body = .ok () →
      ∃ t, lastTimestamp header = some t ∧
      ∃ key ∈ (newVerifier stripe secret secrets tolerance).secrets,
        (hmac key (stripeMessage t body)).bytes ∈ digests header
  message : ∀ t t' body body', stripeMessage t body = stripeMessage t' body' → t = t' ∧ body = body'
  signedGithub : ∀ hmac secret secrets body signedAt,
    ∀ key ∈ (newVerifier github secret secrets tolerance).secrets,
    (newVerifier github secret secrets tolerance).verify hmac now
      (sign hmac github key signedAt body) body = .ok ()
  signedStripe : ∀ hmac secret secrets body signedAt,
    ∀ key ∈ (newVerifier stripe secret secrets tolerance).secrets,
    tolerance = 0 ∨ |age now signedAt.unix| ≤ tolerance →
    (newVerifier stripe secret secrets tolerance).verify hmac now
      (sign hmac stripe key signedAt body) body = .ok ()

theorem guarantees (hnow : ThisCentury now) (hmax : tolerance ≤ maxDuration) :
    Guarantees tolerance now where
  authenticGithub hmac secret secrets header body h := by
    obtain ⟨signedAt, sigs, hparse, -, key, hkey, hmem⟩ := verify_ok_iff.mp h
    obtain ⟨raw, hraw, -, rfl⟩ := github_parse hparse
    exact ⟨key, hkey, hraw.trans (congrArg some (List.mem_singleton.mp hmem).symm)⟩
  authenticStripe hmac secret secrets header body h := by
    obtain ⟨signedAt, sigs, hparse, -, key, hkey, hmem⟩ := verify_ok_iff.mp h
    obtain ⟨t, ht, rfl, rfl⟩ := stripe_parse hparse
    obtain ⟨hlo, hhi⟩ := lastTimestamp_range ht
    change (hmac key (stripe.message _ body)).bytes ∈ _ at hmem
    rw [stripe_message_ofUnix hlo hhi] at hmem
    exact ⟨t, ht, key, hkey, hmem⟩
  message _ _ _ _ h := stripeMessage_inj h
  signedGithub hmac secret secrets body signedAt key hkey := by
    have hne : (hmac key body).bytes ≠ [] := by
      intro hnil
      have hsize := (hmac key body).size
      rw [hnil] at hsize
      cases hsize
    refine verify_ok_iff.mpr ⟨_, _, github_parse_sign _ hne signedAt, nofun, key, hkey, ?_⟩
    exact List.mem_singleton_self _
  signedStripe hmac secret secrets body signedAt key hkey hage := by
    refine stripe_verify_sign hkey fun _ hpos => ?_
    obtain ⟨hlo, hhi⟩ := signedAt.unix_range
    refine (checkTimestamp_ok_iff hnow hpos hmax hlo hhi).mpr (.inl ?_)
    exact hage.resolve_left hpos.ne'

/-- No header with this last timestamp is accepted outside of the tolerance. -/
def Windowed (tolerance : Int) (now : Instant) (t : Int) : Prop :=
  ∀ hmac secret secrets header body, lastTimestamp header = some t →
    (newVerifier stripe secret secrets tolerance).verify hmac now header body = .ok () →
    |age now t| ≤ tolerance

/-- The timestamp is within the tolerance, or it is compared and found to be outside. -/
def Compared (tolerance : Int) (now : Instant) (t : Int) : Prop :=
  |age now t| ≤ tolerance ∨ t ≠ -unixToInternal ∧ tolerance < maxDuration ∧ ¬ FarFuture now t

private def zeros : Digest := ⟨List.replicate 32 0, rfl⟩

theorem windowed_iff (hnow : ThisCentury now) (hpos : 0 < tolerance)
    (hmax : tolerance ≤ maxDuration) {t : Int} (hlo : -2 ^ 63 ≤ t) (hhi : t < 2 ^ 63) :
    Windowed tolerance now t ↔ Compared tolerance now t := by
  constructor
  · -- otherwise what a signer writes at this time is accepted
    intro hwindow
    by_contra hnot
    obtain ⟨hage, hrest⟩ := not_or.mp hnot
    have hunix : (Instant.ofUnix t).unix = t := Instant.unix_ofUnix hlo hhi
    refine hage (hwindow (fun _ _ => zeros) [] [] _ []
      (lastTimestamp_sign hlo hhi hunix zeros.bytes) ?_)
    refine stripe_verify_sign List.mem_cons_self fun hzero _ => ?_
    rw [hunix] at hzero ⊢
    refine (checkTimestamp_ok_iff hnow hpos hmax hlo hhi).mpr (.inr ?_)
    by_contra hno
    obtain ⟨htol, hfar⟩ := not_or.mp hno
    refine hrest ⟨fun ht => ?_, lt_of_le_of_ne hmax htol, hfar⟩
    rw [(Instant.isZero_ofUnix hlo hhi).mpr ht] at hzero
    cases hzero
  · rintro (hage | ⟨hzero, htol, hfar⟩)
    · exact fun _ _ _ _ _ _ _ => hage
    · intro hmac secret secrets header body ht h
      obtain ⟨signedAt, sigs, hparse, hcheck, -⟩ := verify_ok_iff.mp h
      obtain ⟨t', ht', rfl, -⟩ := stripe_parse hparse
      cases ht.symm.trans ht'
      have hnotzero : (Instant.ofUnix t).isZero = false := by
        rw [← Bool.not_eq_true, Instant.isZero_ofUnix hlo hhi]
        exact hzero
      rcases (checkTimestamp_ok_iff hnow hpos hmax hlo hhi).mp (hcheck hnotzero hpos)
        with hage | heq | hfuture
      · exact hage
      · exact absurd heq htol.ne
      · exact absurd hfuture hfar

end

/-- For a clock in the years 1970 to 2100 and a tolerance of 64 bits: an accepted header is
authentic, the Stripe message determines what was signed, what a signer writes is accepted within
the tolerance; and the replay window holds for exactly those timestamps that are really compared. -/
theorem verify_window (tolerance : Int) (hmax : tolerance ≤ maxDuration) (now : Instant)
    (hnow : ThisCentury now) :
    Guarantees tolerance now ∧
    ∀ t, 0 < tolerance → -2 ^ 63 ≤ t → t < 2 ^ 63 →
      (Windowed tolerance now t ↔ Compared tolerance now t) :=
  ⟨guarantees hnow hmax, fun _ hpos hlo hhi => windowed_iff hnow hpos hmax hlo hhi⟩

private def sample : Instant := ⟨unixToInternal + 1700000000, 500, by decide⟩

theorem verify_window_default :
    Guarantees defaultTolerance sample ∧ Windowed defaultTolerance sample 1600000000 := by
  obtain ⟨hguarantees, hwindow⟩ :=
    verify_window defaultTolerance (by decide) sample ⟨by decide, by decide⟩
  refine ⟨hguarantees, (hwindow 1600000000 (by decide) (by decide) (by decide)).mpr
    (.inr ⟨by decide, by decide, ?_⟩)⟩
  exact fun hfar => absurd hfar.1 (by decide)

/-- Headers are accepted with a timestamp of the year 5138 and with the one of the zero instant. -/
theorem verify_accepts_far :
    let far := stripe.formatHeader (.ofUnix 99999999999) zeros.bytes
    let first := stripe.formatHeader .zero zeros.bytes
    (newVerifier stripe [1] [] defaultTolerance).verify (fun _ _ => zeros) sample far [2] = .ok () ∧
      lastTimestamp far = some 99999999999 ∧ defaultTolerance < -age sample 99999999999 ∧
    (newVerifier stripe [1] [] defaultTolerance).verify (fun _ _ => zeros) sample first
      [2] = .ok () ∧
      lastTimestamp first = some (-62135596800) ∧ defaultTolerance < age sample (-62135596800) := by
  decide +kernel

end GoAtlas.Hmacsign
