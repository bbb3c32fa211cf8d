import GoAtlas.Lib.Split
import GoAtlas.Lib.Trim

/-!
# The client address extractor

Which address `Extract` reports for a peer and the headers of its request. The address parser of the
standard library and the cache of parsed addresses are parameters; the state of the cache is passed
along.
-/

namespace GoAtlas.Clientip

open Lib

/-- A valid `netip.Addr`; the zero one is `none`. -/
inductive IP where
  | v4 (n : BitVec 32)
  | v6 (n : BitVec 128) (zone : Bytes)
  deriving DecidableEq

namespace IP

/-- `Unmap`: an IPv4-mapped address as the IPv4 address it carries. -/
def unmap : IP → IP
  | .v4 n => .v4 n
  | .v6 n zone => if n.toNat / 2 ^ 32 = 0xffff then .v4 (BitVec.ofNat 32 n.toNat) else .v6 n zone

def withoutZone : IP → IP
  | .v4 n => .v4 n
  | .v6 n _ => .v6 n []

end IP

structure Prefix where
  addr : IP
  bits : Nat

/-- The leading bits agree; a zoned address is in no prefix. -/
def Prefix.contains (p : Prefix) (ip : IP) : Bool :=
  match p.addr, ip with
  | .v4 a, .v4 b => p.bits ≤ 32 && a.toNat / 2 ^ (32 - p.bits) == b.toNat / 2 ^ (32 - p.bits)
  | .v6 a _, .v6 b [] =>
    p.bits ≤ 128 && a.toNat / 2 ^ (128 - p.bits) == b.toNat / 2 ^ (128 - p.bits)
  | _, _ => false

theorem Prefix.contains_cases {p : Prefix} {a : IP} (h : p.contains a = true) :
    (∃ x n, p.addr = .v4 x ∧ a = .v4 n ∧ p.bits ≤ 32 ∧ x.toNat / 2 ^ (32 - p.bits) =
    n.toNat / 2 ^ (32 - p.bits)) ∨
    ∃ x z n, p.addr = .v6 x z ∧ a = .v6 n [] ∧ p.bits ≤ 128 ∧
      x.toNat / 2 ^ (128 - p.bits) = n.toNat / 2 ^ (128 - p.bits) := by
  unfold Prefix.contains at h
  split at h
  · rename_i x n hx
    rw [Bool.and_eq_true, decide_eq_true_eq, beq_iff_eq] at h
    exact .inl ⟨x, n, hx, rfl, h⟩
  · rename_i x z n hx
    rw [Bool.and_eq_true, decide_eq_true_eq, beq_iff_eq] at h
    exact .inr ⟨x, z, n, hx, rfl, h⟩
  · cases h

def inList (ip : IP) (ps : List Prefix) : Bool := ps.any fun p => p.contains ip

/-- `netip.PrefixFrom(addr, addr.BitLen())`. -/
def hostPrefix : IP → Prefix
  | .v4 n => ⟨.v4 n, 32⟩
  | .v6 n _ => ⟨.v6 n [], 128⟩

/-- The loop of `ParsePrefixes`, over what `netip.ParsePrefix` and `netip.ParseAddr` make of a
text. -/
def parsePrefixes (parsePrefix : String → Option Prefix) (parseAddr : String → Option IP)
    (strs : List String) : Option (List Prefix) :=
  strs.mapM fun s => (parsePrefix s).or ((parseAddr s).map hostPrefix)

def p4 (a b c d bits : Nat) : Prefix :=
  ⟨.v4 (BitVec.ofNat 32 (((a * 256 + b) * 256 + c) * 256 + d)), bits⟩

def p6 (a b c bits : Nat) : Prefix :=
  ⟨.v6 (BitVec.ofNat 128 (((a * 2 ^ 16 + b) * 2 ^ 16 + c) * 2 ^ 80)) [], bits⟩

def privateAndLocalRanges : List Prefix :=
  [p4 10 0 0 0 8, p4 172 16 0 0 12, p4 192 168 0 0 16, p4 127 0 0 0 8, p4 0 0 0 0 8,
    p4 169 254 0 0 16, p4 192 0 0 0 24, p4 192 0 2 0 24, p4 198 51 100 0 24, p4 203 0 113 0 24,
    p4 192 88 99 0 24,
    p4 198 18 0 0 15, p4 224 0 0 0 4, p4 240 0 0 0 4, p4 255 255 255 255 32, p4 100 64 0 0 10,
    p6 0 0 0 128, ⟨.v6 1 [], 128⟩, p6 0x100 0 0 64, p6 0x2001 0 0 23, p6 0x2001 2 0 48,
      p6 0x2001 0xdb8 0 32,
    p6 0x2001 0 0 32, p6 0xfc00 0 0 7, p6 0xfe80 0 0 10, p6 0xff00 0 0 8, p6 0x2002 0 0 16]

def isPrivate (ip : IP) : Bool := inList ip.unmap.withoutZone privateAndLocalRanges

def isTrusted (ip : IP) (trusted : List Prefix) : Bool := inList ip trusted

def maxIPsPerHeader : Nat := 10

def maxIPLength : Nat := 45

def maxTotalIPs : Nat := 50

structure Options where
  trustedPeers : List Prefix
  trustedProxies : List Prefix
  trustedProxiesCount : Nat
  headers : List String
  headersEnabled : Bool
  cacheSize : Nat
  cacheDisabled : Bool
  trustPrivatePeers : Bool

structure Extractor where
  opts : Options
  cache : Option Nat

/-- Mapped IPv4 prefixes in the form addresses are checked in. -/
def Prefix.normalize (p : Prefix) : Prefix :=
  if p.addr ≠ p.addr.unmap ∧ 96 ≤ p.bits then ⟨p.addr.unmap, p.bits - 96⟩ else p

def newExtractor (opts : Options) : Extractor where
  opts := { opts with
    trustedPeers := opts.trustedPeers.map Prefix.normalize
    trustedProxies := opts.trustedProxies.map Prefix.normalize }
  cache := if !opts.cacheDisabled && 0 < opts.cacheSize then some opts.cacheSize else none

/-! ## Headers -/

/-- `strings.LastIndexByte`. -/
def lastIndexByte (s : Bytes) (b : UInt8) : Option Nat :=
  (s.reverse.findIdx? (· == b)).map fun i => s.length - 1 - i

/-- An entry as it is kept: an empty or overlong one as an empty placeholder. -/
def cleanEntry (s : Bytes) : Bytes :=
  let trimmed := trimSpace s
  if trimmed ≠ [] ∧ trimmed.length ≤ maxIPLength then trimmed else []

/-- The loop over one line: entries from its right end while there is room. -/
def lineEntries : Nat → Bytes → List Bytes → List Bytes × Nat
  | 0, _, ips => (ips, 0)
  | room + 1, value, ips =>
    match lastIndexByte value comma with
    | some i => lineEntries room (value.take i) (ips ++ [cleanEntry (value.drop (i + 1))])
    | none => (ips ++ [cleanEntry value], room)

def forwardedForIPs (values : List Bytes) : List Bytes :=
  (values.reverse.foldl
    (fun (ips, room) value => if room = 0 then (ips, room) else lineEntries room value ips)
    ([], maxIPsPerHeader)).1.reverse

def collectIPs : List Bytes → List Bytes → List Bytes
  | [], ips => ips
  | part :: parts, ips =>
    let trimmed := trimSpace part
    if trimmed ≠ [] ∧ trimmed.length ≤ maxIPLength then
      if maxIPsPerHeader ≤ (ips ++ [trimmed]).length then ips ++ [trimmed]
      else collectIPs parts (ips ++ [trimmed])
    else collectIPs parts ips

def headerIPs : List Bytes → List Bytes → List Bytes
  | [], ips => ips
  | value :: values, ips =>
    if maxIPLength * maxIPsPerHeader * 2 < value.length then headerIPs values ips
    else
      let ips := collectIPs (splitAtSep comma value) ips
      if maxIPsPerHeader ≤ ips.length then ips else headerIPs values ips

/-- Header names fold ASCII case only: no letter of this one has another form. -/
def isForwardedFor (header : String) : Bool := header.toLower == "x-forwarded-for"

def getIPsFromHeader (header : String) (values : List Bytes) : List Bytes :=
  if isForwardedFor header then forwardedForIPs values else headerIPs values []

/-! ## The cache -/

/-- The cache of a library behind `lru.Cacher`, and what is assumed of it: it may drop entries, and
what it gives for a key has been put for that key. -/
structure Cacher (σ : Type) where
  newCache : Nat → σ
  get : σ → Bytes → Option IP × σ
  put : σ → Bytes → IP → σ
  get_newCache (size : Nat) (key : Bytes) : (get (newCache size) key).1 = none
  get_get (c : σ) (key key' : Bytes) (addr : IP) :
    (get (get c key).2 key').1 = some addr → (get c key').1 = some addr
  get_put (c : σ) (key key' : Bytes) (addr addr' : IP) : (get (put c key addr) key').1 =
    some addr' →
    key' = key ∧ addr' = addr ∨ (get c key').1 = some addr'

namespace Extractor

variable {σ : Type} (lru : Cacher σ) (parse : Bytes → Option IP) (e : Extractor)

def get : Option σ → Bytes → Option IP × Option σ
  | none, _ => (none, none)
  | some c, ip => ((lru.get c ip).1, some (lru.get c ip).2)

def put (c : Option σ) (ip : Bytes) (addr : IP) : Option σ := c.map fun c => lru.put c ip addr

/-! ## Extraction -/

def parseAddr (ip : Bytes) : Option IP := (parse ip).map IP.unmap

def parseAndCheckIP (c : Option σ) (ip : Bytes) : Option IP × Option σ :=
  match get lru c ip with
  | (some addr, c) => (if isPrivate addr then none else some addr, c)
  | (none, c) =>
    match parseAddr parse ip with
    | none => (none, c)
    | some addr => (if isPrivate addr then none else some addr, put lru c ip addr)

/-- The loop of `parseXForwardedForHeader` from the right; the entries come in that order. -/
def scanForwardedFor : List Bytes → Option σ → Option IP × Option σ
  | [], c => (none, c)
  | ip :: ips, c =>
    if maxIPLength < ip.length then scanForwardedFor ips c
    else
      match get lru c ip with
      | (some addr, c) =>
        if !isTrusted addr e.opts.trustedProxies && !isPrivate addr then (some addr, c)
        else scanForwardedFor ips c
      | (none, c) =>
        match parseAddr parse ip with
        | none => scanForwardedFor ips c
        | some addr =>
          if isTrusted addr e.opts.trustedProxies || isPrivate addr then
            scanForwardedFor ips (put lru c ip addr)
          else (some addr, put lru c ip addr)

def parseXForwardedForHeader (c : Option σ) (ips : List Bytes) : Option IP × Option σ :=
  if 0 < e.opts.trustedProxiesCount then
    if ips.length ≤ e.opts.trustedProxiesCount then (none, c)
    else
      match ips[ips.length - e.opts.trustedProxiesCount - 1]? with
      | some ip =>
        match parseAddr parse ip with
        | some addr => (if isPrivate addr then none else some addr, c)
        | none => (none, c)
      | none => (none, c)
  else e.scanForwardedFor lru parse ips.reverse c

/-- The entries of another header, with the number of entries processed so far. -/
def checkIPs : List Bytes → Nat → Option σ → Option IP × Nat × Option σ
  | [], total, c => (none, total, c)
  | ip :: ips, total, c =>
    if maxTotalIPs ≤ total then (none, total, c)
    else
      match parseAndCheckIP lru parse c ip with
      | (some addr, c) => (some addr, total + 1, c)
      | (none, c) => checkIPs ips (total + 1) c

def walkHeaders (peer : Option IP) (headers : String → List Bytes) :
    List String → Nat → Option σ → Option IP × Option σ
  | [], _, c => (peer, c)
  | header :: rest, total, c =>
    if maxTotalIPs ≤ total then (peer, c)
    else
      match getIPsFromHeader header (headers header) with
      | [] => walkHeaders peer headers rest total c
      | ip :: ips =>
        if isForwardedFor header then
          match e.parseXForwardedForHeader lru parse c (ip :: ips) with
          | (some addr, c) => (some addr, c)
          | (none, c) =>
            if 0 < e.opts.trustedProxiesCount then (peer, c)
            else walkHeaders peer headers rest (total + (ip :: ips).length) c
        else
          match checkIPs lru parse (ip :: ips) total c with
          | (some addr, _, c) => (some addr, c)
          | (none, total, c) => walkHeaders peer headers rest total c

def peerTrusted (peer : Option IP) : Bool :=
  match peer.map IP.unmap with
  | none => false
  | some peer =>
    isTrusted peer e.opts.trustedPeers || isTrusted peer e.opts.trustedProxies ||
      e.opts.trustPrivatePeers && isPrivate peer

def extract (peer : Option IP) (headers : String → List Bytes) (c : Option σ) :
    Option IP × Option σ :=
  if !e.peerTrusted peer then (peer, c)
  else if !e.opts.headersEnabled then (peer, c)
  else e.walkHeaders lru parse peer headers e.opts.headers 0 c

/-- The cache after calls of `Extract`, from the new one. -/
def cacheAfter (calls : List (Option IP × (String → List Bytes))) : Option σ :=
  calls.foldl (fun c (peer, headers) => (e.extract lru parse peer headers c).2)
    (e.cache.map lru.newCache)

end Extractor

end GoAtlas.Clientip
