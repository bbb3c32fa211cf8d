import GoAtlas.Lib.Assoc
import GoAtlas.Lib.Framing
import GoAtlas.Lib.Machine
import Mathlib.Logic.Function.Basic

/-!
# Verification keys of subjects

`auth/selfjwt`: a verifier finds the key of a token's subject and key id in a cache, and asks the
key provider on a miss. Concurrent misses share one lookup, which runs on when its callers have
gone. An invalidation deletes cached keys and advances the generation of the cache. A resolution is
cut at every use of the cache, of the clock, of the shared lookups and of the provider.

Some fields only take notes. The invalidations are listed in their order, so the generation is their
number; an operation notes how many there were when it started, a lookup of the provider when it was
sent, and an entry when it was stored.
-/

namespace GoAtlas.Selfjwt

open Lib

/-! ## The cache -/

structure CacheKey where
  subject : Bytes
  kid : Bytes
  deriving DecidableEq

structure CacheEntry (K : Type) where
  key : K
  expires : Int
  /-- The time when the entry was put into the cache. -/
  stored : Int
  deriving DecidableEq

abbrev Items (K : Type) := List (CacheKey × CacheEntry K)

structure Config where
  ttl : Int
  /-- No cap where it is not positive. -/
  maxEntries : Int

section Cache

variable {K : Type}

/-- The second loop of `evictLocked`: delete in the given order until a slot is free. -/
def evictLoop (maxEntries : Int) : List CacheKey → Items K → Items K
  | [], items => items
  | k :: order, items =>
    if items.length < maxEntries then items else evictLoop maxEntries order
      (items.filter fun e => e.1 ≠ k)

def evictLocked (maxEntries now : Int) (order : List CacheKey) (items : Items K) : Items K :=
  evictLoop maxEntries order (items.filter fun e => now < e.2.expires)

/-- The locked part of `putIfGeneration`, after the generations were compared. -/
def putLocked (cfg : Config) (k : CacheKey) (key : K) (now clock : Int) (order : List CacheKey)
    (items : Items K) : Items K :=
  let items :=
    if 0 < cfg.maxEntries ∧ cfg.maxEntries ≤ items.length then
      evictLocked cfg.maxEntries now order items
    else items
  (k, ⟨key, now + cfg.ttl, clock⟩) :: items.filter fun e => e.1 ≠ k

/-- A map is ranged over in any order, but completely. -/
def Ranges (order : List CacheKey) (items : Items K) : Prop := ∀ e ∈ items, e.1 ∈ order

instance (order : List CacheKey) (items : Items K) : Decidable (Ranges order items) :=
  inferInstanceAs (Decidable (∀ e ∈ items, e.1 ∈ order))

end Cache

def flightKey (k : CacheKey) (gen : Nat) : Bytes := frame k.subject ++ (frame k.kid ++ decimal gen)

theorem flightKey_inj {k k' : CacheKey} {gen gen' : Nat} (h : flightKey k gen = flightKey k' gen') :
    k = k' ∧ gen = gen' := by
  obtain ⟨hsubject, hrest⟩ := frame_append_inj h
  obtain ⟨hkid, hgen⟩ := frame_append_inj hrest
  cases k
  cases k'
  cases hsubject
  cases hkid
  exact ⟨rfl, decimal_inj hgen⟩

/-! ## The state -/

inductive Invalidation where
  | key (k : CacheKey)
  | subject (subject : Bytes)
  deriving DecidableEq

def Invalidation.covers : Invalidation → CacheKey → Bool
  | .key k, k' => k = k'
  | .subject name, k => name = k.subject

structure Lookup (K : Type) where
  of : CacheKey
  key : K
  sent : Nat
  deriving DecidableEq

inductive Source (K : Type) where
  /-- The entry passed its check at the time `used`. -/
  | cache (entry : CacheEntry K) (used : Int)
  | provider (key : K)
  deriving DecidableEq

def Source.key {K : Type} : Source K → K
  | .cache entry _ => entry.key
  | .provider key => key

/-- The function of a shared lookup. -/
inductive Flight (K : Type) where
  | get
  | check (entry : CacheEntry K)
  | send
  | lookup (sent : Nat)
  | put (key : K)
  | locked (key : K) (now : Int)
  | returned (source : Option (Source K))
  /-- The group has forgotten the call, and its callers get the result. -/
  | done (source : Option (Source K))
  deriving DecidableEq

structure Call (K : Type) where
  of : CacheKey
  gen : Nat
  flight : Flight K
  deriving DecidableEq

/-- `publicKey`. -/
inductive Stage (K : Type) where
  | get
  | check (entry : CacheEntry K)
  | generation
  | share (gen : Nat)
  | wait (gen call : Nat)
  | done (source : Option (Source K))
  deriving DecidableEq

/-- A resolution of the key of `of`, started after `since` invalidations. -/
structure Resolution (K : Type) where
  of : CacheKey
  since : Nat
  stage : Stage K
  deriving DecidableEq

structure Sys (K : Type) where
  clock : Int
  items : Items K
  invalidations : List Invalidation
  lookups : List (Lookup K)
  group : Bytes → Option Nat
  calls : Nat → Option (Call K)
  nextCall : Nat
  ops : Nat → Option (Resolution K)

section Steps

variable {K : Type}

abbrev Sys.gen (s : Sys K) : Nat := s.invalidations.length

inductive Move where
  | step
  /-- The context of the caller is done. -/
  | cancel

inductive FlightMove (K : Type) where
  | step
  | answer (key : Option K)
  /-- The locked part of a put, with the order in which the map is ranged over. -/
  | put (order : List CacheKey)
  | finish

inductive Action (K : Type) where
  | tick (elapsed : Nat)
  | invalidate (i : Invalidation)
  | start (p : Nat) (k : CacheKey)
  | op (p : Nat) (m : Move)
  | call (c : Nat) (m : FlightMove K)

/-- `get`: the entry is read under the lock, the clock after it. -/
def Sys.use (s : Sys K) (entry : CacheEntry K) : Option (Source K) :=
  if s.clock < entry.expires then some (.cache entry s.clock) else none

def Sys.move (s : Sys K) (k : CacheKey) : Stage K → Move → Option (Sys K × Stage K)
  | .get, .step =>
    match s.items.lookup k with
    | some entry => some (s, .check entry)
    | none => some (s, .generation)
  | .check entry, .step =>
    match s.use entry with
    | some source => some (s, .done (some source))
    | none => some (s, .generation)
  | .generation, .step => some (s, .share s.gen)
  | .share gen, .step =>
    match s.group (flightKey k gen) with
    | some c => some (s, .wait gen c)
    | none =>
      some ({ s with
          group := Function.update s.group (flightKey k gen) (some s.nextCall)
          calls := Function.update s.calls s.nextCall (some ⟨k, gen, .get⟩)
          nextCall := s.nextCall + 1 },
        .wait gen s.nextCall)
  | .wait _ c, .step =>
    match s.calls c with
    | some ⟨_, _, .done source⟩ => some (s, .done source)
    | _ => none
  | .wait _ _, .cancel => some (s, .done none)
  | _, _ => none

def Sys.callMove (cfg : Config) (s : Sys K) (call : Call K) :
    Flight K → FlightMove K → Option (Sys K × Flight K)
  | .get, .step =>
    match s.items.lookup call.of with
    | some entry => some (s, .check entry)
    | none => some (s, .send)
  | .check entry, .step =>
    match s.use entry with
    | some source => some (s, .returned (some source))
    | none => some (s, .send)
  | .send, .step => some (s, .lookup s.gen)
  | .lookup sent, .answer (some key) =>
    some ({ s with lookups := ⟨call.of, key, sent⟩ :: s.lookups }, .put key)
  | .lookup _, .answer none => some (s, .returned none)
  -- the clock is read before the lock is taken
  | .put key, .step =>
    some (s, if cfg.ttl ≤ 0 then .returned (some (.provider key)) else .locked key s.clock)
  | .locked key now, .put order =>
    if s.gen = call.gen then
      if Ranges order s.items then
        some ({ s with items := putLocked cfg call.of key now s.clock order s.items }, .returned
          (some (.provider key)))
      else none
    else some (s, .returned (some (.provider key)))
  | .returned source, .finish =>
    some ({ s with group := Function.update s.group (flightKey call.of call.gen) none },
      .done source)
  | _, _ => none

def Sys.invalidate (s : Sys K) (i : Invalidation) : Sys K :=
  { s with
    items := s.items.filter fun e => !i.covers e.1
    invalidations := s.invalidations ++ [i] }

def Sys.step (cfg : Config) (s : Sys K) : Action K → Option (Sys K)
  | .tick elapsed => some { s with clock := s.clock + elapsed }
  | .invalidate i => some (s.invalidate i)
  | .start p k =>
    match s.ops p with
    | none => some { s with ops := Function.update s.ops p (some ⟨k, s.gen, .get⟩) }
    | some _ => none
  | .op p m =>
    (s.ops p).bind fun r => (s.move r.of r.stage m).map fun (s', stage) =>
      { s' with ops := Function.update s'.ops p (some { r with stage := stage }) }
  | .call c m =>
    (s.calls c).bind fun call => (s.callMove cfg call call.flight m).map fun (s', flight) =>
      { s' with calls := Function.update s'.calls c (some { call with flight := flight }) }

def Sys.machine (cfg : Config) : Machine (Sys K) (Action K) where
  step := Sys.step cfg

def Sys.init (clock : Int) : Sys K where
  clock := clock
  items := []
  invalidations := []
  lookups := []
  group := fun _ => none
  calls := fun _ => none
  nextCall := 0
  ops := fun _ => none

end Steps

end GoAtlas.Selfjwt
