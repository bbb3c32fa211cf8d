import GoAtlas.Lib.Framing
import GoAtlas.Lib.History
import GoAtlas.Lib.Machine
import Mathlib.Logic.Function.Basic

/-!
# The generational cache

`ReadThrough` of `data/cache` over a generation store, with any number of reads, and of writes to
the source that are each followed by a `Bump`; and beside it `GetWithFallback` itself on the same
cache. A call is cut at every use of the generation store, of the storage, of the source and of the
shared fills, which run on when their callers have gone. The storage may drop an entry at any time,
may fail, and may still run a write whose caller was told that it failed. The source of truth is the
list of its writes.

The store is its contract: a `Bump` takes the namespace to a higher generation, and `Current`
answers with any generation that the namespace has had since the last `Bump` to return. The last
field of the state is no part of the cache: it notes, for a generation of a namespace, how many
writes the bumps up to it come after.
-/

namespace GoAtlas.Cache

open Lib

variable {α : Type}

/-! ## Keys -/

/-- What a call asks for: the key namespace of its context (the tenant), the namespace and the key.
A call of `GetWithFallback` is not generational and has no namespace. -/
structure Target where
  tenant : Bytes
  generational : Bool
  ns : Bytes
  key : Bytes
  deriving DecidableEq

def generationKey (ns : Bytes) (gen : Nat) (key : Bytes) : Bytes := frames [ns, decimal gen, key]

structure Config where
  generations : Bool
  /-- The keys of the calls of `GetWithFallback`. A key that is composed like that of a
  `Generations` would address its entry. -/
  direct : Bytes → Bool
  direct_generationKey (ns : Bytes) (gen : Nat) (key : Bytes) :
    generations = true → direct (generationKey ns gen key) = false
  keyNamespace : Bool
  keyVersion : Bool
  negativeTtl : Bool
  failOpen : Bool

/-- A cache without key namespaces knows no tenants; an empty key is refused unless it is
composed. -/
def Config.Admits (cfg : Config) (t : Target) : Prop :=
  (cfg.keyNamespace = false → t.tenant = []) ∧
    if t.generational then cfg.generations = true
    else t.ns = [] ∧ t.key ≠ [] ∧ cfg.direct t.key = true

instance (cfg : Config) (t : Target) : Decidable (cfg.Admits t) := by
  unfold Config.Admits
  infer_instance

def namespacePrefix (ns : Bytes) : Bytes := decimal ns.length ++ colon :: (ns ++ [colon])

def versionPrefix (version : Nat) : Bytes := decimal version ++ [colon]

def effectiveKey (cfg : Config) (version : Nat) (tenant key : Bytes) : Bytes :=
  (if cfg.keyVersion then versionPrefix version else []) ++
    ((if cfg.keyNamespace then namespacePrefix tenant else []) ++ key)

def Target.effectiveKey (cfg : Config) (version gen : Nat) (t : Target) : Bytes :=
  Cache.effectiveKey cfg version t.tenant
    (if t.generational then generationKey t.ns gen t.key else t.key)

theorem generationKey_inj {ns ns' key key' : Bytes} {gen gen' : Nat}
    (h : generationKey ns gen key = generationKey ns' gen' key') :
    ns = ns' ∧ gen = gen' ∧ key = key' := by
  have hparts := frames_inj h
  simp only [List.cons.injEq, and_true] at hparts
  exact ⟨hparts.1, decimal_inj hparts.2.1, hparts.2.2⟩

theorem namespacePrefix_inj {ns ns' r r' : Bytes}
    (h : namespacePrefix ns ++ r = namespacePrefix ns' ++ r') :
    ns = ns' ∧ r = r' := by
  have hframe : ∀ ns r : Bytes, namespacePrefix ns ++ r = frame ns ++ colon :: r := by
    intro ns r
    simp [namespacePrefix, frame]
  rw [hframe, hframe] at h
  obtain ⟨hns, hr⟩ := frame_append_inj h
  exact ⟨hns, (List.cons.inj hr).2⟩

theorem versionPrefix_inj {v v' : Nat} {r r' : Bytes}
    (h : versionPrefix v ++ r = versionPrefix v' ++ r') :
    v = v' ∧ r = r' := by
  simp only [versionPrefix, List.append_assoc, List.singleton_append] at h
  exact decimal_colon_inj h

theorem Config.Admits.ne_generationKey {cfg : Config} {t t' : Target} {gen : Nat}
    (ht : cfg.Admits t) (ht' : cfg.Admits t') (hdirect : t.generational = false)
    (hgen : t'.generational = true) :
    t.key ≠ generationKey t'.ns gen t'.key := by
  intro heq
  have hkey := ht.2
  have hcfg := ht'.2
  rw [hdirect, if_neg Bool.false_ne_true, heq] at hkey
  rw [hgen, if_pos rfl] at hcfg
  cases hkey.2.2.symm.trans (cfg.direct_generationKey _ _ _ hcfg)

/-- Two calls with the same key ask for the same thing, under the same generation. -/
theorem Target.effectiveKey_inj {cfg : Config} {v v' gen gen' : Nat} {t t' : Target}
    (ht : cfg.Admits t) (ht' : cfg.Admits t')
    (h : t.effectiveKey cfg v gen = t'.effectiveKey cfg v' gen') :
    t = t' ∧ (t.generational = true → gen = gen') := by
  simp only [Target.effectiveKey, Cache.effectiveKey] at h
  -- the version comes off first
  have hrest : (if cfg.keyNamespace then namespacePrefix t.tenant else []) ++
      (if t.generational then generationKey t.ns gen t.key else t.key) =
      (if cfg.keyNamespace then namespacePrefix t'.tenant else []) ++
      (if t'.generational then generationKey t'.ns gen' t'.key else t'.key) := by
    split at h
    · exact (versionPrefix_inj h).2
    · exact h
  have htenant : t.tenant = t'.tenant ∧
      (if t.generational then generationKey t.ns gen t.key else t.key) =
        if t'.generational then generationKey t'.ns gen' t'.key else t'.key := by
    cases hns : cfg.keyNamespace with
    | true =>
      rw [hns] at hrest
      exact namespacePrefix_inj hrest
    | false =>
      rw [hns] at hrest
      exact ⟨(ht.1 hns).trans (ht'.1 hns).symm, hrest⟩
  have hcross := @Config.Admits.ne_generationKey cfg t t' gen' ht ht'
  have hcross' := @Config.Admits.ne_generationKey cfg t' t gen ht' ht
  obtain ⟨tenant, generational, ns, key⟩ := t
  obtain ⟨tenant', generational', ns', key'⟩ := t'
  obtain ⟨rfl, hkey⟩ := htenant
  cases generational with
  | true =>
    cases generational' with
    | true =>
      obtain ⟨rfl, rfl, rfl⟩ := generationKey_inj hkey
      exact ⟨rfl, fun _ => rfl⟩
    | false => exact absurd hkey.symm (hcross' rfl rfl)
  | false =>
    cases generational' with
    | true => exact absurd hkey (hcross rfl rfl)
    | false =>
      cases hkey
      cases ht.2.1
      cases ht'.2.1
      exact ⟨rfl, fun hgen => nomatch hgen⟩

/-! ## The state -/

inductive Answer (α : Type) where
  | value (val : Stored α)
  | missing
  | failed
  deriving DecidableEq

inductive Entry (α : Type) where
  | value (val : Stored α)
  | negative
  deriving DecidableEq

def Entry.answer : Entry α → Answer α
  | .value val => .value val
  | .negative => .missing

/-- `loadAndStore`, and for a shared fill what comes after it. -/
inductive Load (α : Type) where
  | fill
  | save (answer : Answer α)
  | stored (answer : Answer α)
  | done (answer : Answer α)
  deriving DecidableEq

/-- A read. The generation of a call that is not generational is 0. -/
inductive Read (α : Type) where
  | current
  | key (gen : Nat)
  | lookup (gen : Nat) (ek : Bytes)
  | share (gen : Nat) (ek : Bytes)
  | wait (gen call : Nat)
  /-- `loadAndStore` in the caller, beside the shared fills. -/
  | unshared (gen : Nat) (ek : Bytes) (load : Load α)
  | direct
  | done (answer : Answer α)
  deriving DecidableEq

/-- A write to the source, number `write`, and the `Bump` after it. -/
inductive Bumping where
  | store
  | bump (write : Nat)
  | applied (write gen : Nat)
  | done (write gen : Nat)
  | failed
  deriving DecidableEq

inductive Op (α : Type) where
  | idle
  | read (target : Target) (stage : Read α)
  | write (target : Target) (value : Option α) (stage : Bumping)
  deriving DecidableEq

structure Call (α : Type) where
  target : Target
  gen : Nat
  ek : Bytes
  load : Load α

structure Sys (α : Type) where
  history : History Target α
  gen : Bytes → Nat
  /-- The highest generation that a `Bump` has returned. -/
  completed : Bytes → Nat
  storage : Bytes → Option (Entry α)
  /-- Writes of the storage that may still run. -/
  late : List (Bytes × Entry α)
  group : Bytes → Option Nat
  calls : Nat → Option (Call α)
  nextCall : Nat
  ops : Nat → Op α
  covered : Bytes → Nat → Nat

/-! ## The steps -/

/-- How a `Get` of the storage ends. -/
inductive Fetched where
  | ok
  /-- The entry does not decode; fail-open tries to delete it. -/
  | corrupt (deleted : Bool)
  | error
  | canceled
  deriving DecidableEq

inductive Shared where
  | ok
  | overloaded
  | canceled
  deriving DecidableEq

inductive Saved where
  | ok
  | failed
  /-- It failed for the caller, and may run later. -/
  | late
  /-- There is nothing to save: the value does not serialize. -/
  | unserializable
  deriving DecidableEq

inductive Move (α : Type) where
  | read (target : Target) (skip : Bool)
  | current (gen : Option Nat)
  | key (version : Option Nat)
  | lookup (fetched : Fetched)
  | share (shared : Shared)
  | wait
  | cancel
  | fill (ok : Bool)
  | save (saved : Saved)
  | write (target : Target) (value : Option α)
  | store
  | bump (gen : Nat)
  | bumped
  | fail

inductive CallMove where
  | fill (ok : Bool)
  | save (saved : Saved)
  | finish

inductive Action (α : Type) where
  | op (p : Nat) (m : Move α)
  | call (c : Nat) (m : CallMove)
  | evict (ek : Bytes)
  | land (i : Nat)
  /-- A `Bump` by someone else, with no write that we know of. -/
  | advance (ns : Bytes) (gen : Nat)

def Sys.answer (s : Sys α) (t : Target) (ok : Bool) : Answer α :=
  if ok then
    match s.history.get t with
    | some val => .value val
    | none => .missing
  else .failed

def stored? (cfg : Config) : Answer α → Option (Entry α)
  | .value val => some (.value val)
  | .missing => if cfg.negativeTtl then some .negative else none
  | .failed => none

def saveAnswer (cfg : Config) (answer : Answer α) (saved : Saved) : Answer α :=
  match answer with
  | .value val =>
    if saved = .ok ∨ (cfg.failOpen ∧ saved ≠ .unserializable) then .value val else .failed
  | answer => answer

def Sys.save (cfg : Config) (s : Sys α) (ek : Bytes) (answer : Answer α) (saved : Saved) : Sys α :=
  match stored? cfg answer, saved with
  | some e, .ok => { s with storage := Function.update s.storage ek (some e) }
  | some e, .late => { s with late := (ek, e) :: s.late }
  | _, _ => s

/-- A bump to `gen` that comes after write number `write`. -/
def cover (covered : Bytes → Nat → Nat) (ns : Bytes) (gen write : Nat) : Bytes → Nat → Nat :=
  fun ns' c => if ns' = ns ∧ gen ≤ c then max (covered ns' c) (write + 1) else covered ns' c

def Sys.move (cfg : Config) (s : Sys α) : Op α → Move α → Option (Sys α × Op α)
  | .idle, .read t skip =>
    if cfg.Admits t then
      some (s, .read t (if skip then .direct else if t.generational then .current else .key 0))
    else none
  | .read t .current, .current (some gen) =>
    if s.completed t.ns ≤ gen ∧ gen ≤ s.gen t.ns then some (s, .read t (.key gen)) else none
  | .read t .current, .current none => some (s, .read t .direct)
  | .read t (.key gen), .key (some version) =>
    some (s, .read t (.lookup gen (t.effectiveKey cfg version gen)))
  -- the key version is unknown
  | .read t (.key _), .key none => if cfg.keyVersion then some (s, .read t .direct) else none
  | .read t (.lookup gen ek), .lookup .ok =>
    match s.storage ek with
    | some e => some (s, .read t (.done e.answer))
    | none => some (s, .read t (.share gen ek))
  | .read t (.lookup gen ek), .lookup (.corrupt deleted) =>
    if cfg.failOpen then
      some ({ s with storage := if deleted then Function.update s.storage ek none else s.storage },
        .read t (.share gen ek))
    else some (s, .read t (.done .failed))
  | .read t (.lookup gen ek), .lookup .error =>
    some (s, .read t (if cfg.failOpen then .share gen ek else .done .failed))
  | .read t (.lookup _ _), .lookup .canceled => some (s, .read t (.done .failed))
  | .read t (.share gen ek), .share .ok =>
    match s.group ek with
    | some c => some (s, .read t (.wait gen c))
    | none =>
      some ({ s with
          group := Function.update s.group ek (some s.nextCall)
          calls := Function.update s.calls s.nextCall (some ⟨t, gen, ek, .fill⟩)
          nextCall := s.nextCall + 1 },
        .read t (.wait gen s.nextCall))
  | .read t (.share gen ek), .share .overloaded =>
    if (s.group ek).isSome then none
    else some (s, .read t (if cfg.failOpen then .unshared gen ek .fill else .done .failed))
  | .read t (.share _ _), .share .canceled => some (s, .read t (.done .failed))
  | .read t (.wait _ c), .wait =>
    match s.calls c with
    | some call =>
      match call.load with
      | .done answer => some (s, .read t (.done answer))
      | _ => none
    | none => none
  | .read t (.wait _ _), .cancel => some (s, .read t (.done .failed))
  | .read t (.unshared gen ek .fill), .fill ok =>
    some (s, .read t (.unshared gen ek (.save (s.answer t ok))))
  | .read t (.unshared _ ek (.save answer)), .save saved =>
    some (s.save cfg ek answer saved, .read t (.done (saveAnswer cfg answer saved)))
  | .read t .direct, .fill ok => some (s, .read t (.done (s.answer t ok)))
  -- a write, and its bump
  | .idle, .write t value => some (s, .write t value .store)
  | .write t value .store, .store =>
    some ({ s with history := ⟨t, value⟩ :: s.history }, .write t value (.bump s.history.length))
  | .write t value (.bump n), .bump gen =>
    if s.gen t.ns < gen then
      some ({ s with gen := Function.update s.gen t.ns gen, covered := cover s.covered t.ns gen n },
        .write t value (.applied n gen))
    else none
  | .write t value (.applied n gen), .bumped =>
    some ({ s with completed := Function.update s.completed t.ns (max (s.completed t.ns) gen) },
      .write t value (.done n gen))
  | .write t value (.bump _), .fail => some (s, .write t value .failed)
  | .write t value (.applied _ _), .fail => some (s, .write t value .failed)
  | _, _ => none

def Sys.callMove (cfg : Config) (s : Sys α) (call : Call α) :
    Load α → CallMove → Option (Sys α × Load α)
  | .fill, .fill ok => some (s, .save (s.answer call.target ok))
  | .save answer, .save saved =>
    some (s.save cfg call.ek answer saved, .stored (saveAnswer cfg answer saved))
  | .stored answer, .finish =>
    some ({ s with group := Function.update s.group call.ek none }, .done answer)
  | _, _ => none

def Sys.setOp (s : Sys α) (p : Nat) (x : Op α) : Sys α :=
  { s with ops := Function.update s.ops p x }

def Sys.setLoad (s : Sys α) (c : Nat) (call : Call α) (load : Load α) : Sys α :=
  { s with calls := Function.update s.calls c (some { call with load := load }) }

def Sys.step (cfg : Config) (s : Sys α) : Action α → Option (Sys α)
  | .op p m => (s.move cfg (s.ops p) m).map fun (s', x) => s'.setOp p x
  | .call c m =>
    (s.calls c).bind fun call => (s.callMove cfg call call.load m).map fun (s', load) =>
      s'.setLoad c call load
  | .evict ek => some { s with storage := Function.update s.storage ek none }
  | .land i =>
    (s.late[i]?).map fun (ek, e) =>
      { s with storage := Function.update s.storage ek (some e), late := s.late.eraseIdx i }
  | .advance ns gen =>
    if s.gen ns < gen then some { s with gen := Function.update s.gen ns gen } else none

def Sys.machine (cfg : Config) : Machine (Sys α) (Action α) where
  step := Sys.step cfg

/-- An empty cache over a source with these writes; the namespaces have their seeds. -/
def Sys.init (history : History Target α) (seed : Bytes → Nat) : Sys α where
  history := history
  gen := seed
  completed := fun _ => 0
  storage := fun _ => none
  late := []
  group := fun _ => none
  calls := fun _ => none
  nextCall := 0
  ops := fun _ => .idle
  covered := fun _ _ => 0

end GoAtlas.Cache
