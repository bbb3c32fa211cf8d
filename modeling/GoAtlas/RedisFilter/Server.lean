import GoAtlas.Lib.Machine
import GoAtlas.Lib.Registry

/-!
# The scripts of a shared Bloom filter over Redis

The scripts of `data/probfilter/internal/redisfilter` for a filter whose inserts are journaled. A
filter holds a list of values: what RedisBloom answers for a value that was inserted is yes. A key
with a time to live may expire at any time, so extending one shows no effect; the clock of the
server does not go back. The staging key of a rebuild is known by the number of the rebuild. Where a
command of RedisBloom can fail inside a script, the script goes on as the source does.
-/

namespace GoAtlas.RedisFilter

open Lib

structure Server (ν : Type) where
  clock : Nat
  live : Option (List ν)
  /-- The last ticket, the ticket of the rebuild lease, and that of the last publishing rebuild. -/
  seq : Nat
  lease : Option Nat
  committed : Nat
  journal : List ν
  stagings : Nat → Option (List ν)
  /-- The staging filters that were created. -/
  registry : Registry Nat Unit
  marker : Nat → Bool
  generation : Nat
  ready : Bool

def Server.initial (ν : Type) : Server ν :=
  ⟨0, none, 0, none, 0, [], fun _ => none, .empty, fun _ => false, 0, false⟩

inductive Command (ν : Type) where
  | reserve
  | insert (vs : List ν)
  | acquire (p : Nat)
  | renew (t : Nat)
  | release (t : Nat)
  | stage (p deadline : Nat)
  | batch (p : Nat) (vs : List ν)
  | drain (p t : Nat)
  /-- With the values the loader of the rebuild has returned. -/
  | commit (p t : Nat) (loaded : List ν)
  | abort (p : Nat)

inductive Fault (ν : Type) where
  | none
  /-- The insert fails, after some of the values have gone in. -/
  | insert (part : List ν)
  /-- The insert answers with an error for some of its values. -/
  | items (part : List ν)
  /-- The generation key is of another type. -/
  | generation

inductive Reply where
  | done
  | failed
  | ticket (t : Nat)
  | superseded
  deriving DecidableEq

inductive Event (ν : Type) where
  | inserted (vs : List ν)
  /-- The lease was acquired with the ticket, for a rebuild. -/
  | acquired (p t : Nat)
  /-- The staging filter of the rebuild was created, or expired or was deleted. -/
  | created (p : Nat)
  | vanished (p : Nat)
  /-- The ticket was recorded as the committed one. -/
  | recorded (t : Nat)
  /-- The staging filter has replaced the live one, which holds `live` now. -/
  | promoted (p t : Nat) (loaded live : List ν)

def drainBatch : Nat := 500

namespace Server

variable {ν : Type}

def vanish (s : Server ν) (p : Nat) : List (Event ν) :=
  if (s.stagings p).isSome then [.vanished p] else []

def setStaging (s : Server ν) (p : Nat) (content : Option (List ν)) : Server ν :=
  { s with stagings := Function.update s.stagings p content }

/-- `stageScript`; `old` are the records it prunes. -/
def stage (s : Server ν) (old : List Nat) (fault : Fault ν) (p deadline : Nat) :
    Server ν × Reply × List (Event ν) :=
  if deadline ≤ s.clock then (s, .failed, [])
  else
    let s := { s with registry := s.registry.prune old s.clock }
    if (s.registry.record p).isSome then (s, .failed, [])
    else
      let s := { s with registry := s.registry.put p deadline () }
      match fault with
      | .none => (s.setStaging p (some []), .done, [.created p])
      | _ => (s, .failed, [])

/-- `drainJournalScript`. -/
def drain (s : Server ν) (fault : Fault ν) (p t : Nat) : Server ν × Reply × List (Event ν) :=
  if s.lease ≠ some t then (s, .superseded, [])
  else if s.journal.take drainBatch = [] then (s, .done, [])
  else match s.stagings p with
    | none => (s, .failed, [])
    | some content => match fault with
      | .insert part | .items part => (s.setStaging p (some (content ++ part)), .failed, [])
      | _ =>
        ({ s.setStaging p (some (content ++ s.journal.take drainBatch)) with
            journal := s.journal.drop drainBatch }, .done, [])

/-- The steps of `commitScript` after the lease has been checked and the ticket recorded. -/
def promote (s : Server ν) (fault : Fault ν) (p t : Nat) (loaded content : List ν) :
    Server ν × Reply × List (Event ν) :=
  match fault with
  | .generation => (s.setStaging p (some content), .failed, [])
  | _ =>
    ({ s.setStaging p none with
        live := some content
        generation := s.generation + 1
        marker := Function.update s.marker p true
        ready := true }, .done, [.promoted p t loaded content])

/-- `commitScript`; the ticket is 0 for a staging filter without a lease. -/
def commit (s : Server ν) (fault : Fault ν) (p t : Nat) (loaded : List ν) :
    Server ν × Reply × List (Event ν) :=
  match s.stagings p with
  | none => (s, if s.marker p then .done else .failed, [])
  | some content =>
    if t = 0 then s.promote fault p t loaded content
    else if s.lease ≠ some t then (s, .superseded, [])
    else if t < s.committed then (s, .superseded, [])
    else
      let s := { s with committed := t }
      match fault with
      | .insert part | .items part =>
        (s.setStaging p (some (content ++ part)), .failed, [.recorded t])
      | fault =>
        let (s', reply, events) :=
          ({ s with journal := [] }).promote fault p t loaded (content ++ s.journal)
        (s', reply, .recorded t :: events)

def exec (s : Server ν) (old : List Nat) (fault : Fault ν) :
    Command ν → Server ν × Reply × List (Event ν)
  | .reserve => match s.live with
    | none => ({ s with live := some [], ready := false }, .done, [])
    | some _ => (s, .failed, [])
  | .insert vs => match s.live with
    | none => (s, .failed, [])
    | some content =>
      let journal := if s.lease.isSome then s.journal ++ vs else s.journal
      match fault with
      | .insert part => ({ s with live := some (content ++ part) }, .failed, [])
      | .items part => ({ s with live := some (content ++ part), journal := journal }, .failed, [])
      | _ => ({ s with live := some (content ++ vs), journal := journal }, .done, [.inserted vs])
  | .acquire p =>
    if s.lease.isSome then (s, .failed, [])
    else
      ({ s with seq := s.seq + 1, lease := some (s.seq + 1), journal := [] }, .ticket (s.seq + 1),
        [.acquired p (s.seq + 1)])
  | .renew t => (s, if s.lease = some t then .done else .failed, [])
  | .release t =>
    if s.lease = some t then ({ s with journal := [], lease := none }, .done, [])
      else (s, .failed, [])
  | .stage p deadline => s.stage old fault p deadline
  | .batch p vs => match s.stagings p with
    | none => (s, .failed, [])
    | some content => match fault with
      | .insert part | .items part => (s.setStaging p (some (content ++ part)), .failed, [])
      | _ => (s.setStaging p (some (content ++ vs)), .done, [])
  | .drain p t => s.drain fault p t
  | .commit p t loaded => s.commit fault p t loaded
  | .abort p => (s.setStaging p none, .done, s.vanish p)

end Server

end GoAtlas.RedisFilter
