import Mathlib.Logic.Function.Basic
import GoAtlas.Lib.Machine

/-!
# The NATS rate limiter

The provider of `data/limiters/storages/nats` at one key, with any number of clients. An attempt of
`Allow` is three steps: it reads the clock, loads the entry of the key with its revision, and writes
the new entry if the revision still stands; the clock goes on between them. A revision conflict
starts the next attempt. A call to the store may fail, and a write may be applied although its reply
is lost. Times are milliseconds.
-/

namespace GoAtlas.Limiter

structure LimitInfo where
  remaining : Int
  reset : Int
  deriving DecidableEq

namespace Nats

open Lib

structure Options where
  limit : Int
  windowMs : Int
  maxCASAttempts : Nat

/-- What is stored under the key, with the revision of the entry; revision 0 is no entry. -/
structure Entry where
  requests : List Int
  revision : Nat
  deriving DecidableEq

/-- A client within a call; the first field counts the attempts before this one. -/
inductive Proc where
  | idle
  | retrying (attempt : Nat)
  | timed (attempt : Nat) (now : Int)
  /-- The requests and the info to be written, over the revision that was loaded. -/
  | loaded (attempt : Nat) (now : Int) (requests : List Int) (info : LimitInfo) (revision : Nat)
  deriving DecidableEq

inductive Err where
  | limitExceeded
  | contention
  | get
  | store
  deriving DecidableEq

inductive Event where
  /-- The write of a call succeeded at the time `at_`, with the clock it had read. -/
  | admitted (stamp at_ : Int) (info : LimitInfo)
  /-- The write was applied, and the call failed for want of the reply. -/
  | lost (stamp at_ : Int)
  | failed (err : Err) (info : Option LimitInfo)
  deriving DecidableEq

structure Sys where
  entry : Entry
  clock : Int
  procs : Nat → Proc
  log : List Event

def Sys.initial : Sys := ⟨⟨[], 0⟩, 0, fun _ => .idle, []⟩

inductive Outcome where
  | done
  | lost
  | failed
  deriving DecidableEq

inductive Action where
  | tick (ms : Nat)
  | read (c : Nat)
  | load (c : Nat)
  | loadFails (c : Nat)
  | write (c : Nat) (outcome : Outcome)
  deriving DecidableEq

variable (o : Options)

/-- The middle part of `tryAllow`: the requests in the window, and the entry to write with the info
of an admission, or the info of a refusal. -/
def settle (now : Int) (requests : List Int) : Except LimitInfo (List Int × LimitInfo) :=
  let requests := requests.filter (now - o.windowMs < ·)
  let reset := requests.head?.elim 0 fun t => (t + o.windowMs) / 1000
  let currentCount : Int := requests.length
  if o.limit ≤ currentCount then .error ⟨max (o.limit - currentCount) 0, reset⟩
  else
    let requests := requests ++ [now]
    let reset := if currentCount = 0 then (now + o.windowMs) / 1000 else reset
    .ok (requests, ⟨max (o.limit - requests.length) 0, reset⟩)

namespace Sys

def setProc (s : Sys) (c : Nat) (x : Proc) : Sys := { s with procs := Function.update s.procs c x }

def answer (s : Sys) (c : Nat) (e : Event) : Sys := { s.setProc c .idle with log := s.log ++ [e] }

/-- `casPut`: Create for no entry, Update for the revision that was loaded. -/
def put (s : Sys) (requests : List Int) : Sys :=
  { s with entry := ⟨requests, s.entry.revision + 1⟩ }

def step (s : Sys) : Action → Option Sys
  | .tick ms => some { s with clock := s.clock + ms }
  | .read c =>
    match s.procs c with
    | .idle => some (s.setProc c (.timed 0 s.clock))
    | .retrying n => some (s.setProc c (.timed n s.clock))
    | _ => none
  | .load c =>
    match s.procs c with
    | .timed n now =>
      match settle o now s.entry.requests with
      | .error info => some (s.answer c (.failed .limitExceeded (some info)))
      | .ok (requests, info) => some (s.setProc c (.loaded n now requests info s.entry.revision))
    | _ => none
  | .loadFails c =>
    match s.procs c with
    | .timed _ _ => some (s.answer c (.failed .get none))
    | _ => none
  | .write c outcome =>
    match s.procs c with
    | .loaded n now requests info revision =>
      match outcome with
      | .failed => some (s.answer c (.failed .store none))
      | .done =>
        if revision = s.entry.revision then
          some ((s.put requests).answer c (.admitted now s.clock info))
        -- `ErrKeyExists` is retried up to the budget of attempts
        else if n + 1 < o.maxCASAttempts then some (s.setProc c (.retrying (n + 1)))
        else some (s.answer c (.failed .contention none))
      | .lost =>
        if revision = s.entry.revision then some ((s.put requests).answer c (.lost now s.clock))
        else some (s.answer c (.failed .store none))
    | _ => none

def machine : Machine Sys Action := ⟨step o⟩

end Sys

end Nats

end GoAtlas.Limiter
