import GoAtlas.Lib.Lease
import GoAtlas.Lib.Machine
import Mathlib.Logic.Function.Basic

/-!
# Distributed locks over the SQL table

The lease engine of `data/locks/dlock` over the SQL store, for the row of one key and any number of
`Lock` calls of any number of engines. A call is known by a number, which stands for the owner id it
makes up. A request runs at the database at any time after it was sent, or never, also after its
caller has given up; its reply may never be read. The clocks of the processes advance together, and
only differences of their readings are used, so one reading `now` stands for all of them; the
database has a clock of its own.
-/

namespace GoAtlas.Dlock

open Lib

/-- The columns on which a statement decides; an empty owner is `none`. -/
structure Row where
  owner : Option Nat
  fencing : Nat
  expiresAt : Int
  deriving DecidableEq

/-- A transaction of the store. -/
inductive Command where
  /-- MySQL creates the row on first use. -/
  | ensure
  | acquire (c : Nat)
  | renew (c fencing : Nat)
  /-- The token is 0 if the reply to the acquisition was lost. -/
  | release (c fencing : Nat)
  deriving DecidableEq

inductive Reply where
  | ensured
  | acquired (c fencing : Nat)
  | taken (c : Nat)
  | renewed (c : Nat) (ok : Bool)
  | released (c : Nat)
  deriving DecidableEq

/-- The row after the transaction, and the reply. The clock of the database is at `db` when the row
is locked; a statement that waited for the row may have read it before, at `t`. A renewal locks the
row first and reads the clock then. -/
def Command.exec (ttl : Nat → Int) (row : Option Row) (db t : Int) : Command → Option Row × Reply
  | .ensure => (some (row.getD ⟨none, 0, 0⟩), .ensured)
  | .acquire c => match row with
    | none => (some ⟨some c, 1, t + ttl c⟩, .acquired c 1)
    | some r =>
      if r.expiresAt ≤ t then (some ⟨some c, r.fencing + 1, t + ttl c⟩, .acquired c (r.fencing + 1))
      else (some r, .taken c)
  | .renew c fencing => match row with
    | none => (none, .renewed c false)
    | some r =>
      if r.owner = some c ∧ r.fencing = fencing ∧ db < r.expiresAt then
        (some { r with expiresAt := db + ttl c }, .renewed c true)
      else (some r, .renewed c false)
  | .release c fencing => match row with
    | none => (none, .released c)
    | some r =>
      if r.owner = some c ∧ (fencing = 0 ∨ r.fencing = fencing) then
        (some { r with owner := none, expiresAt := t }, .released c)
      else (some r, .released c)

inductive Stage where
  | idle
  | acquiring (id : Nat) (start : Int)
  /-- `Lock` has returned the lock. A renewal in flight has a number, and the instant before it was
  sent. -/
  | held (fencing : Nat) (leaseStart : Int) (renewing : Option (Nat × Int)) (releasing ended : Bool)
  | notHeld
  /-- An acquisition that may be in force, but is not used: it is released. -/
  | unusable (fencing : Nat)
  deriving DecidableEq

structure Request where
  id : Nat
  cmd : Command
  /-- The clock of the database when the request was sent. -/
  sent : Int
  deriving DecidableEq

structure Sys where
  now : Int
  db : Int
  row : Option Row
  nextId : Nat
  requests : List Request
  replies : List (Nat × Reply)
  locks : Nat → Stage
  granted : List Nat

def Sys.initial : Sys := ⟨0, 0, none, 0, [], [], fun _ => .idle, []⟩

inductive Action where
  /-- The local clocks advance by `d`, the clock of the database by `e`. -/
  | tick (d e : Nat)
  | exec (i : Nat) (t : Int)
  | ensure
  | lock (c : Nat)
  | acquireFailed (c : Nat)
  | receive (c : Nat) (reply : Reply) (closed : Bool)
  | renew (c : Nat)
  | renewFailed (c : Nat)
  | receiveRenewed (c : Nat) (ok : Bool)
  | release (c : Nat)
  | receiveReleased (c id : Nat)
  | expire (c : Nat)
  deriving DecidableEq

def Reply.token? : Reply → Option Nat
  | .acquired _ fencing => some fencing
  | _ => none

namespace Sys

def send (s : Sys) (cmd : Command) : Sys :=
  { s with nextId := s.nextId + 1, requests := s.requests ++ [⟨s.nextId, cmd, s.db⟩] }

def set (s : Sys) (c : Nat) (x : Stage) : Sys := { s with locks := Function.update s.locks c x }

variable (ttl : Nat → Int)

def step (s : Sys) : Action → Option Sys
  | .tick d e => some { s with now := s.now + d, db := s.db + e }
  | .exec i t => match s.requests[i]? with
    | some q =>
      if q.sent ≤ t ∧ t ≤ s.db then
        let (row, reply) := q.cmd.exec ttl s.row s.db t
        some { s with
          row := row
          requests := s.requests.eraseIdx i
          replies := s.replies ++ [(q.id, reply)]
          granted := s.granted ++ reply.token?.toList }
      else none
    | none => none
  | .ensure => some (s.send .ensure)
  | .lock c => match s.locks c with
    | .idle => some ((s.send (.acquire c)).set c (.acquiring s.nextId s.now))
    | _ => none
  | .acquireFailed c => match s.locks c with
    | .acquiring _ _ => some (s.set c (.unusable 0))
    | _ => none
  | .receive c reply closed => match s.locks c with
    | .acquiring id start =>
      if (id, reply) ∈ s.replies then match reply with
        | .acquired c' fencing =>
          if c' ≠ c then none
          -- the reply comes after the deadline, or the engine has been closed
          else if ttl c ≤ s.now - start || closed then some (s.set c (.unusable fencing))
          else some (s.set c (.held fencing start none false false))
        | .taken _ => some (s.set c .notHeld)
        | _ => none
      else none
    | _ => none
  | .renew c => match s.locks c with
    | .held fencing leaseStart none false false =>
      if s.now - leaseStart < ttl c then
        some ((s.send (.renew c fencing)).set c (.held fencing leaseStart (some (s.nextId, s.now))
          false false))
      else none
    | _ => none
  | .renewFailed c => match s.locks c with
    | .held fencing leaseStart (some _) releasing ended =>
      some (s.set c (.held fencing leaseStart none releasing ended))
    | _ => none
  | .receiveRenewed c ok => match s.locks c with
    | .held fencing leaseStart (some (id, attempt)) releasing ended =>
      if (id, .renewed c ok) ∈ s.replies then
        if ok then some (s.set c (.held fencing attempt none releasing ended))
        else some (s.set c (.held fencing leaseStart none releasing true))
      else none
    | _ => none
  | .release c => match s.locks c with
    | .held fencing leaseStart renewing _ false =>
      some ((s.send (.release c fencing)).set c (.held fencing leaseStart renewing true false))
    | .unusable fencing => some (s.send (.release c fencing))
    | _ => none
  | .receiveReleased c id =>
    if (id, .released c) ∈ s.replies then match s.locks c with
      | .held fencing leaseStart renewing releasing _ =>
        some (s.set c (.held fencing leaseStart renewing releasing true))
      | _ => some s
    else none
  | .expire c => match s.locks c with
    | .held fencing leaseStart renewing releasing _ =>
      if ttl c ≤ s.now - leaseStart then
        some (s.set c (.held fencing leaseStart renewing releasing true))
      else none
    | _ => none

def machine : Machine Sys Action := ⟨step ttl⟩

end Sys

end GoAtlas.Dlock
