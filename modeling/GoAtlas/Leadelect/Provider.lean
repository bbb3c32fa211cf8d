import GoAtlas.Lib.Machine
import Mathlib.Logic.Function.Basic

/-!
# Leader election over a NATS KeyValue bucket

The providers of `data/leadelect/providers/nats` that compete for one key; a provider is known by a
number, which stands for its node id. A request runs at the store at any time after it was sent, or
never, also after its caller has given up, and a call may send its request again. The clocks advance
together, and only differences of their readings are used, so `now` stands for all of them. Times
are in nanoseconds.
-/

namespace GoAtlas.Leadelect

open Lib

def defaultBucketKeysTTL : Int := 10000000000

def minTTL : Int := 1000000000

/-! ## The store -/

structure Entry where
  node : Nat
  revision : Nat
  written : Int
  deriving DecidableEq

structure Store where
  entry : Option Entry
  revision : Nat
  deriving DecidableEq

inductive Command where
  | create
  | get
  | update (revision : Nat)
  | delete (revision : Nat)
  deriving DecidableEq

inductive Reply where
  /-- The revision of the write, and when it ran. -/
  | wrote (revision : Nat) (written : Int)
  | keyExists
  | wrongRevision
  | found (node revision : Nat)
  | notFound
  | deleted
  deriving DecidableEq

namespace Store

/-- A key is dropped when its TTL has passed since its last write. -/
def current (st : Store) (now : Int) : Option Entry :=
  st.entry.filter fun e => now < e.written + defaultBucketKeysTTL

def write (st : Store) (p : Nat) (now : Int) : Store × Reply :=
  (⟨some ⟨p, st.revision + 1, now⟩, st.revision + 1⟩, .wrote (st.revision + 1) now)

def exec (st : Store) (now : Int) (p : Nat) : Command → Store × Reply
  | .create =>
    match st.current now with
    | none => st.write p now
    | some _ => (st, .keyExists)
  | .get =>
    match st.current now with
    | none => (st, .notFound)
    | some e => (st, .found e.node e.revision)
  | .update revision =>
    match st.current now with
    | none => (st, .wrongRevision)
    | some e => if e.revision = revision then st.write p now else (st, .wrongRevision)
  | .delete revision =>
    match st.current now with
    | none => (st, .wrongRevision)
    | some e =>
      if e.revision = revision then (⟨none, st.revision + 1⟩, .deleted) else (st, .wrongRevision)

end Store

/-! ## Providers -/

inductive Task where
  | acquire | renew | resign
  deriving DecidableEq

/-- Where the goroutine of `camping` is. -/
inductive Stage where
  | off
  | idle
  | calling (task : Task) (id : Nat) (cmd : Command)
  | confirmed (revision : Nat) (written : Int)
  /-- `markRenewed` has read the clock. -/
  | stamped (revision : Nat) (at_ : Int)
  /-- And stored the token. -/
  | stored (revision : Nat) (at_ : Int)
  /-- About to store `isLeader`. -/
  | setting (leader : Bool)
  deriving DecidableEq

structure Provider where
  /-- The TTL of the configuration. -/
  ttl : Int
  isRunning : Bool
  isLeader : Bool
  lastRenewOK : Option Int
  fenceToken : Nat
  canceled : Bool
  stopping : Bool
  stage : Stage

def Provider.initial : Provider := ⟨0, false, false, none, 0, false, false, .off⟩

/-- How long a confirmed lease counts. -/
def Provider.lease (x : Provider) : Int := min x.ttl defaultBucketKeysTTL

def Provider.isLeaderAt (x : Provider) (now : Int) : Bool :=
  x.isRunning && x.isLeader &&
    match x.lastRenewOK with
    | none => false
    | some last => now - last < x.lease

def Provider.fenceAt (x : Provider) (now : Int) : Nat :=
  if x.isLeaderAt now then x.fenceToken else 0

inductive Next where
  | call (task : Task) (cmd : Command)
  | stage (x : Stage)

/-- What `acquire`, `renew` and `resign` do with a reply, for the node `p`. -/
def onReply (p : Nat) : Task → Command → Reply → Option Next
  | .acquire, .create, .wrote revision written => some (.stage (.confirmed revision written))
  | .acquire, .create, .keyExists => some (.call .acquire .get)
  | .acquire, .get, .found node revision =>
    if node = p then some (.call .acquire (.update revision)) else some (.stage (.setting false))
  | .acquire, .get, .notFound => some (.stage (.setting false))
  | .acquire, .update _, .wrote revision written => some (.stage (.confirmed revision written))
  | .acquire, .update _, .wrongRevision => some (.stage (.setting false))
  | .renew, .get, .found node revision =>
    if node = p then some (.call .renew (.update revision)) else some (.stage (.setting false))
  -- a renewal that failed is tried as an acquisition
  | .renew, .get, .notFound => some (.call .acquire .create)
  | .renew, .update _, .wrote revision written => some (.stage (.confirmed revision written))
  | .renew, .update _, .wrongRevision => some (.call .acquire .create)
  | .resign, .get, .found node revision =>
    if node = p then some (.call .resign (.delete revision)) else some (.stage .off)
  | .resign, .get, .notFound => some (.stage .off)
  | .resign, .delete _, _ => some (.stage .off)
  | _, _, _ => none

/-- What they do when a call fails; `canceled` if that is because the context is. -/
def onError (canceled : Bool) : Task → Next
  | .acquire => .stage (.setting false)
  | .renew => if canceled then .stage .idle else .call .acquire .create
  | .resign => .stage .off

/-! ## Runs -/

structure Sys where
  now : Int
  store : Store
  nextId : Nat
  requests : List (Nat × Nat × Command)
  replies : List (Nat × Nat × Reply)
  providers : Nat → Provider
  writes : List (Nat × Nat)

def Sys.initial : Sys := ⟨0, ⟨none, 0⟩, 0, [], [], fun _ => .initial, []⟩

inductive Action where
  | elapse (d : Nat)
  | exec (i : Nat)
  | start (p : Nat) (ttl : Int)
  | stop (p : Nat)
  | stopped (p : Nat)
  | cancel (p : Nat)
  | watchFails (p : Nat)
  | acquire (p : Nat)
  | renew (p : Nat)
  | resign (p : Nat)
  | resend (p : Nat)
  | receive (p : Nat) (reply : Reply)
  | fail (p : Nat) (canceled : Bool)
  | stamp (p : Nat)
  | storeToken (p : Nat)
  | storeTime (p : Nat)
  | setLeader (p : Nat)
  deriving DecidableEq

namespace Sys

def set (s : Sys) (p : Nat) (x : Provider) : Sys :=
  { s with providers := Function.update s.providers p x }

def goto (s : Sys) (p : Nat) (x : Stage) : Sys := s.set p { s.providers p with stage := x }

def call (s : Sys) (p : Nat) (task : Task) (cmd : Command) : Sys :=
  { s.goto p (.calling task s.nextId cmd) with
    nextId := s.nextId + 1
    requests := s.requests ++ [(p, s.nextId, cmd)] }

def follow (s : Sys) (p : Nat) : Next → Sys
  | .call task cmd => s.call p task cmd
  | .stage x => s.goto p x

def wrote (p : Nat) : Reply → List (Nat × Nat)
  | .wrote revision _ => [(p, revision)]
  | _ => []

def step (s : Sys) : Action → Option Sys
  | .elapse d => some { s with now := s.now + d }
  | .exec i =>
    match s.requests[i]? with
    | none => none
    | some (p, id, cmd) =>
      let (store, reply) := s.store.exec s.now p cmd
      some { s with
        store := store
        requests := s.requests.eraseIdx i
        replies := s.replies ++ [(p, id, reply)]
        writes := s.writes ++ wrote p reply }
  | .start p ttl =>
    let x := s.providers p
    if !x.isRunning && !x.stopping && minTTL ≤ ttl then
      some (s.set p { x with
        ttl := ttl
        isRunning := true
        canceled := false
        stage := .idle })
    else none
  | .stop p =>
    let x := s.providers p
    if x.isRunning then
      some (s.set p { x with
        isRunning := false
        canceled := true
        stopping := true })
    else none
  | .stopped p =>
    let x := s.providers p
    if x.stopping && x.stage = .off then
      some (s.set p { x with
        isLeader := false
        stopping := false })
    else none
  | .cancel p =>
    let x := s.providers p
    if x.isRunning then some (s.set p { x with canceled := true }) else none
  | .watchFails p => if (s.providers p).stage = .idle then some (s.goto p .off) else none
  | .acquire p => if (s.providers p).stage = .idle then some (s.call p .acquire .create) else none
  | .renew p =>
    if (s.providers p).stage = .idle ∧
      (s.providers p).isLeader then some (s.call p .renew .get) else none
  | .resign p =>
    if (s.providers p).stage = .idle ∧
      (s.providers p).canceled then some (s.call p .resign .get) else none
  | .resend p =>
    match (s.providers p).stage with
    | .calling task _ cmd => some (s.call p task cmd)
    | _ => none
  | .receive p reply =>
    match (s.providers p).stage with
    | .calling task id cmd =>
      if (p, id, reply) ∈ s.replies then (onReply p task cmd reply).map (s.follow p) else none
    | _ => none
  | .fail p canceled =>
    match (s.providers p).stage with
    | .calling task _ _ =>
      if canceled && !(s.providers p).canceled then none
        else some (s.follow p (onError canceled task))
    | _ => none
  | .stamp p =>
    match (s.providers p).stage with
    | .confirmed revision _ => some (s.goto p (.stamped revision s.now))
    | _ => none
  | .storeToken p =>
    match (s.providers p).stage with
    | .stamped revision at_ =>
      some (s.set p { s.providers p with
        fenceToken := revision
        stage := .stored revision at_ })
    | _ => none
  | .storeTime p =>
    match (s.providers p).stage with
    | .stored _ at_ =>
      some (s.set p { s.providers p with
        lastRenewOK := some at_
        stage := .setting true })
    | _ => none
  | .setLeader p =>
    match (s.providers p).stage with
    | .setting leader =>
      some (s.set p { s.providers p with
        isLeader := leader
        stage := .idle })
    | _ => none

def machine : Machine Sys Action := ⟨step⟩

/-- What `IsLeader` would return. -/
def isLeader (s : Sys) (p : Nat) : Bool := (s.providers p).isLeaderAt s.now

/-- What `Fence` would return. -/
def fence (s : Sys) (p : Nat) : Nat := (s.providers p).fenceAt s.now

end Sys

end GoAtlas.Leadelect
