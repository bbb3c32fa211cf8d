import Mathlib.Logic.Function.Basic
import GoAtlas.Lib.Machine
import GoAtlas.Scheduler.Operations

/-!
# Scheduler instances at work

Any number of instances on one storage, seen at one task. A goroutine of an instance (a call of
Register or of a management method, a dispatched execution, a skip, a stale recovery) is a process
that takes one storage call at a time, in any interleaving; between two calls it holds what it read.
A call that fails, a cancelled context and a body that is not run end the process early; an instance
may restart. Clocks, random parts of run ids and outcomes of bodies are arguments of the steps. The
log records what recovery scanned and every write the storage applied.
-/

namespace GoAtlas.Scheduler

open GoAtlas.Lib

/-- Bound of the loops that read, modify and write. -/
def maxUpdateAttempts : Nat := 10

inductive Proc where
  | idle
  /-- Register, before and after GetTask; `left` attempts remain. -/
  | registering (inst : Nat) (cfg : TaskConfig) (now : Time) (left : Nat)
  | merging (inst : Nat) (cfg : TaskConfig) (now : Time) (left : Nat) (existing : Slot)
  /-- A management method, before and after GetTask. -/
  | managing (op : Management) (left : Nat)
  | updating (op : Management) (left : Nat) (state : TaskState)
  /-- The tick found the task due with its skip flag; then `applySkip` read it again. -/
  | dueSkip (now : Time) (due : TaskFence)
  | skipping (now : Time) (due : TaskFence) (state : TaskState)
  /-- The tick or a trigger dispatched the task. -/
  | dispatched (inst : Nat) (cfg : TaskConfig) (state : TaskState)
  | claiming (inst : Nat) (runID : String) (start : Time) (state : TaskState)
  /-- The run was claimed; its body runs and its lease is renewed. -/
  | running (inst : Nat) (runID : String) (start : Time) (state : TaskState)
  | finishing (inst : Nat) (runID : String) (start end_ : Time) (success : Bool)
    (state fresh : TaskState)
  /-- Recovery saw an abandoned run, and read the task again. -/
  | stale (inst : Nat) (now : Time) (fence : TaskFence)
  | resetting (inst : Nat) (now : Time) (fence : TaskFence) (state : TaskState)
  deriving DecidableEq

def Proc.inst? : Proc → Option Nat
  | .registering i _ _ _ | .merging i _ _ _ _ | .dispatched i _ _ | .claiming i _ _ _
  | .running i _ _ _ | .finishing i _ _ _ _ _ _ | .stale i _ _ | .resetting i _ _ _ => some i
  | .idle | .managing _ _ | .updating _ _ _ | .dueSkip _ _ | .skipping _ _ _ => none

def Proc.runID? : Proc → Option String
  | .claiming _ runID _ _ | .running _ runID _ _ | .finishing _ runID _ _ _ _ _ => some runID
  | _ => none

inductive Cause where
  | create (inst : Nat) (cfg : TaskConfig) (now : Time)
  | register (inst : Nat) (cfg : TaskConfig) (now : Time)
  | manage (op : Management) (now : Time)
  | skip (now : Time)
  | reset (proc inst : Nat) (now : Time)
  | claim (claim : RunClaim)
  | renew (runID : String) (leaseUntil : Int)
  | finish (runID : String) (result : RunResult)
  deriving DecidableEq

inductive Event where
  /-- Recovery of the instance saw an abandoned run in the state. -/
  | scanned (proc inst : Nat) (now : Time) (state : TaskState)
  | wrote (cause : Cause) (before : Slot) (after : TaskState)
  deriving DecidableEq

structure Sys where
  stored : Slot
  options : Nat → Options
  registered : Nat → Option TaskConfig
  liveRuns : Nat → List String
  proc : Nat → Proc
  log : List Event

def Sys.initial (options : Nat → Options) : Sys :=
  ⟨none, options, fun _ => none, fun _ => [], fun _ => .idle, []⟩

inductive Action where
  | register (p inst : Nat) (cfg : TaskConfig) (now : Time)
  | manage (p : Nat) (op : Management)
  | read (p : Nat)
  | write (p : Nat)
  | update (p : Nat) (now : Time)
  | tick (p inst : Nat) (now : Time)
  | trigger (p inst : Nat)
  | announce (p : Nat) (start : Time) (random : String)
  | claim (p : Nat)
  | renew (p : Nat) (now : Time)
  /-- The body returned; the state is read again. -/
  | body (p : Nat) (end_ : Time) (success : Bool)
  | finish (p : Nat)
  | scan (p inst : Nat) (now : Time)
  /-- A storage call failed or the context is cancelled. -/
  | giveUp (p : Nat)
  | restart (inst : Nat)

namespace Sys

variable (cron : Cron)

def setProc (s : Sys) (p : Nat) (x : Proc) : Sys := { s with proc := Function.update s.proc p x }

def done (s : Sys) (p : Nat) : Sys :=
  let s' := s.setProc p .idle
  match (s.proc p).inst?, (s.proc p).runID? with
  | some i, some runID =>
    { s' with liveRuns := Function.update s.liveRuns i ((s.liveRuns i).erase runID) }
  | _, _ => s'

def apply (s : Sys) (cause : Cause) : Bool × Slot → Sys
  | (true, some after) =>
    { s with stored := some after, log := s.log ++ [.wrote cause s.stored after] }
  | (_, slot) => { s with stored := slot }

def registerDone (s : Sys) (p i : Nat) (cfg : TaskConfig) (now : Time) (left : Nat) (ok : Bool) :
    Sys :=
  if ok then { s with registered := Function.update s.registered i (some cfg) }.setProc p .idle
  else s.setProc p (if left = 0 then .idle else .registering i cfg now left)

def read (s : Sys) (p : Nat) : Option Sys :=
  match s.proc p with
  | .registering i cfg now (left + 1) => some (s.setProc p (.merging i cfg now left s.stored))
  | .managing op (left + 1) =>
    match s.stored with
    | none => some (s.done p)
    | some state => some (s.setProc p (.updating op left state))
  | .dueSkip now due =>
    match s.stored with
    | none => some (s.done p)
    | some fresh =>
      if !fresh.skipNextRun ∨ fenceOf fresh ≠ due then some (s.done p)
      else some (s.setProc p (.skipping now due fresh))
  | .stale i now fence =>
    match s.stored with
    | none => some (s.done p)
    | some state =>
      if fenceOf state ≠ fence then some (s.done p)
      else some (s.setProc p (.resetting i now fence state))
  | _ => none

def write (s : Sys) (p : Nat) : Option Sys :=
  match s.proc p with
  | .merging i cfg now left none =>
    let result := createTask s.stored (cfg.base cron now)
    some ((s.apply (.create i cfg now) result).registerDone p i cfg now left result.1)
  | .merging i cfg now left (some existing) =>
    let result :=
      replaceTaskIf s.stored (cfg.merge cron (s.options i) now existing) (fenceOf existing)
    some ((s.apply (.register i cfg now) result).registerDone p i cfg now left result.1)
  | .skipping now due state =>
    some ((s.apply (.skip now) (replaceTaskIf s.stored (state.skipped cron now) due)).done p)
  | .resetting i now fence state =>
    some ((s.apply (.reset p i now) (replaceTaskIf s.stored (state.reset cron now) fence)).done p)
  | _ => none

def update (s : Sys) (p : Nat) (now : Time) : Option Sys :=
  match s.proc p with
  | .updating op left state =>
    match op.mutate cron now state with
    | .error _ => some (s.done p)
    | .ok next =>
      let result := replaceTaskIf s.stored next (fenceOf state)
      let s' := s.apply (.manage op now) result
      some (s'.setProc p (if result.1 ∨ left = 0 then .idle else .managing op left))
  | _ => none

def tick (s : Sys) (p i : Nat) (now : Time) : Option Sys :=
  match s.proc p, s.stored, s.registered i with
  | .idle, some state, some cfg =>
    if state.status = .active ∧ state.nextRunAt ≤ unix now ∧ cfg.matches state ∧
        state.runStartedAt = 0 then
      some (s.setProc p (if state.skipNextRun then .dueSkip now (fenceOf state)
        else .dispatched i cfg state))
    else none
  | _, _, _ => none

def trigger (s : Sys) (p i : Nat) : Option Sys :=
  match s.proc p, s.stored, s.registered i with
  | .idle, some state, some cfg =>
    if state.status ≠ .completed ∧ state.status ≠ .disabled then
      some (s.setProc p (.dispatched i cfg state))
    else none
  | _, _, _ => none

/-- `executeTask` up to the claim. -/
def announce (s : Sys) (p : Nat) (start : Time) (random : String) : Option Sys :=
  match s.proc p with
  | .dispatched i cfg state =>
    if cfg.matches state then
      let runID := newRunID (s.options i) random
      some { s.setProc p (.claiming i runID start state) with
        liveRuns := Function.update s.liveRuns i (runID :: s.liveRuns i) }
    else some (s.done p)
  | _ => none

def claim (s : Sys) (p : Nat) : Option Sys :=
  match s.proc p with
  | .claiming i runID start state =>
    let c : RunClaim := ⟨state.nextRunAt, state.runAt, unix start, runID,
      unix start + leaseSeconds (s.options i).runLease⟩
    match claimRun s.stored c with
    | .error _ => some (s.done p)
    | .ok result =>
      let s' := s.apply (.claim c) result
      some (if result.1 then s'.setProc p (.running i runID start state) else s'.done p)
  | _ => none

/-- A renewal of the heartbeat, or the one that confirms a slow claim. -/
def renew (s : Sys) (p : Nat) (now : Time) : Option Sys :=
  match s.proc p with
  | .running i runID _ _ | .finishing i runID _ _ _ _ _ =>
    let leaseUntil := unix now + leaseSeconds (s.options i).runLease
    some (s.apply (.renew runID leaseUntil) (renewRun s.stored runID leaseUntil))
  | _ => none

def body (s : Sys) (p : Nat) (end_ : Time) (success : Bool) : Option Sys :=
  match s.proc p, s.stored with
  | .running i runID start state, some fresh =>
    some (if fresh.lastRunID ≠ runID then s.done p
      else s.setProc p (.finishing i runID start end_ success state fresh))
  | .running _ _ _ _, none => some (s.done p)
  | _, _ => none

def finish (s : Sys) (p : Nat) : Option Sys :=
  match s.proc p with
  | .finishing _ runID start end_ success state fresh =>
    let result : RunResult := ⟨unix start, unix end_,
      if fresh.oneShot then 0 else unix (calculateNextRun cron start fresh), state.runAt,
      fresh.schedule, success⟩
    some ((s.apply (.finish runID result) (finishRun s.stored runID result)).done p)
  | _ => none

/-- `recoverStaleTasks` at the task. -/
def scan (s : Sys) (p i : Nat) (now : Time) : Option Sys :=
  match s.proc p, s.stored with
  | .idle, some state =>
    if runAbandoned (s.options i) (s.liveRuns i) state (unix now)
        (leaseSeconds (s.options i).runLease) then
      some { s.setProc p (.stale i now (fenceOf state)) with
        log := s.log ++ [.scanned p i now state] }
    else none
  | _, _ => none

def restart (s : Sys) (i : Nat) : Sys :=
  { s with
    registered := Function.update s.registered i none
    liveRuns := Function.update s.liveRuns i []
    proc := fun p => if (s.proc p).inst? = some i then .idle else s.proc p }

def step (s : Sys) : Action → Option Sys
  | .register p i cfg now =>
    if s.proc p = .idle then
      match cfg.check cron with
      | .error _ => some s
      | .ok _ => some (s.setProc p (.registering i cfg now maxUpdateAttempts))
    else none
  | .manage p op =>
    if s.proc p = .idle then some (s.setProc p (.managing op maxUpdateAttempts)) else none
  | .read p => s.read p
  | .write p => s.write cron p
  | .update p now => s.update cron p now
  | .tick p i now => s.tick p i now
  | .trigger p i => s.trigger p i
  | .announce p start random => s.announce p start random
  | .claim p => s.claim p
  | .renew p now => s.renew p now
  | .body p end_ success => s.body p end_ success
  | .finish p => s.finish cron p
  | .scan p i now => s.scan p i now
  | .giveUp p => some (s.done p)
  | .restart i => some (s.restart i)

def machine : Machine Sys Action := ⟨step cron⟩

end Sys

end GoAtlas.Scheduler
