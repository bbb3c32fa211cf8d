import Mathlib.Logic.Function.Basic
import GoAtlas.Lib.Machine
import GoAtlas.Saga.Definition

/-!
# The orchestrator

`Start`, `Resume` and recovery of one saga instance (`data/saga/orchestrator.go`, `execution.go`,
`recovery.go`) over a storage whose Update compares versions (`storage.go`, `storages/memory`). Each
invocation is a driver; drivers take steps in any order, one storage call or one callback at a time,
and may be killed between any two. A driver mutates its own copy of the instance and then calls
Update, so `saving` holds the copy as it is about to be written. What clocks read, what storage
calls and callbacks return and whether a context is cancelled are arguments of the steps.
-/

namespace GoAtlas.Saga

open GoAtlas.Lib

inductive Status where
  | running | compensating | completed | compensated | failed
  deriving DecidableEq

def Status.isTerminal : Status → Bool
  | .completed | .compensated | .failed => true
  | .running | .compensating => false

/-- A persisted instance. Owners are drivers; a time that is not set is `none`. -/
structure Instance where
  status : Status
  stage : Nat
  pendingSteps : List Nat
  deadline : Option Int
  leaseOwner : Option Nat
  leaseUntil : Option Int
  version : Nat
  lastError : String
  deriving DecidableEq

inductive Err where
  | busy | notFound | versionConflict | alreadyTerminal
  | invalidStage (stage : Nat)
  | invalidPending (step : Nat)
  /-- Another failure of a storage call. -/
  | storage
  | context
  | serialize
  | step (text : String)
  | postPivot (stage text : String)
  | compensationFailed (text : String)
  deriving DecidableEq

inductive CallEnd where
  | success
  /-- The call failed and the retry policy allows another one. -/
  | retry
  | giveUp
  deriving DecidableEq

/-- `runStage`: the steps to run, the calls in progress, and how finished steps ended. -/
structure Work where
  steps : List Nat
  inProgress : List Nat
  succeeded : List Nat
  gaveUp : List Nat
  deriving DecidableEq

namespace Work

def start (steps : List Nat) : Work := ⟨steps, [], [], []⟩

def ready (w : Work) (step : Nat) : Bool :=
  step ∈ w.steps && step ∉ w.inProgress && step ∉ w.succeeded && step ∉ w.gaveUp

def call (w : Work) (step : Nat) : Work := { w with inProgress := step :: w.inProgress }

def finish (w : Work) (step : Nat) : CallEnd → Work
  | .success =>
    { w with inProgress := w.inProgress.erase step, succeeded := step :: w.succeeded }
  | .retry => { w with inProgress := w.inProgress.erase step }
  | .giveUp => { w with inProgress := w.inProgress.erase step, gaveUp := step :: w.gaveUp }

def completed (w : Work) : List Nat := w.steps.filter (· ∈ w.succeeded)

def allSucceeded (w : Work) : Bool := w.steps.all (· ∈ w.succeeded)

def exhausted (w : Work) : Bool := w.steps.all fun i => i ∈ w.succeeded || i ∈ w.gaveUp

end Work

inductive Checkpoint where
  | acquired (recovering : Bool) (now : Int)
  /-- Recovery found the deadline passed. -/
  | expired
  | intent
  | failed
  | committed
  | completed
  | pendingUndone
  | stageUndone
  | undone
  | compensationFailed
  | released
  deriving DecidableEq

inductive Phase where
  | idle
  | saving (k : Checkpoint)
  /-- `runStage` forward. -/
  | acting (w : Work)
  /-- `runStage` of compensations. -/
  | undoing (stage : Nat) (w : Work)
  /-- The deferred release: about to call Get, then Update with what it returned. -/
  | releasing
  | reloaded (current : Instance)
  | done
  deriving DecidableEq

structure Driver where
  inst : Instance
  fence : Nat
  errs : List Err
  phase : Phase
  deriving DecidableEq

def newInstance (deadline : Option Int) : Instance := ⟨.running, 0, [], deadline, none, none, 0, ""⟩

def Driver.init : Driver := ⟨newInstance none, 0, [], .idle⟩

inductive Op where
  | action | compensation
  deriving DecidableEq

inductive Event where
  | created (inst : Instance)
  | saved (d : Nat) (k : Checkpoint) (inst : Instance)
  | begun (d : Nat) (op : Op) (stage step fence : Nat)
  | returned (d : Nat) (op : Op) (stage step : Nat) (ok : Bool)
  deriving DecidableEq

/-! ## One driver -/

namespace Driver

variable (defn : Definition)

def exit (x : Driver) (errs : List Err) : Driver := { x with errs := errs, phase := .releasing }

def abort (x : Driver) (errs : List Err) : Driver := { x with errs := errs, phase := .done }

/-- The head of the loop of `runForward`. -/
def runForward (x : Driver) : Driver :=
  if x.inst.stage < defn.stages.length then
    { x with
      inst := { x.inst with pendingSteps := List.range (defn.stepsAt x.inst.stage).length }
      phase := .saving .intent }
  else { x with inst := { x.inst with status := .completed }, phase := .saving .completed }

/-- The steps of a stage whose compensation is called; the others have nothing to undo. -/
def undoWork (stage : Nat) (steps : List Nat) : Work :=
  .start (steps.filter (defn.compensates stage))

/-- `compensate`: the steps of an unfinished stage first, then the stages below the cursor. -/
def compensate (x : Driver) : Driver :=
  if x.inst.pendingSteps ≠ [] then
    { x with phase := .undoing x.inst.stage (undoWork defn x.inst.stage x.inst.pendingSteps) }
  else if 0 < x.inst.stage then
    { x with phase := .undoing (x.inst.stage - 1) (undoWork defn (x.inst.stage - 1)
      (List.range (defn.stepsAt (x.inst.stage - 1)).length)) }
  else { x with inst := { x.inst with status := .compensated }, phase := .saving .undone }

def drive (x : Driver) : Driver :=
  match x.inst.status with
  | .running => x.runForward defn
  | .compensating => x.compensate defn
  | _ => x.exit x.errs

/-- `execute` up to the Update that takes the lease. -/
def execute (x : Driver) (d : Nat) (inst : Instance) (recovering : Bool) (now until_ : Int) :
    Driver :=
  if defn.stages.length < inst.stage ∨
      (inst.pendingSteps ≠ [] ∧ inst.stage = defn.stages.length) then
    x.abort [.invalidStage inst.stage]
  else
    match inst.pendingSteps.find? fun i => (defn.stepsAt inst.stage).length ≤ i with
    | some i => x.abort [.invalidPending i]
    | none =>
      if inst.leaseUntil.any (now < ·) then x.abort [.busy]
      else
        { x with
          inst := { inst with leaseOwner := some d, leaseUntil := some until_ }
          phase := .saving (.acquired recovering now) }

/-- The deadline has passed and the saga can still be rolled back. -/
def expired (inst : Instance) (now : Int) : Bool :=
  inst.status = .running && inst.deadline.any (· ≤ now) && inst.stage < defn.pivotIdx

/-- What follows an Update that returned no error; the instance has its new version. -/
def saved (x : Driver) : Checkpoint → Driver
  | .acquired recovering now =>
    let x := { x with fence := x.inst.version }
    if recovering && expired defn x.inst now then
      { x with
        inst := { x.inst with
          status := .compensating, lastError := "saga: deadline exceeded; rolling back" }
        phase := .saving .expired }
    else x.drive defn
  | .expired => x.drive defn
  | .intent =>
    { x with phase := .acting (.start (List.range (defn.stepsAt x.inst.stage).length)) }
  | .failed =>
    -- post-pivot failures end the invocation, others go on with the rollback
    if x.inst.status = .failed then x.exit x.errs else x.compensate defn
  | .committed => x.runForward defn
  | .pendingUndone | .stageUndone => x.compensate defn
  | .completed | .undone | .compensationFailed | .released => x.exit x.errs

/-- What follows an Update that returned an error; a new status is taken back. -/
def saveFailed (x : Driver) (e : Err) : Checkpoint → Driver
  | .acquired _ _ => x.abort [e]
  | .failed | .completed => { x with inst := { x.inst with status := .running } }.exit [e]
  | .undone | .compensationFailed =>
    { x with inst := { x.inst with status := .compensating } }.exit [e]
  | _ => x.exit [e]

inductive StageEnd where
  /-- The context is not cancelled; `text` is the first error, if a step gave up. -/
  | normal (text : String)
  | cancelled
  | encodeFails
  deriving DecidableEq

/-- `runForward` after `runStage`. -/
def stageRun (x : Driver) (w : Work) : StageEnd → Option Driver
  | .cancelled => some (x.exit [.context])
  | .encodeFails =>
    some ({ x with inst := { x.inst with pendingSteps := w.completed } }.exit [.serialize])
  | .normal text =>
    if w.allSucceeded then
      some { x with
        inst := { x.inst with pendingSteps := [], stage := x.inst.stage + 1 }
        phase := .saving .committed }
    else if w.gaveUp = [] then none
    else if defn.pivotIdx ≤ x.inst.stage then
      some { x with
        inst := { x.inst with pendingSteps := w.completed, status := .failed, lastError := text }
        errs := [.postPivot (((defn.stages[x.inst.stage]?).map Stage.name).getD "") text]
        phase := .saving .failed }
    else
      some { x with
        inst := { x.inst with
          pendingSteps := w.completed, status := .compensating, lastError := text }
        errs := [.step text]
        phase := .saving .failed }

/-- `compensate` after `runStage`. -/
def stageUndone (x : Driver) (stage : Nat) (w : Work) (e : StageEnd) : Option Driver :=
  if w.allSucceeded then
    match e with
    | .encodeFails => some (x.exit [.serialize])
    | _ =>
      if x.inst.pendingSteps ≠ [] then
        some { x with inst := { x.inst with pendingSteps := [] }, phase := .saving .pendingUndone }
      else some { x with inst := { x.inst with stage := stage }, phase := .saving .stageUndone }
  else
    match e with
    | .normal text =>
      if w.exhausted then
        some { x with
          inst := { x.inst with status := .failed, lastError := text }
          errs := [.compensationFailed text]
          phase := .saving .compensationFailed }
      else none
    | .cancelled => some (x.exit [.context])
    | .encodeFails => none

/-- The deferred release, with what Get returned. -/
def reload (x : Driver) (d : Nat) (now : Int) : Option Instance → Driver
  | none => { x with errs := x.errs ++ [.storage], phase := .done }
  | some current =>
    if current.leaseOwner = some d then
      let current := if current.status.isTerminal
        then { current with leaseOwner := none, leaseUntil := none }
        else { current with leaseUntil := some now }
      { x with phase := .reloaded current }
    else { x with phase := .done }

def released (x : Driver) (current : Instance) : Except Err Nat → Driver
  | .error e => { x with errs := x.errs ++ [e], phase := .done }
  | .ok version =>
    { x with
      inst := { x.inst with
        leaseOwner := current.leaseOwner, leaseUntil := current.leaseUntil, version := version }
      phase := .done }

end Driver

/-! ## The system -/

/-- How a storage call ends: as it should, applied but reported as failed, or not applied. -/
inductive Reply where
  | ok | lost | fails
  deriving DecidableEq

structure Sys where
  stored : Option Instance
  driver : Nat → Driver
  log : List Event

def Sys.initial : Sys := ⟨none, fun _ => .init, []⟩

inductive Action where
  | start (d : Nat) (deadline : Option Int) (now until_ : Int) (r : Reply)
  | resume (d : Nat) (recovering : Bool) (now until_ : Int) (ok : Bool)
  | save (d : Nat) (r : Reply)
  | begin_ (d step : Nat)
  | finish (d step : Nat) (e : CallEnd)
  | endStage (d : Nat) (e : Driver.StageEnd)
  | reload (d : Nat) (now : Int) (ok : Bool)
  | release (d : Nat) (r : Reply)
  | kill (d : Nat)

namespace Sys

variable (defn : Definition)

def setDriver (s : Sys) (d : Nat) (x : Driver) : Sys :=
  { s with driver := Function.update s.driver d x }

/-- `Storage.Update`: compare and swap on the version. -/
def update (s : Sys) (d : Nat) (k : Checkpoint) (inst : Instance) (r : Reply) :
    Sys × Except Err Nat :=
  match s.stored, r with
  | none, .fails | some _, .fails => (s, .error .storage)
  | none, _ => (s, .error .notFound)
  | some cur, r =>
    if cur.version = inst.version then
      let next := { inst with version := cur.version + 1 }
      ({ s with stored := some next, log := s.log ++ [.saved d k next] },
        if r = .ok then .ok next.version else .error .storage)
    else (s, .error .versionConflict)

def call (s : Sys) (d step : Nat) : Option Sys :=
  let x := s.driver d
  match x.phase with
  | .acting w =>
    if w.ready step then
      some { s.setDriver d { x with phase := .acting (w.call step) } with
        log := s.log ++ [.begun d .action x.inst.stage step x.fence] }
    else none
  | .undoing stage w =>
    if w.ready step then
      some { s.setDriver d { x with phase := .undoing stage (w.call step) } with
        log := s.log ++ [.begun d .compensation stage step x.fence] }
    else none
  | _ => none

def finish (s : Sys) (d step : Nat) (e : CallEnd) : Option Sys :=
  let x := s.driver d
  match x.phase with
  | .acting w =>
    if step ∈ w.inProgress then
      some { s.setDriver d { x with phase := .acting (w.finish step e) } with
        log := s.log ++ [.returned d .action x.inst.stage step (e = .success)] }
    else none
  | .undoing stage w =>
    if step ∈ w.inProgress then
      some { s.setDriver d { x with phase := .undoing stage (w.finish step e) } with
        log := s.log ++ [.returned d .compensation stage step (e = .success)] }
    else none
  | _ => none

def endStage (s : Sys) (d : Nat) (e : Driver.StageEnd) : Option Sys :=
  let x := s.driver d
  match x.phase with
  | .acting w => if w.inProgress = [] then (x.stageRun defn w e).map (s.setDriver d) else none
  | .undoing stage w =>
    if w.inProgress = [] then (x.stageUndone stage w e).map (s.setDriver d) else none
  | _ => none

def step (s : Sys) : Action → Option Sys
  | .start d deadline now until_ r =>
    let x := s.driver d
    if x.phase = .idle then
      match s.stored, r with
      -- Start goes on as Resume
      | some _, .ok => some s
      | none, .ok =>
        let inst := newInstance deadline
        some { s.setDriver d (x.execute defn d inst false now until_) with
          stored := some inst, log := s.log ++ [.created inst] }
      | none, .lost =>
        let inst := newInstance deadline
        some { s.setDriver d (x.abort [.storage]) with
          stored := some inst, log := s.log ++ [.created inst] }
      | _, _ => some (s.setDriver d (x.abort [.storage]))
    else none
  | .resume d recovering now until_ ok =>
    let x := s.driver d
    if x.phase = .idle then
      match s.stored, ok with
      | _, false => some (s.setDriver d (x.abort [.storage]))
      | none, true => some (s.setDriver d (x.abort [.notFound]))
      | some inst, true =>
        if inst.status.isTerminal then
          some (s.setDriver d (x.abort (if recovering then [] else [.alreadyTerminal])))
        else some (s.setDriver d (x.execute defn d inst recovering now until_))
    else none
  | .save d r =>
    let x := s.driver d
    match x.phase with
    | .saving k =>
      match s.update d k x.inst r with
      | (s, .ok version) =>
        some (s.setDriver d ({ x with inst := { x.inst with version := version } }.saved defn k))
      | (s, .error e) => some (s.setDriver d (x.saveFailed e k))
    | _ => none
  | .begin_ d step => s.call d step
  | .finish d step e => s.finish d step e
  | .endStage d e => s.endStage defn d e
  | .reload d now ok =>
    let x := s.driver d
    if x.phase = .releasing then
      some (s.setDriver d (x.reload d now (if ok then s.stored else none)))
    else none
  | .release d r =>
    let x := s.driver d
    match x.phase with
    | .reloaded current =>
      let (s, result) := s.update d .released current r
      some (s.setDriver d (x.released current result))
    | _ => none
  | .kill d => some (s.setDriver d { s.driver d with phase := .done })

def machine : Machine Sys Action := ⟨step defn⟩

end Sys

end GoAtlas.Saga
