import GoAtlas.Scheduler.Task

/-!
# What the scheduler writes

The states that Register, the management methods, skipping and stale recovery compute from a state
they read (`scheduler_tasks.go`, `scheduler_exec.go`). Instants are nanoseconds since the epoch; a
stored time is `unix` of one. The cron parser is a parameter.
-/

namespace GoAtlas.Scheduler

/-- An instant, in nanoseconds since the epoch. -/
abbrev Time := Int

def second : Int := 1000000000

def unix (t : Time) : Int := t / second

/-- What the cron parser makes of a schedule: the next instant after a given one, if it parses. -/
abbrev Cron := String → Option (Time → Time)

inductive Err where
  | emptyID | nilFunc | scheduleConflict | runAtBeforeEpoch | noSchedule
  | invalidSchedule (schedule : String)
  | taskNotFound | taskUnmanaged | taskNotPaused | taskNotDisabled | taskCompleted
  | concurrentUpdate
  deriving DecidableEq

/-! ## Options and run ids -/

structure Options where
  instanceID : String
  staleTaskTimeout : Int
  runOnStartGrace : Int
  deriving DecidableEq

def minRunLease : Int := 5 * second

def Options.runLease (o : Options) : Int := max o.staleTaskTimeout minRunLease

/-- A lease in whole seconds, rounded up. -/
def leaseSeconds (lease : Int) : Int :=
  if lease % second ≠ 0 then lease / second + 1 else lease / second

/-- The text in front of the last separator, if there is one. -/
def beforeLast (c : Char) : List Char → Option (List Char)
  | [] => none
  | x :: xs =>
    match beforeLast c xs with
    | some front => some (x :: front)
    | none => if x = c then some [] else none

def runOwner (runID : String) : String :=
  match beforeLast '/' runID.toList with
  | none => ""
  | some owner => .ofList owner

def newRunID (o : Options) (random : String) : String := o.instanceID ++ "/" ++ random

/-! ## Registration -/

structure TaskConfig where
  id : String
  description : String
  schedule : String
  hasFunc : Bool
  priority : Int
  runOnStart : Bool
  disableHistory : Bool
  unmanaged : Bool
  /-- `none` for the zero time. -/
  runAt : Option Time
  meta_ : List (String × String)
  deriving DecidableEq

def taskPriorityNormal : Int := 2

namespace TaskConfig

variable (cron : Cron) (cfg : TaskConfig)

def check : Except Err Unit :=
  if cfg.id = "" then .error .emptyID
  else if !cfg.hasFunc then .error .nilFunc
  else
    match cfg.runAt with
    | some t =>
      if cfg.schedule ≠ "" then .error .scheduleConflict
      else if unix t ≤ 0 then .error .runAtBeforeEpoch
      else .ok ()
    | none =>
      if cfg.schedule = "" then .error .noSchedule
      else if (cron cfg.schedule).isNone then .error (.invalidSchedule cfg.schedule)
      else .ok ()

def nextRun (now : Time) : Time :=
  match cfg.runAt with
  | some t => if t < now then now else t
  | none => if cfg.runOnStart then now else ((cron cfg.schedule).map (· now)).getD now

def base (now : Time) : TaskState where
  id := cfg.id
  description := cfg.description
  status := .active
  priority := if cfg.priority = 0 then taskPriorityNormal else cfg.priority
  schedule := cfg.schedule
  lastRunAt := 0
  nextRunAt := unix (cfg.nextRun cron now)
  lastRunID := ""
  runStartedAt := 0
  runLeaseUntil := 0
  runLeaseID := ""
  runAt := (cfg.runAt.map unix).getD 0
  failures := 0
  skipNextRun := false
  disableHistory := cfg.disableHistory
  unmanaged := cfg.unmanaged
  oneShot := cfg.runAt.isSome
  meta_ := cfg.meta_
  createdAt := unix now
  updatedAt := unix now
  revision := 0

end TaskConfig

/-- The completed one-shot task already executed the occurrence. -/
def completedFor (existing : TaskState) (runAt : Int) : Bool :=
  if existing.runAt ≠ 0 then existing.runAt = runAt
  else existing.lastRunAt ≠ 0 && runAt ≤ existing.lastRunAt

def startedWithin (st : TaskState) (now : Time) (grace : Int) : Bool :=
  let last := max st.lastRunAt st.runStartedAt
  if grace ≤ 0 ∨ last = 0 then false else now - last * second < grace

/-- Register's merge with the state that is stored. -/
def TaskConfig.merge (cron : Cron) (o : Options) (cfg : TaskConfig) (now : Time)
    (existing : TaskState) : TaskState :=
  let base := cfg.base cron now
  let nextRunAt :=
    if cfg.runAt.isSome then base.nextRunAt
    else if existing.schedule ≠ cfg.schedule then base.nextRunAt
    else if cfg.runOnStart && !startedWithin existing now o.runOnStartGrace then
      min existing.nextRunAt (unix now)
    else existing.nextRunAt
  let merged := { base with
    createdAt := existing.createdAt
    lastRunAt := existing.lastRunAt
    lastRunID := existing.lastRunID
    runStartedAt := existing.runStartedAt
    runLeaseUntil := existing.runLeaseUntil
    runLeaseID := existing.runLeaseID
    failures := existing.failures
    nextRunAt := nextRunAt }
  if existing.status = .completed ∧ cfg.runAt.isSome ∧ existing.oneShot ∧
      completedFor existing base.runAt then
    { merged with status := .completed, nextRunAt := existing.nextRunAt }
  else if existing.status = .completed then merged
  else { merged with status := existing.status }

/-! ## Management -/

def calculateNextRun (cron : Cron) (from_ : Time) (state : TaskState) : Time :=
  match cron state.schedule with
  | some next => next from_
  | none => from_ + 3600 * second

/-- Back to active: the stored time of a one-shot task, or now if it is past. -/
def TaskState.activated (cron : Cron) (now : Time) (state : TaskState) : TaskState :=
  { state with
    status := .active
    nextRunAt := if state.oneShot then
        if state.nextRunAt < unix now then unix now else state.nextRunAt
      else unix (calculateNextRun cron now state)
    updatedAt := unix now }

inductive Management where
  | pause | resume | disable | enable | skipNextRun
  deriving DecidableEq

/-- What a management method makes of the state it read. -/
def Management.mutate (cron : Cron) (now : Time) (state : TaskState) :
    Management → Except Err TaskState
  | .pause =>
    if state.status = .completed then .error .taskCompleted
    else if state.unmanaged then .error .taskUnmanaged
    else .ok { state with status := .paused, updatedAt := unix now }
  | .resume =>
    if state.status = .completed then .error .taskCompleted
    else if state.status ≠ .paused then .error .taskNotPaused
    else .ok (state.activated cron now)
  | .disable =>
    if state.status = .completed then .error .taskCompleted
    else if state.unmanaged then .error .taskUnmanaged
    else .ok { state with status := .disabled, updatedAt := unix now }
  | .enable =>
    if state.status = .completed then .error .taskCompleted
    else if state.status ≠ .disabled then .error .taskNotDisabled
    else .ok (state.activated cron now)
  | .skipNextRun => .ok { state with skipNextRun := true, updatedAt := unix now }

/-- A management method marks a skip, or stops or activates a task that is not completed. -/
theorem mutate_cases {cron : Cron} {now : Time} {state next : TaskState} {op : Management}
    (h : op.mutate cron now state = .ok next) :
    next = { state with skipNextRun := true, updatedAt := unix now } ∨
    (state.status ≠ .completed ∧ ((∃ status, (status = .paused ∨ status = .disabled) ∧
      next = { state with status := status, updatedAt := unix now }) ∨
        next = state.activated cron now)) := by
  cases op with
  | skipNextRun =>
    cases h
    exact .inl rfl
  | pause | disable | resume | enable =>
    simp only [Management.mutate] at h
    split at h
    · cases h
    · rename_i hopen
      split at h <;> cases h
      exact .inr ⟨hopen, by simp⟩

/-- `applySkip`. -/
def TaskState.skipped (cron : Cron) (now : Time) (state : TaskState) : TaskState :=
  let state := { state with skipNextRun := false, updatedAt := unix now }
  if state.oneShot then { state with status := .completed, nextRunAt := 0 }
  else { state with nextRunAt := unix (calculateNextRun cron now state) }

/-! ## Dispatch and recovery -/

/-- The state is the occurrence the registration was made for. -/
def TaskConfig.matches (cfg : TaskConfig) (state : TaskState) : Bool :=
  match cfg.runAt with
  | none => !state.oneShot
  | some t => state.oneShot && unix t = state.runAt

/-- A lease of its own vouches for the unfinished run. -/
def TaskState.leaseBound (state : TaskState) : Bool :=
  state.runLeaseUntil ≠ 0 && state.runLeaseID ≠ "" && state.runLeaseID = state.lastRunID

/-- Stale recovery of an instance may reset the run at `now`; `live` are the runs it executes. -/
def runAbandoned (o : Options) (live : List String) (state : TaskState) (now leaseSec : Int) :
    Bool :=
  if state.runStartedAt = 0 ∧ state.status ≠ .running then false
  else if state.lastRunID ≠ "" ∧ runOwner state.lastRunID = o.instanceID then
    state.lastRunID ∉ live
  else if state.leaseBound then state.runLeaseUntil < now
  else
    let since := if state.runStartedAt = 0 then state.updatedAt else state.runStartedAt
    let deadline := since + leaseSec
    (if state.runLeaseID = "" then max deadline state.runLeaseUntil else deadline) < now

/-- `resetStaleTask`. -/
def TaskState.reset (cron : Cron) (now : Time) (state : TaskState) : TaskState :=
  let state :=
    if state.status = .running then
      { state with
        status := .active
        nextRunAt := if !state.oneShot && state.schedule ≠ "" then
            unix (calculateNextRun cron now state)
          else if state.oneShot then max state.nextRunAt (unix now) else state.nextRunAt }
    else state
  { state with
    runStartedAt := 0
    runLeaseUntil := 0
    runLeaseID := ""
    failures := state.failures + 1
    updatedAt := unix now }

end GoAtlas.Scheduler
