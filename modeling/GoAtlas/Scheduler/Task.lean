import Mathlib.Logic.Basic

/-!
# Tasks and their storage

The persistent state of a scheduled task (`service/scheduler/types.go`) and the writes of the memory
storage (`storages/memory/memory.go`), each one critical section of its mutex. A storage is seen at
one task id: the state stored under it, if any. Times are Unix seconds.
-/

namespace GoAtlas.Scheduler

inductive TaskStatus where
  | unspecified | active | paused | disabled | running | completed
  deriving DecidableEq

structure TaskState where
  id : String
  description : String
  status : TaskStatus
  priority : Int
  schedule : String
  lastRunAt : Int
  nextRunAt : Int
  lastRunID : String
  runStartedAt : Int
  runLeaseUntil : Int
  runLeaseID : String
  runAt : Int
  failures : Int
  skipNextRun : Bool
  disableHistory : Bool
  unmanaged : Bool
  oneShot : Bool
  meta_ : List (String × String)
  createdAt : Int
  updatedAt : Int
  revision : Int
  deriving DecidableEq

/-- The precondition of ReplaceTaskIf. -/
structure TaskFence where
  status : TaskStatus
  nextRunAt : Int
  lastRunID : String
  runStartedAt : Int
  revision : Int
  deriving DecidableEq

def fenceOf (state : TaskState) : TaskFence :=
  ⟨state.status, state.nextRunAt, state.lastRunID, state.runStartedAt, state.revision⟩

structure RunClaim where
  nextRunAt : Int
  runAt : Int
  startedAt : Int
  runID : String
  leaseUntil : Int
  deriving DecidableEq

def RunClaim.validate (c : RunClaim) : Except String Unit :=
  if c.startedAt ≤ 0 then
    .error s!"invalid run claim: StartedAt {c.startedAt} is not positive"
  else if c.runID = "" then .error "invalid run claim: empty RunID"
  else if c.leaseUntil < 0 then .error s!"invalid run claim: LeaseUntil {c.leaseUntil} is negative"
  else .ok ()

structure RunResult where
  startedAt : Int
  endedAt : Int
  nextRunAt : Int
  runAt : Int
  schedule : String
  success : Bool
  deriving DecidableEq

/-! ## The memory storage -/

abbrev Slot := Option TaskState

def createTask (slot : Slot) (state : TaskState) : Bool × Slot :=
  match slot with
  | some cur => (false, some cur)
  | none => (true, some { state with revision := 1 })

def replaceTaskIf (slot : Slot) (state : TaskState) (expect : TaskFence) : Bool × Slot :=
  match slot with
  | none => (false, none)
  | some cur =>
    if fenceOf cur ≠ expect then (false, some cur)
    else (true, some { state with revision := cur.revision + 1 })

def TaskState.claimed (state : TaskState) (claim : RunClaim) : TaskState :=
  { state with
    status := .running
    runStartedAt := claim.startedAt
    lastRunID := claim.runID
    runLeaseUntil := claim.leaseUntil
    runLeaseID := claim.runID
    updatedAt := claim.startedAt
    revision := state.revision + 1 }

def claimRun (slot : Slot) (claim : RunClaim) : Except String (Bool × Slot) := do
  claim.validate
  match slot with
  | none => return (false, none)
  | some state =>
    if state.status ≠ .active ∨ state.runStartedAt ≠ 0 then return (false, some state)
    else if state.nextRunAt ≠ claim.nextRunAt ∨ state.runAt ≠ claim.runAt then
      return (false, some state)
    else return (true, some (state.claimed claim))

def ownsUnfinishedRun (slot : Slot) (runID : String) : Bool :=
  slot.any fun state => runID ≠ "" && state.lastRunID = runID && state.runStartedAt ≠ 0

def TaskState.finished (state : TaskState) (result : RunResult) : TaskState :=
  let executed := state.oneShot && state.runAt = result.runAt
  { state with
    status := if executed then .completed
      else if state.status = .running then .active else state.status
    nextRunAt := if !state.oneShot && state.schedule = result.schedule then result.nextRunAt
      else if executed then 0 else state.nextRunAt
    lastRunAt := result.startedAt
    runStartedAt := 0
    runLeaseUntil := 0
    runLeaseID := ""
    updatedAt := result.endedAt
    failures := if result.success then 0 else state.failures + 1
    revision := state.revision + 1 }

def finishRun (slot : Slot) (runID : String) (result : RunResult) : Bool × Slot :=
  if ownsUnfinishedRun slot runID then (true, slot.map (·.finished result)) else (false, slot)

def TaskState.renewed (state : TaskState) (runID : String) (leaseUntil : Int) : TaskState :=
  { state with
    runLeaseUntil := leaseUntil
    runLeaseID := runID
    revision := state.revision + 1 }

def renewRun (slot : Slot) (runID : String) (leaseUntil : Int) : Bool × Slot :=
  if ownsUnfinishedRun slot runID then (true, slot.map (·.renewed runID leaseUntil))
  else (false, slot)

/-! ## What a write that succeeds is -/

variable {slot slot' : Slot}

def Owns (state : TaskState) (runID : String) : Prop :=
  runID ≠ "" ∧ state.lastRunID = runID ∧ state.runStartedAt ≠ 0

theorem ownsUnfinishedRun_iff {runID : String} :
    ownsUnfinishedRun slot runID ↔ ∃ state, slot = some state ∧ Owns state runID := by
  cases slot with
  | none => simp [ownsUnfinishedRun]
  | some state => simp [ownsUnfinishedRun, Owns, and_assoc]

theorem createTask_cases (slot : Slot) (state : TaskState) :
    (∃ cur, slot = some cur ∧ createTask slot state = (false, slot)) ∨
      (slot = none ∧ createTask slot state = (true, some { state with revision := 1 })) := by
  cases slot with
  | none => exact .inr ⟨rfl, rfl⟩
  | some cur => exact .inl ⟨cur, rfl, rfl⟩

theorem replaceTaskIf_cases (slot : Slot) (state : TaskState) (expect : TaskFence) :
    replaceTaskIf slot state expect = (false, slot) ∨
      ∃ cur, slot = some cur ∧ fenceOf cur = expect ∧
        replaceTaskIf slot state expect =
          (true, some { state with revision := cur.revision + 1 }) := by
  cases slot with
  | none => exact .inl rfl
  | some cur =>
    by_cases h : fenceOf cur = expect
    · exact .inr ⟨cur, rfl, h, by simp [replaceTaskIf, h]⟩
    · exact .inl (by simp [replaceTaskIf, h])

theorem claimRun_cases (slot : Slot) (claim : RunClaim) :
    (∃ err, claimRun slot claim = .error err) ∨ claimRun slot claim = .ok (false, slot) ∨
      ∃ state, slot = some state ∧ 0 < claim.startedAt ∧ claim.runID ≠ "" ∧
        state.status = .active ∧ state.runStartedAt = 0 ∧ state.nextRunAt = claim.nextRunAt ∧
        state.runAt = claim.runAt ∧ claimRun slot claim =
          .ok (true, some (state.claimed claim)) := by
  unfold claimRun
  cases hv : claim.validate with
  | error err => exact .inl ⟨err, rfl⟩
  | ok u =>
    refine .inr ?_
    obtain ⟨hstart, hid⟩ : 0 < claim.startedAt ∧ claim.runID ≠ "" := by
      unfold RunClaim.validate at hv
      split at hv
      · cases hv
      · split at hv
        · cases hv
        · exact ⟨by omega, ‹_›⟩
    cases slot with
    | none => exact .inl rfl
    | some state =>
      by_cases hfree : state.status ≠ .active ∨ state.runStartedAt ≠ 0
      · exact .inl (by simp only [bind, Except.bind, if_pos hfree]; rfl)
      · by_cases hocc : state.nextRunAt ≠ claim.nextRunAt ∨ state.runAt ≠ claim.runAt
        · exact .inl (by simp only [bind, Except.bind, if_neg hfree, if_pos hocc]; rfl)
        · obtain ⟨hactive, hidle⟩ := not_or.mp hfree
          obtain ⟨hnext, hrun⟩ := not_or.mp hocc
          refine .inr ⟨state, rfl, hstart, hid, not_not.mp hactive, not_not.mp hidle,
            not_not.mp hnext, not_not.mp hrun, ?_⟩
          simp only [bind, Except.bind, if_neg hfree, if_neg hocc]
          rfl

/-- A claim that names the stored occurrence of a free active task wins. -/
theorem claimRun_of_claimable {state : TaskState} {claim : RunClaim}
    (hvalid : claim.validate = .ok ()) (hactive : state.status = .active)
    (hfree : state.runStartedAt = 0) (hnext : state.nextRunAt = claim.nextRunAt)
    (hrun : state.runAt = claim.runAt) :
    claimRun (some state) claim = .ok (true, some (state.claimed claim)) := by
  simp [claimRun, hvalid, bind, Except.bind, hactive, hfree, hnext, hrun, pure, Except.pure]

theorem claimRun_of_unfinished {state : TaskState} {claim : RunClaim} (h : state.runStartedAt ≠ 0) :
    ∀ r, claimRun (some state) claim = .ok r → r = (false, some state) := by
  intro r hr
  rcases claimRun_cases (some state) claim with ⟨err, he⟩ | hf | ⟨st, hst, -, -, -, hfree, -⟩
  · rw [he] at hr
    cases hr
  · rw [hf] at hr
    cases hr
    rfl
  · cases hst
    exact absurd hfree h

theorem finishRun_of_not_owner {runID : String} {result : RunResult}
    (h : ¬ ∃ state, slot = some state ∧ Owns state runID) :
    finishRun slot runID result = (false, slot) := by
  rw [finishRun, if_neg (fun ho => h (ownsUnfinishedRun_iff.mp ho))]

theorem renewRun_of_not_owner {runID : String} {leaseUntil : Int}
    (h : ¬ ∃ state, slot = some state ∧ Owns state runID) :
    renewRun slot runID leaseUntil = (false, slot) := by
  rw [renewRun, if_neg (fun ho => h (ownsUnfinishedRun_iff.mp ho))]

theorem finishRun_cases (slot : Slot) (runID : String) (result : RunResult) :
    finishRun slot runID result = (false, slot) ∨
      ∃ state, slot = some state ∧ Owns state runID ∧
        finishRun slot runID result = (true, some (state.finished result)) := by
  by_cases h : ∃ state, slot = some state ∧ Owns state runID
  · obtain ⟨state, rfl, ho⟩ := h
    refine .inr ⟨state, rfl, ho, ?_⟩
    rw [finishRun, if_pos (ownsUnfinishedRun_iff.mpr ⟨state, rfl, ho⟩)]
    rfl
  · exact .inl (finishRun_of_not_owner h)

theorem renewRun_cases (slot : Slot) (runID : String) (leaseUntil : Int) :
    renewRun slot runID leaseUntil = (false, slot) ∨
      ∃ state, slot = some state ∧ Owns state runID ∧
        renewRun slot runID leaseUntil = (true, some (state.renewed runID leaseUntil)) := by
  by_cases h : ∃ state, slot = some state ∧ Owns state runID
  · obtain ⟨state, rfl, ho⟩ := h
    refine .inr ⟨state, rfl, ho, ?_⟩
    rw [renewRun, if_pos (ownsUnfinishedRun_iff.mpr ⟨state, rfl, ho⟩)]
    rfl
  · exact .inl (renewRun_of_not_owner h)

end GoAtlas.Scheduler
