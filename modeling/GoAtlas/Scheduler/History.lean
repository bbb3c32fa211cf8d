import Mathlib.Algebra.Order.Group.Unbundled.Int
import GoAtlas.Lib.Trace
import GoAtlas.Scheduler.System

/-!
# The history of a task

The rules the log of a task obeys: every write takes the state stored before it to what one of the
operations computes from it, because a fenced write goes over the state it was computed from.
-/

namespace GoAtlas.Scheduler

open GoAtlas.Lib

def Event.after? : Event → Option TaskState
  | .wrote _ _ after => some after
  | .scanned _ _ _ _ => none

def stored (log : List Event) : Slot := latest Event.after? log

/-- Recovery may reset the run: it saw it abandoned, and nothing was written since. -/
def SeenStale (options : Nat → Options) (log : List Event) (p i : Nat) (now : Time)
    (state : TaskState) : Prop :=
  ∃ pre mid live, log = pre ++ .scanned p i now state :: mid ∧ (∀ e ∈ mid, e.after? = none) ∧
    runAbandoned (options i) live state (unix now) (leaseSeconds (options i).runLease)

/-- A run of the id was claimed for the occurrence. -/
def ClaimedFor (log : List Event) (runID : String) (runAt : Int) : Prop :=
  ∃ claim before after, .wrote (.claim claim) before after ∈ log ∧ claim.runID = runID ∧
    claim.runAt = runAt

/-- The write of each operation over the state before it, up to the revision. -/
inductive Writes (cron : Cron) (options : Nat → Options) (log : List Event) (state : TaskState) :
    Cause → TaskState → Prop
  | register (i : Nat) (cfg : TaskConfig) (now : Time) (hcheck : cfg.check cron = .ok ()) :
      Writes cron options log state (.register i cfg now) (cfg.merge cron (options i) now state)
  | manage (op : Management) (now : Time) (next : TaskState)
      (hnext : op.mutate cron now state = .ok next) : Writes cron options log state
      (.manage op now) next
  | skip (now : Time) (hactive : state.status = .active) (hfree : state.runStartedAt = 0) :
      Writes cron options log state (.skip now) (state.skipped cron now)
  | reset (p i : Nat) (now : Time) (hstale : SeenStale options log p i now state) :
      Writes cron options log state (.reset p i now) (state.reset cron now)
  | claim (claim : RunClaim) (hstart : 0 < claim.startedAt) (hid : claim.runID ≠ "")
      (hactive : state.status = .active) (hfree : state.runStartedAt = 0)
      (hnext : state.nextRunAt = claim.nextRunAt) (hrun : state.runAt = claim.runAt) :
      Writes cron options log state (.claim claim) (state.claimed claim)
  | renew (runID : String) (leaseUntil : Int) (howns : Owns state runID) :
      Writes cron options log state (.renew runID leaseUntil) (state.renewed runID leaseUntil)
  | finish (runID : String) (result : RunResult) (howns : Owns state runID)
      (hclaimed : ClaimedFor log runID result.runAt) :
      Writes cron options log state (.finish runID result) (state.finished result)

inductive Legal (cron : Cron) (options : Nat → Options) (log : List Event) : Event → Prop
  | create (i : Nat) (cfg : TaskConfig) (now : Time) (hcheck : cfg.check cron = .ok ())
      (hnone : stored log = none) :
      Legal cron options log
        (.wrote (.create i cfg now) none { cfg.base cron now with revision := 1 })
  | wrote (cause : Cause) (before after : TaskState) (hbefore : stored log = some before)
      (hw : Writes cron options log before cause after) :
      Legal cron options log
        (.wrote cause (some before) { after with revision := before.revision + 1 })
  | scanned (p i : Nat) (now : Time) (state : TaskState) (hstate : stored log = some state)
      (live : List String) (hab : runAbandoned (options i) live state (unix now)
        (leaseSeconds (options i).runLease)) :
      Legal cron options log (.scanned p i now state)

variable {cron : Cron} {options : Nat → Options} {log : List Event} {x y : TaskState}

/-! ## Revisions -/

theorem Legal.revision_lt {e : Event} (h : Legal cron options log e)
    (hx : stored log = some x) (hy : e.after? = some y) : x.revision < y.revision := by
  cases h with
  | create _ _ _ _ hnone => rw [hnone] at hx; cases hx
  | wrote cause before after hbefore =>
    obtain rfl : before = x := Option.some.inj (hbefore.symm.trans hx)
    cases hy
    exact Int.lt_succ _
  | scanned => cases hy

theorem revisions_increase (h : Guarded (Legal cron options) log) :
    (states Event.after? log).Pairwise (·.revision < ·.revision) :=
  h.pairwise (fun _ _ _ => Int.lt_trans) fun _ _ _ _ => Legal.revision_lt

/-- A state with the revision of the stored one is the stored one. -/
theorem eq_of_revision (h : Guarded (Legal cron options) log)
    (hx : x ∈ states Event.after? log) (hy : stored log = some y) (hr : y.revision = x.revision) :
    y = x :=
  eq_of_version (revisions_increase h) (mem_of_latest hy) hx hr

/-- A fence over a state that was stored admits a write only over that state. -/
theorem eq_of_fence (h : Guarded (Legal cron options) log)
    (hx : x ∈ states Event.after? log) (hy : stored log = some y) (hf : fenceOf y = fenceOf x) :
    y = x :=
  eq_of_revision h hx hy (congrArg TaskFence.revision hf)

end GoAtlas.Scheduler
