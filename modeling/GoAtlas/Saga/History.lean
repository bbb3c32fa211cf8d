import GoAtlas.Lib.Trace
import GoAtlas.Saga.Orchestrator

/-!
# The history of an instance

What a run of the drivers leaves is a log of instances written and callbacks called. `Legal` gives
the rules such a log obeys: every write goes from the instance written last to the next one in one
of eleven ways, and every callback belongs to the instance its driver wrote last. The rules speak of
the log alone; that the orchestrator obeys them is proved over the machine, and what the protocol
guarantees is proved from the rules.
-/

namespace GoAtlas.Saga

open GoAtlas.Lib

/-! ## Reading a log -/

namespace Event

def driver? : Event → Option Nat
  | created _ => none
  | saved d _ _ | begun d _ _ _ _ | returned d _ _ _ _ => some d

def persisted? : Event → Option Instance
  | created inst | saved _ _ inst => some inst
  | _ => none

def savedBy? (d : Nat) : Event → Option Instance
  | saved d' _ inst => if d' = d then some inst else none
  | _ => none

/-- The driver that took the lease, with its fence. -/
def acquired? : Event → Option (Nat × Nat)
  | saved d (.acquired _ _) inst => some (d, inst.version)
  | _ => none

end Event

def persisted (log : List Event) : List Instance := states Event.persisted? log

def current (log : List Event) : Option Instance := latest Event.persisted? log

def lastBy (d : Nat) (log : List Event) : Option Instance :=
  (log.filterMap (Event.savedBy? d)).getLast?

/-- The acquisitions of the lease with their fences, oldest first. -/
def acquisitions (log : List Event) : List (Nat × Nat) := log.filterMap Event.acquired?

/-- The driver that acquired the lease last. -/
def holder (log : List Event) : Option Nat := (acquisitions log).getLast?.map Prod.fst

/-- What happened after the driver's last write. -/
def since (d : Nat) (log : List Event) : List Event :=
  log.foldl (fun acc e => if (e.savedBy? d).isSome then [] else acc ++ [e]) []

section

variable (log : List Event) (e : Event)

theorem current_eq : current log = (persisted log).getLast? := rfl

theorem persisted_concat : persisted (log ++ [e]) = persisted log ++ e.persisted?.toList :=
  states_concat ..

theorem current_concat : current (log ++ [e]) = e.persisted?.or (current log) :=
  latest_concat ..

theorem lastBy_concat (d : Nat) : lastBy d (log ++ [e]) = (e.savedBy? d).or (lastBy d log) := by
  cases h : e.savedBy? d <;> simp [lastBy, h]

theorem acquisitions_concat :
    acquisitions (log ++ [e]) = acquisitions log ++ e.acquired?.toList := by
  cases h : e.acquired? <;> simp [acquisitions, h]

theorem holder_concat :
    holder (log ++ [e]) = (e.acquired?.map Prod.fst).or (holder log) := by
  rw [holder, acquisitions_concat]
  cases e.acquired? with
  | none => simp [holder]
  | some a => simp

theorem since_concat (d : Nat) :
    since d (log ++ [e]) = if (e.savedBy? d).isSome then [] else since d log ++ [e] := by
  simp [since]

end

variable {log : List Event} {inst : Instance}

theorem lastBy_mem {d : Nat} (h : lastBy d log = some inst) :
    ∃ k, .saved d k inst ∈ log := by
  obtain ⟨e, he, hs⟩ := List.mem_filterMap.mp (List.mem_of_getLast? h)
  cases e with
  | saved d' k inst' =>
    simp only [Event.savedBy?] at hs
    split at hs
    · cases hs
      subst d'
      exact ⟨k, he⟩
    · cases hs
  | _ => cases hs

theorem mem_persisted {e : Event} (he : e ∈ log)
    (hi : e.persisted? = some inst) : inst ∈ persisted log :=
  mem_states he hi

theorem lastBy_mem_persisted {d : Nat} (h : lastBy d log = some inst) : inst ∈ persisted log := by
  obtain ⟨k, hk⟩ := lastBy_mem h
  exact mem_persisted hk rfl

/-! ## The rules -/

/-- The callback of step `step` of stage `stage` that `base` calls for: forward, every step of the
stage at the cursor, whose intent is persisted; backward, the pending steps of that stage, then all
steps of the stage below it. -/
inductive Serves (defn : Definition) (base : Instance) : Op → Nat → Nat → Prop
  | action {step : Nat} (hstatus : base.status = .running)
    (hstage : base.stage < defn.stages.length)
      (hpending : base.pendingSteps = List.range (defn.stepsAt base.stage).length)
      (hstep : step < (defn.stepsAt base.stage).length) : Serves defn base .action base.stage step
  | pending {step : Nat} (hstatus : base.status = .compensating) (hstep : step ∈ base.pendingSteps)
      (hcomp : defn.compensates base.stage step) : Serves defn base .compensation base.stage step
  | below {stage step : Nat} (hstatus : base.status = .compensating)
    (hpending : base.pendingSteps = [])
      (hstage : base.stage = stage + 1) (hcomp : defn.compensates stage step) :
      Serves defn base .compensation stage step

/-- What a checkpoint of the lease holder makes of the instance before it, up to the version;
`done op stage step` says that the driver's callback succeeded after its last write. -/
inductive Writes (defn : Definition) (done : Op → Nat → Nat → Prop) (base : Instance) :
    Checkpoint → Instance → Prop
  | expired (text : String) (hstatus : base.status = .running)
    (hstage : base.stage < defn.pivotIdx) :
      Writes defn done base .expired { base with status := .compensating, lastError := text }
  | intent (hstatus : base.status = .running) (hstage : base.stage < defn.stages.length) :
      Writes defn done base .intent
        { base with pendingSteps := List.range (defn.stepsAt base.stage).length }
  | rollback (pending : List Nat) (text : String) (hstatus : base.status = .running)
      (hstage : base.stage < defn.pivotIdx)
      (hpending : ∀ step, step ∈ pending ↔ done .action base.stage step) :
      Writes defn done base .failed
        { base with pendingSteps := pending, status := .compensating, lastError := text }
  | failed (pending : List Nat) (text : String) (hstatus : base.status = .running)
      (hstage : defn.pivotIdx ≤ base.stage) :
      Writes defn done base .failed
        { base with pendingSteps := pending, status := .failed, lastError := text }
  | committed (hstatus : base.status = .running) (hstage : base.stage < defn.stages.length) :
      Writes defn done base .committed { base with pendingSteps := [], stage := base.stage + 1 }
  | completed (hstatus : base.status = .running) (hstage : defn.stages.length ≤ base.stage) :
      Writes defn done base .completed { base with status := .completed }
  | pendingUndone (hstatus : base.status = .compensating) (hpending : base.pendingSteps ≠ [])
      (hdone : ∀ step ∈ base.pendingSteps,
        defn.compensates base.stage step → done .compensation base.stage step) :
      Writes defn done base .pendingUndone { base with pendingSteps := [] }
  | stageUndone (stage : Nat) (hstatus : base.status = .compensating)
      (hpending : base.pendingSteps = []) (hstage : base.stage = stage + 1)
      (hdone : ∀ step, defn.compensates stage step → done .compensation stage step) :
      Writes defn done base .stageUndone { base with stage := stage }
  | undone (hstatus : base.status = .compensating) (hpending : base.pendingSteps = [])
      (hstage : base.stage = 0) :
      Writes defn done base .undone { base with status := .compensated }
  | compensationFailed (text : String) (hstatus : base.status = .compensating) :
      Writes defn done base .compensationFailed { base with status := .failed, lastError := text }
  | released (until_ : Option Int) :
      Writes defn done base .released { base with leaseUntil := until_ }
  | dropped (hterminal : base.status.isTerminal) :
      Writes defn done base .released { base with leaseOwner := none, leaseUntil := none }

def DoneBy (d : Nat) (log : List Event) (op : Op) (stage step : Nat) : Prop :=
  .returned d op stage step true ∈ since d log

inductive Legal (defn : Definition) (log : List Event) : Event → Prop
  | created (deadline : Option Int) (hnone : current log = none) :
      Legal defn log (.created (newInstance deadline))
  | acquired (d : Nat) (recovering : Bool) (now until_ : Int) (base : Instance)
      (hcur : current log = some base) (hlive : base.status.isTerminal = false)
      (hnew : lastBy d log = none) :
      Legal defn log (.saved d (.acquired recovering now)
        { base with leaseOwner := some d, leaseUntil := some until_, version := base.version + 1 })
  | saved (d : Nat) (k : Checkpoint) (base next : Instance) (hcur : current log = some base)
      (howner : base.leaseOwner = some d) (hw : Writes defn (DoneBy d log) base k next) :
      Legal defn log (.saved d k { next with version := base.version + 1 })
  | begun (d : Nat) (op : Op) (stage step fence : Nat) (base : Instance)
      (hlast : lastBy d log = some base) (hserves : Serves defn base op stage step)
      (hfence : (d, fence) ∈ acquisitions log) : Legal defn log (.begun d op stage step fence)
  | returned (d : Nat) (op : Op) (stage step : Nat) (ok : Bool) (base : Instance)
      (hlast : lastBy d log = some base) (hserves : Serves defn base op stage step) :
      Legal defn log (.returned d op stage step ok)

end GoAtlas.Saga
