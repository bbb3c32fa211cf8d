import GoAtlas.Saga.Protocol

/-!
# The orchestrator obeys the rules

For every phase of a driver, what the log says about its instance: a driver about to save has made
its copy from an instance that was persisted, and one that runs a stage works for its own last
write. An Update that is applied then goes over the instance it was made from, because versions name
instances. One lemma a step shows that the log grows by events the rules allow.
-/

namespace GoAtlas.Saga

open GoAtlas.Lib

variable {defn : Definition} {log : List Event} {d : Nat} {e : Event} {x : Driver}
    {stage step : Nat} {k : Checkpoint} {inst : Instance} {recovering : Bool}
    {end_ : Driver.StageEnd} {w : Work} {op : Op} {now until_ : Int}

/-! ## What the log says about a driver -/

/-- `base` is the driver's last write, with the lease of the given fence. -/
structure Holds (log : List Event) (d fence : Nat) (base : Instance) : Prop where
  last : lastBy d log = some base
  owner : base.leaseOwner = some d
  fence_mem : (d, fence) ∈ acquisitions log

/-- The work of a stage agrees with the callbacks that returned since the last write. -/
structure Tracks (log : List Event) (d : Nat) (op : Op) (stage : Nat) (w : Work) : Prop where
  inProgress : ∀ step ∈ w.inProgress, step ∈ w.steps
  done : ∀ step, DoneBy d log op stage step → step ∈ w.steps ∧ step ∈ w.succeeded
  succeeded : ∀ step ∈ w.succeeded, DoneBy d log op stage step

/-- The steps of a run of compensations: the pending ones at the cursor, or the stage below it. -/
inductive Undoing (defn : Definition) (inst : Instance) : Nat → List Nat → Prop
  | pending (hne : inst.pendingSteps ≠ []) : Undoing defn inst inst.stage
      (inst.pendingSteps.filter (defn.compensates inst.stage))
  | below {stage : Nat} (hnil : inst.pendingSteps = []) (hstage : inst.stage = stage + 1) :
      Undoing defn inst stage
        ((List.range (defn.stepsAt stage).length).filter (defn.compensates stage))

def Conforms (defn : Definition) (log : List Event) (d : Nat) (x : Driver) : Prop :=
  match x.phase with
  | .idle => lastBy d log = none
  | .saving (.acquired _ _) => lastBy d log = none ∧ ∃ base ∈ persisted log,
      base.status.isTerminal = false ∧
        ∃ until_, x.inst = { base with leaseOwner := some d, leaseUntil := some until_ }
  | .saving k => ∃ base, Holds log d x.fence base ∧ Writes defn (DoneBy d log) base k x.inst
  | .acting w => Holds log d x.fence x.inst ∧ x.inst.status = .running ∧
      x.inst.stage < defn.stages.length ∧
      x.inst.pendingSteps = List.range (defn.stepsAt x.inst.stage).length ∧
      w.steps = List.range (defn.stepsAt x.inst.stage).length ∧ Tracks log d .action x.inst.stage w
  | .undoing stage w => Holds log d x.fence x.inst ∧ x.inst.status = .compensating ∧
      Undoing defn x.inst stage w.steps ∧ Tracks log d .compensation stage w
  | .reloaded current => ∃ base ∈ persisted log, base.leaseOwner = some d ∧
      Writes defn (DoneBy d log) base .released current
  | .releasing | .done => True

theorem Undoing.serves {steps : List Nat}
    (h : Undoing defn inst stage steps) (hstatus : inst.status = .compensating)
    (hstep : step ∈ steps) : Serves defn inst .compensation stage step := by
  cases h with
  | pending hne =>
    obtain ⟨hmem, hcomp⟩ := List.mem_filter.mp hstep
    exact .pending hstatus hmem hcomp
  | below hnil hstage => exact .below hstatus hnil hstage (List.mem_filter.mp hstep).2

/-! ## Events of other drivers -/

theorem savedBy_of_other (h : e.driver? ≠ some d) : e.savedBy? d = none := by
  cases e with
  | saved d' =>
    have hne : d' ≠ d := fun heq => h (congrArg some heq)
    simp [Event.savedBy?, hne]
  | _ => rfl

theorem lastBy_other (h : e.savedBy? d = none) : lastBy d (log ++ [e]) = lastBy d log := by
  simp [lastBy_concat, h]

theorem doneBy_concat (h : e.savedBy? d = none) :
    DoneBy d (log ++ [e]) op stage step ↔
      DoneBy d log op stage step ∨ e = .returned d op stage step true := by
  simp [DoneBy, since_concat, h, eq_comm]

theorem doneBy_other (h : e.savedBy? d = none)
    (hr : ∀ op stage step, e ≠ .returned d op stage step true) :
    DoneBy d (log ++ [e]) = DoneBy d log := by
  funext op stage step
  simp [doneBy_concat h, hr]

theorem not_doneBy_saved :
    ¬ DoneBy d (log ++ [.saved d k inst]) op stage step := by
  simp [DoneBy, since_concat, Event.savedBy?]

theorem mem_persisted_concat (h : inst ∈ persisted log) :
    inst ∈ persisted (log ++ [e]) := by
  rw [persisted_concat]
  exact List.mem_append_left _ h

theorem mem_acquisitions_concat {a : Nat × Nat} (h : a ∈ acquisitions log) :
    a ∈ acquisitions (log ++ [e]) := by
  rw [acquisitions_concat]
  exact List.mem_append_left _ h

theorem Holds.concat {fence : Nat} {base : Instance} (h : Holds log d fence base)
    (he : e.savedBy? d = none) : Holds (log ++ [e]) d fence base :=
  ⟨(lastBy_other he).trans h.last, h.owner, mem_acquisitions_concat h.fence_mem⟩

theorem Conforms.frame (h : Conforms defn log d x) (he : e.savedBy? d = none)
    (hr : ∀ op stage step, e ≠ .returned d op stage step true) :
    Conforms defn (log ++ [e]) d x := by
  have hdone : DoneBy d (log ++ [e]) = DoneBy d log := doneBy_other he hr
  have htracks {op : Op} {stage : Nat} {w : Work} (ht : Tracks log d op stage w) :
      Tracks (log ++ [e]) d op stage w := by
    obtain ⟨h₁, h₂, h₃⟩ := ht
    exact ⟨h₁, by rwa [hdone], by rwa [hdone]⟩
  unfold Conforms at h ⊢
  cases hp : x.phase with
  | idle =>
    simp only [hp] at h ⊢
    exact (lastBy_other he).trans h
  | saving k =>
    cases k with
    | acquired =>
      simp only [hp] at h ⊢
      obtain ⟨hlast, base, hbase, hrest⟩ := h
      exact ⟨(lastBy_other he).trans hlast, base, mem_persisted_concat hbase, hrest⟩
    | _ =>
      simp only [hp] at h ⊢
      obtain ⟨base, hholds, hw⟩ := h
      exact ⟨base, hholds.concat he, hdone ▸ hw⟩
  | acting w =>
    simp only [hp] at h ⊢
    obtain ⟨hholds, hstatus, hstage, hpending, hsteps, ht⟩ := h
    exact ⟨hholds.concat he, hstatus, hstage, hpending, hsteps, htracks ht⟩
  | undoing stage w =>
    simp only [hp] at h ⊢
    obtain ⟨hholds, hstatus, hu, ht⟩ := h
    exact ⟨hholds.concat he, hstatus, hu, htracks ht⟩
  | reloaded current =>
    simp only [hp] at h ⊢
    obtain ⟨base, hbase, howner, hw⟩ := h
    exact ⟨base, mem_persisted_concat hbase, howner, hdone ▸ hw⟩
  | releasing | done => trivial

/-! ## The driver's own steps -/

theorem compensates_lt (h : defn.compensates stage step) :
    step < (defn.stepsAt stage).length := by
  unfold Definition.compensates at h
  cases hs : (defn.stepsAt stage)[step]? with
  | none => simp [hs] at h
  | some st => exact (List.getElem?_eq_some_iff.mp hs).1

theorem Tracks.start {stage : Nat} {steps : List Nat}
    (hfresh : ∀ op stage step, ¬ DoneBy d log op stage step) :
    Tracks log d op stage (.start steps) where
  inProgress := by simp [Work.start]
  done := fun step h => absurd h (hfresh op stage step)
  succeeded := by simp [Work.start]

theorem Tracks.call (h : Tracks log d op stage w)
    (hready : w.ready step) : Tracks log d op stage (w.call step) where
  inProgress := by
    simp only [Work.ready, Bool.and_eq_true, decide_eq_true_eq] at hready
    intro s hs
    rcases List.mem_cons.mp hs with rfl | hs
    · exact hready.1.1.1
    · exact h.inProgress s hs
  done := h.done
  succeeded := h.succeeded

theorem Tracks.finish (h : Tracks log d op stage w) (hin : step ∈ w.inProgress) (end_ : CallEnd) :
    Tracks (log ++ [.returned d op stage step (end_ = .success)]) d op stage
      (w.finish step end_) := by
  have hnone : Event.savedBy? d (.returned d op stage step (end_ = .success)) = none := rfl
  have hprogress : ∀ s ∈ w.inProgress.erase step, s ∈ w.steps :=
    fun s hs => h.inProgress s (List.mem_of_mem_erase hs)
  cases end_ with
  | success =>
    refine ⟨hprogress, fun s hs => ?_, fun s hs => (doneBy_concat hnone).mpr ?_⟩
    · rcases (doneBy_concat hnone).mp hs with hold | hnew
      · exact ⟨(h.done s hold).1, List.mem_cons_of_mem _ (h.done s hold).2⟩
      · cases hnew
        exact ⟨h.inProgress step hin, List.mem_cons_self⟩
    · rcases List.mem_cons.mp hs with rfl | hs
      · exact .inr rfl
      · exact .inl (h.succeeded s hs)
  | retry | giveUp =>
    have hdone : DoneBy d (log ++ [.returned d op stage step false]) = DoneBy d log :=
      doneBy_other rfl (by simp)
    refine ⟨hprogress, fun s hs => h.done s ?_, fun s hs => ?_⟩
    · simpa [hdone] using hs
    · simpa [hdone] using h.succeeded s hs

/-- What holds right after a write of the driver. -/
structure Fresh (log : List Event) (d fence : Nat) (base : Instance) : Prop
    extends Holds log d fence base where
  not_done : ∀ op stage step, ¬ DoneBy d log op stage step

theorem conforms_runForward (h : Fresh log d x.fence x.inst) (hstatus : x.inst.status = .running) :
    Conforms defn log d (x.runForward defn) := by
  unfold Driver.runForward
  split
  case isTrue hlt => exact ⟨x.inst, h.toHolds, .intent hstatus hlt⟩
  case isFalse hge => exact ⟨x.inst, h.toHolds, .completed hstatus (Nat.not_lt.mp hge)⟩

theorem conforms_compensate (h : Fresh log d x.fence x.inst)
    (hstatus : x.inst.status = .compensating) : Conforms defn log d (x.compensate defn) := by
  unfold Driver.compensate
  by_cases hpending : x.inst.pendingSteps = []
  · rw [if_neg (by simp [hpending])]
    split
    case isTrue hpos =>
      have hstage : x.inst.stage = x.inst.stage - 1 + 1 := by omega
      exact ⟨h.toHolds, hstatus, .below hpending hstage, .start h.not_done⟩
    case isFalse hzero =>
      exact ⟨x.inst, h.toHolds, .undone hstatus hpending (by omega)⟩
  · rw [if_pos hpending]
    exact ⟨h.toHolds, hstatus, .pending hpending, .start h.not_done⟩

theorem conforms_drive (h : Fresh log d x.fence x.inst) : Conforms defn log d (x.drive defn) := by
  unfold Driver.drive
  cases hs : x.inst.status with
  | running => exact conforms_runForward h hs
  | compensating => exact conforms_compensate h hs
  | completed | compensated | failed => trivial

theorem conforms_execute (hnone : lastBy d log = none) (hinst : inst ∈ persisted log)
    (hlive : inst.status.isTerminal = false) :
    Conforms defn log d (x.execute defn d inst recovering now until_) := by
  unfold Driver.execute
  split
  · trivial
  · split
    · trivial
    · split
      · trivial
      · exact ⟨hnone, inst, hinst, hlive, until_, rfl⟩

theorem conforms_saved_acquired {now : Int} (h : Fresh log d x.inst.version x.inst) :
    Conforms defn log d (x.saved defn (.acquired recovering now)) := by
  simp only [Driver.saved]
  split
  case isTrue hexp =>
    simp only [Driver.expired, Bool.and_eq_true, decide_eq_true_eq] at hexp
    exact ⟨x.inst, h.toHolds, .expired _ hexp.2.1.1 hexp.2.2⟩
  case isFalse => exact conforms_drive h

theorem conforms_saved {done : Op → Nat → Nat → Prop} {base next : Instance}
    (hw : Writes defn done base k next)
    (hx : x.inst = { next with version := x.inst.version })
    (hbase : base.leaseOwner = some d) (hlast : lastBy d log = some x.inst)
    (hfence : (d, x.fence) ∈ acquisitions log)
    (hdone : ∀ op stage step, ¬ DoneBy d log op stage step) :
    Conforms defn log d (x.saved defn k) := by
  have hstatus : x.inst.status = next.status := by rw [hx]
  have howner : x.inst.leaseOwner = next.leaseOwner := by rw [hx]
  have fresh (h : next.leaseOwner = base.leaseOwner) : Fresh log d x.fence x.inst :=
    ⟨⟨hlast, by rw [howner, h, hbase], hfence⟩, hdone⟩
  cases hw with
  | expired => exact conforms_drive (fresh rfl)
  | intent hs hstage =>
    have hst : x.inst.stage = base.stage := by rw [hx]
    have hp : x.inst.pendingSteps = List.range (defn.stepsAt base.stage).length := by rw [hx]
    refine ⟨(fresh rfl).toHolds, hstatus.trans hs, ?_, ?_, rfl, .start hdone⟩
    · exact hst ▸ hstage
    · exact hp.trans (by rw [← hst]; rfl)
  | rollback =>
    simp only [Driver.saved]
    rw [if_neg (by simp [hstatus])]
    exact conforms_compensate (fresh rfl) hstatus
  | failed =>
    simp only [Driver.saved]
    rw [if_pos hstatus]
    trivial
  | committed hs => exact conforms_runForward (fresh rfl) (hstatus.trans hs)
  | pendingUndone hs => exact conforms_compensate (fresh rfl) (hstatus.trans hs)
  | stageUndone _ hs => exact conforms_compensate (fresh rfl) (hstatus.trans hs)
  | completed | undone | compensationFailed | released | dropped => trivial

theorem conforms_saveFailed {err : Err} :
    Conforms defn log d (x.saveFailed err k) := by
  cases k <;> trivial

theorem mem_succeeded {step : Nat} (hall : w.allSucceeded) (hstep : step ∈ w.steps) :
    step ∈ w.succeeded := by
  simpa using List.all_eq_true.mp hall step hstep

theorem conforms_stageRun {x' : Driver} (h : Conforms defn log d { x with phase := .acting w })
    (hx' : x.stageRun defn w end_ = some x') :
    Conforms defn log d x' := by
  obtain ⟨hholds, hstatus, hstage, -, -, ht⟩ := h
  unfold Driver.stageRun at hx'
  cases end_ with
  | cancelled | encodeFails =>
    cases hx'
    trivial
  | normal text =>
    simp only at hx'
    split at hx'
    · cases hx'
      exact ⟨x.inst, hholds, .committed hstatus hstage⟩
    · split at hx'
      · cases hx'
      · split at hx'
        case isTrue hge =>
          cases hx'
          exact ⟨x.inst, hholds, .failed _ _ hstatus hge⟩
        case isFalse hlt =>
          cases hx'
          refine ⟨x.inst, hholds, .rollback _ _ hstatus (Nat.not_le.mp hlt) fun step => ?_⟩
          constructor
          · intro hcompleted
            exact ht.succeeded step (by simpa using (List.mem_filter.mp hcompleted).2)
          · intro hdone
            obtain ⟨hin, hsucc⟩ := ht.done step hdone
            exact List.mem_filter.mpr ⟨hin, by simpa using hsucc⟩

theorem conforms_stageUndone {stage : Nat} {x' : Driver}
    (h : Conforms defn log d { x with phase := .undoing stage w })
    (hx' : x.stageUndone stage w end_ = some x') : Conforms defn log d x' := by
  obtain ⟨hholds, hstatus, hu, ht⟩ := h
  change Undoing defn x.inst stage w.steps at hu
  unfold Driver.stageUndone at hx'
  by_cases hall : w.allSucceeded
  · -- every compensation of the run has returned since the last write
    have hsaved : (if x.inst.pendingSteps ≠ [] then
          some { x with
            inst := { x.inst with pendingSteps := [] }, phase := .saving .pendingUndone }
        else some { x with
          inst := { x.inst with stage := stage }, phase := .saving .stageUndone }) =
          some x' → Conforms defn log d x' := by
      intro hx'
      generalize hsteps : w.steps = steps at hu
      cases hu with
      | pending hne =>
        rw [if_pos hne] at hx'
        cases hx'
        refine ⟨x.inst, hholds, .pendingUndone hstatus hne fun step hstep hcomp => ?_⟩
        refine ht.succeeded step (mem_succeeded hall ?_)
        exact hsteps ▸ List.mem_filter.mpr ⟨hstep, hcomp⟩
      | below hnil hstage =>
        rw [if_neg (not_not.mpr hnil)] at hx'
        cases hx'
        refine ⟨x.inst, hholds, .stageUndone stage hstatus hnil hstage fun step hcomp => ?_⟩
        refine ht.succeeded step (mem_succeeded hall ?_)
        exact hsteps ▸ List.mem_filter.mpr ⟨List.mem_range.mpr (compensates_lt hcomp), hcomp⟩
    rw [if_pos hall] at hx'
    cases end_ with
    | encodeFails =>
      cases hx'
      trivial
    | normal | cancelled => exact hsaved hx'
  · rw [if_neg hall] at hx'
    cases end_ with
    | normal text =>
      simp only at hx'
      split at hx'
      · cases hx'
        exact ⟨x.inst, hholds, .compensationFailed _ hstatus⟩
      · cases hx'
    | cancelled =>
      cases hx'
      trivial
    | encodeFails => cases hx'

theorem conforms_reload {now : Int} {got : Option Instance}
    (hgot : ∀ inst, got = some inst → inst ∈ persisted log) :
    Conforms defn log d (x.reload d now got) := by
  cases got with
  | none => trivial
  | some inst =>
    have hinst := hgot inst rfl
    unfold Driver.reload
    simp only
    split
    case isFalse => trivial
    case isTrue howner =>
      refine ⟨inst, hinst, howner, ?_⟩
      split
      case isTrue hterm => exact .dropped hterm
      case isFalse => exact .released _

/-! ## The system -/

structure Inv (defn : Definition) (s : Sys) : Prop where
  legal : Guarded (Legal defn) s.log
  stored : s.stored = current s.log
  drivers : ∀ d, Conforms defn s.log d (s.driver d)

variable {s s' : Sys} {r : Reply}

theorem Inv.mem_persisted (h : Inv defn s) (hs : s.stored = some inst) :
    inst ∈ persisted s.log :=
  List.mem_of_getLast? (h.stored.symm.trans hs)

theorem inv_initial : Inv defn .initial where
  legal := .nil
  stored := rfl
  drivers := fun _ => rfl

theorem Inv.setDriver (h : Inv defn s) (hx : Conforms defn s.log d x) :
    Inv defn (s.setDriver d x) where
  legal := h.legal
  stored := h.stored
  drivers := by
    intro d'
    by_cases hd : d' = d
    · subst hd
      simpa [Sys.setDriver] using hx
    · simpa [Sys.setDriver, Function.update_of_ne hd] using h.drivers d'

theorem Inv.append (h : Inv defn s) (he : Legal defn s.log e)
    (hd : ∀ d', e.driver? = some d' → d' = d) (hx : Conforms defn (s.log ++ [e]) d x) :
    Inv defn { s.setDriver d x with
      stored := e.persisted?.or s.stored, log := s.log ++ [e] } where
  legal := h.legal.concat he
  stored := by rw [current_concat, h.stored]
  drivers := by
    intro d'
    by_cases heq : d' = d
    · subst heq
      simpa [Sys.setDriver] using hx
    · have hother : e.driver? ≠ some d' := fun hd' => heq (hd d' hd')
      have hkeep := (h.drivers d').frame (savedBy_of_other hother)
        (fun _ _ _ hr => hother (by rw [hr]; rfl))
      simpa [Sys.setDriver, Function.update_of_ne heq] using hkeep

theorem Writes.version_eq {done : Op → Nat → Nat → Prop} {base next : Instance}
    (h : Writes defn done base k next) : next.version = base.version := by
  cases h <;> rfl

/-- An Update either leaves the system as it is, or the stored instance has the version of the
written one and the write is logged. -/
theorem update_cases (s : Sys) (d : Nat) (k : Checkpoint) (inst : Instance) (r : Reply) :
    (∃ err, s.update d k inst r = (s, .error err)) ∨
      ∃ cur, s.stored = some cur ∧ cur.version = inst.version ∧
        s.update d k inst r =
          ({ s with
            stored := some { inst with version := cur.version + 1 }
            log := s.log ++ [.saved d k { inst with version := cur.version + 1 }] },
           if r = .ok then .ok (cur.version + 1) else .error .storage) := by
  unfold Sys.update
  cases hs : s.stored with
  | none => cases r <;> exact .inl ⟨_, rfl⟩
  | some cur =>
    by_cases hv : cur.version = inst.version
    · cases r with
      | fails => exact .inl ⟨_, rfl⟩
      | ok | lost => exact .inr ⟨cur, rfl, hv, by simp [hv]⟩
    · cases r with
      | fails => exact .inl ⟨.storage, rfl⟩
      | ok | lost => exact .inl ⟨.versionConflict, by simp [hv]⟩

section

variable (h : Inv defn s)
include h

theorem Inv.eq_current {base cur : Instance} (hbase : base ∈ persisted s.log)
    (hcur : s.stored = some cur) (hv : cur.version = base.version) : cur = base :=
  eq_of_version (versions_increase h.legal) (h.mem_persisted hcur) hbase hv

theorem Inv.afterSave {next : Instance} (he : Legal defn s.log (.saved d k next))
    (hx : Conforms defn (s.log ++ [.saved d k next]) d x) :
    Inv defn (Sys.setDriver { s with stored := some next, log := s.log ++ [.saved d k next] }
      d x) :=
  h.append he (fun _ hd => (Option.some.inj hd).symm) hx

theorem Inv.save_acquired {now : Int} (hp : (s.driver d).phase = .saving (.acquired recovering now))
    (hs : s.step defn (.save d r) = some s') : Inv defn s' := by
  have hc := h.drivers d
  unfold Conforms at hc
  simp only [hp] at hc
  obtain ⟨hnew, base, hbase, hlive, until_, hinst⟩ := hc
  simp only [Sys.step, hp] at hs
  rcases update_cases s d (.acquired recovering now) (s.driver d).inst r with
    ⟨err, hu⟩ | ⟨cur, hcur, hv, hu⟩
  · rw [hu] at hs
    cases hs
    exact h.setDriver conforms_saveFailed
  · rw [hu] at hs
    obtain rfl : cur = base := h.eq_current hbase hcur (by rw [hv, hinst])
    have he : Legal defn s.log (.saved d (.acquired recovering now)
        { (s.driver d).inst with version := cur.version + 1 }) := by
      rw [hinst]
      exact .acquired d recovering now until_ cur (h.stored.symm.trans hcur) hlive hnew
    by_cases hr : r = .ok
    · simp only [if_pos hr] at hs
      cases hs
      refine h.afterSave he (conforms_saved_acquired ⟨⟨?_, ?_, ?_⟩, ?_⟩)
      · simp [lastBy_concat, Event.savedBy?]
      · rw [hinst]
      · simp [acquisitions_concat, Event.acquired?]
      · exact fun _ _ _ => not_doneBy_saved
    · simp only [if_neg hr] at hs
      cases hs
      exact h.afterSave he conforms_saveFailed

theorem Inv.save_checkpoint {base : Instance}
    (hp : (s.driver d).phase = .saving k) (hholds : Holds s.log d (s.driver d).fence base)
    (hw : Writes defn (DoneBy d s.log) base k (s.driver d).inst)
    (hs : s.step defn (.save d r) = some s') : Inv defn s' := by
  simp only [Sys.step, hp] at hs
  rcases update_cases s d k (s.driver d).inst r with ⟨err, hu⟩ | ⟨cur, hcur, hv, hu⟩
  · rw [hu] at hs
    cases hs
    exact h.setDriver conforms_saveFailed
  · rw [hu] at hs
    obtain rfl : cur = base :=
      h.eq_current (lastBy_mem_persisted hholds.last) hcur (hv.trans hw.version_eq)
    have he : Legal defn s.log (.saved d k { (s.driver d).inst with version := cur.version + 1 }) :=
      .saved d k cur _ (h.stored.symm.trans hcur) hholds.owner hw
    by_cases hr : r = .ok
    · simp only [if_pos hr] at hs
      cases hs
      refine h.afterSave he (conforms_saved hw rfl hholds.owner ?_ ?_ ?_)
      · simp [lastBy_concat, Event.savedBy?]
      · exact mem_acquisitions_concat hholds.fence_mem
      · exact fun _ _ _ => not_doneBy_saved
    · simp only [if_neg hr] at hs
      cases hs
      exact h.afterSave he conforms_saveFailed

theorem Inv.save (hs : s.step defn (.save d r) = some s') :
    Inv defn s' := by
  have hc := h.drivers d
  unfold Conforms at hc
  cases hp : (s.driver d).phase with
  | saving k =>
    cases k with
    | acquired recovering now => exact h.save_acquired hp hs
    | _ =>
      simp only [hp] at hc
      obtain ⟨base, hholds, hw⟩ := hc
      exact h.save_checkpoint hp hholds hw hs
  | _ => simp [Sys.step, hp] at hs

theorem Inv.callback (he : Legal defn s.log e) (hd : e.driver? = some d)
    (hp : e.persisted? = none) (hx : Conforms defn (s.log ++ [e]) d x) :
    Inv defn { s.setDriver d x with log := s.log ++ [e] } := by
  have hsys := h.append he (fun _ hd' => Option.some.inj (hd'.symm.trans hd)) hx
  rw [hp, Option.none_or] at hsys
  exact hsys

theorem Inv.call {step : Nat} (hs : s.call d step = some s') : Inv defn s' := by
  have hc := h.drivers d
  unfold Conforms at hc
  unfold Sys.call at hs
  cases hp : (s.driver d).phase with
  | acting w =>
    simp only [hp] at hc hs
    obtain ⟨hholds, hstatus, hstage, hpending, hsteps, ht⟩ := hc
    split at hs
    case isFalse => cases hs
    case isTrue hready =>
      cases hs
      have hin : step ∈ w.steps := (ht.call hready).inProgress step List.mem_cons_self
      have hlt : step < (defn.stepsAt (s.driver d).inst.stage).length := by
        rw [hsteps] at hin
        exact List.mem_range.mp hin
      refine h.callback (.begun d .action _ step _ (s.driver d).inst hholds.last
        (.action hstatus hstage hpending hlt) hholds.fence_mem) rfl rfl ?_
      have hconf : Conforms defn s.log d { s.driver d with phase := .acting (w.call step) } :=
        ⟨hholds, hstatus, hstage, hpending, hsteps, ht.call hready⟩
      exact hconf.frame rfl (by simp)
  | undoing stage w =>
    simp only [hp] at hc hs
    obtain ⟨hholds, hstatus, hu, ht⟩ := hc
    split at hs
    case isFalse => cases hs
    case isTrue hready =>
      cases hs
      have hin : step ∈ w.steps := (ht.call hready).inProgress step List.mem_cons_self
      refine h.callback (.begun d .compensation stage step _ (s.driver d).inst hholds.last
        (hu.serves hstatus hin) hholds.fence_mem) rfl rfl ?_
      have hconf : Conforms defn s.log d
        { s.driver d with phase := .undoing stage (w.call step) } :=
        ⟨hholds, hstatus, hu, ht.call hready⟩
      exact hconf.frame rfl (by simp)
  | _ => simp [hp] at hs

end

@[simp]
theorem finish_steps (w : Work) (step : Nat) (end_ : CallEnd) :
    (w.finish step end_).steps = w.steps := by
  cases end_ <;> rfl

theorem Inv.finish (h : Inv defn s) {step : Nat} {end_ : CallEnd}
    (hs : s.finish d step end_ = some s') : Inv defn s' := by
  have hc := h.drivers d
  unfold Conforms at hc
  unfold Sys.finish at hs
  cases hp : (s.driver d).phase with
  | acting w =>
    simp only [hp] at hc hs
    obtain ⟨hholds, hstatus, hstage, hpending, hsteps, ht⟩ := hc
    split at hs
    case isFalse => cases hs
    case isTrue hin =>
      cases hs
      have hlt : step < (defn.stepsAt (s.driver d).inst.stage).length :=
        List.mem_range.mp (hsteps ▸ ht.inProgress step hin)
      refine h.callback (.returned d .action _ step _ (s.driver d).inst hholds.last
        (.action hstatus hstage hpending hlt)) rfl rfl ?_
      exact ⟨hholds.concat rfl, hstatus, hstage, hpending, (finish_steps ..).trans hsteps,
        ht.finish hin end_⟩
  | undoing stage w =>
    simp only [hp] at hc hs
    obtain ⟨hholds, hstatus, hu, ht⟩ := hc
    split at hs
    case isFalse => cases hs
    case isTrue hin =>
      cases hs
      refine h.callback (.returned d .compensation stage step _ (s.driver d).inst hholds.last
        (hu.serves hstatus (ht.inProgress step hin))) rfl rfl ?_
      exact ⟨hholds.concat rfl, hstatus, (finish_steps w step end_).symm ▸ hu, ht.finish hin end_⟩
  | _ => simp [hp] at hs

theorem Inv.endStage (h : Inv defn s) (hs : s.endStage defn d end_ = some s') : Inv defn s' := by
  have hc := h.drivers d
  have hself {p : Phase} (hp : (s.driver d).phase = p) :
      Conforms defn s.log d { s.driver d with phase := p } := by
    subst hp
    exact hc
  unfold Sys.endStage at hs
  cases hp : (s.driver d).phase with
  | acting w =>
    simp only [hp] at hs
    split at hs
    case isFalse => cases hs
    case isTrue =>
      obtain ⟨x', hx', rfl⟩ := Option.map_eq_some_iff.mp hs
      exact h.setDriver (conforms_stageRun (hself hp) hx')
  | undoing stage w =>
    simp only [hp] at hs
    split at hs
    case isFalse => cases hs
    case isTrue =>
      obtain ⟨x', hx', rfl⟩ := Option.map_eq_some_iff.mp hs
      exact h.setDriver (conforms_stageUndone (hself hp) hx')
  | _ => simp [hp] at hs

theorem Inv.release (h : Inv defn s) (hs : s.step defn (.release d r) = some s') :
    Inv defn s' := by
  have hc := h.drivers d
  unfold Conforms at hc
  cases hp : (s.driver d).phase with
  | reloaded current =>
    simp only [hp] at hc
    simp only [Sys.step, hp] at hs
    obtain ⟨base, hbase, howner, hw⟩ := hc
    have hdone {log : List Event} {x : Driver} {result : Except Err Nat} :
        Conforms defn log d (x.released current result) := by
      cases result <;> trivial
    rcases update_cases s d .released current r with ⟨err, hu⟩ | ⟨cur, hcur, hv, hu⟩
    · rw [hu] at hs
      cases hs
      exact h.setDriver hdone
    · rw [hu] at hs
      cases hs
      obtain rfl : cur = base := h.eq_current hbase hcur (hv.trans hw.version_eq)
      exact h.afterSave (.saved d .released cur current (h.stored.symm.trans hcur) howner hw) hdone
  | _ => simp [Sys.step, hp] at hs

theorem Inv.start (h : Inv defn s) {deadline : Option Int}
    (hs : s.step defn (.start d deadline now until_ r) = some s') : Inv defn s' := by
  have hc := h.drivers d
  unfold Conforms at hc
  simp only [Sys.step] at hs
  split at hs
  case isFalse => cases hs
  case isTrue hidle =>
    simp only [hidle] at hc
    have hcreated (hnone : s.stored = none) {x : Driver}
        (hx : Conforms defn (s.log ++ [.created (newInstance deadline)]) d x) :
        Inv defn { s.setDriver d x with
          stored := some (newInstance deadline)
          log := s.log ++ [.created (newInstance deadline)] } :=
      h.append (.created deadline (h.stored.symm.trans hnone)) (fun _ hd => nomatch hd) hx
    split at hs
    · cases hs
      exact h
    · cases hs
      refine hcreated ‹_› (conforms_execute ((lastBy_other rfl).trans hc) ?_ rfl)
      simp [persisted_concat, Event.persisted?]
    · cases hs
      exact hcreated ‹_› trivial
    · cases hs
      exact h.setDriver trivial

theorem Inv.resume (h : Inv defn s) {ok : Bool}
    (hs : s.step defn (.resume d recovering now until_ ok) = some s') : Inv defn s' := by
  have hc := h.drivers d
  unfold Conforms at hc
  simp only [Sys.step] at hs
  split at hs
  case isFalse => cases hs
  case isTrue hidle =>
    simp only [hidle] at hc
    split at hs
    · cases hs
      exact h.setDriver trivial
    · cases hs
      exact h.setDriver trivial
    · split at hs
      case isTrue =>
        cases hs
        exact h.setDriver trivial
      case isFalse inst _ hstored hlive =>
        cases hs
        exact h.setDriver (conforms_execute hc (h.mem_persisted hstored) (by simpa using hlive))

theorem inv_step {a : Action} (h : Inv defn s) (hs : (Sys.machine defn).step s a = some s') :
    Inv defn s' := by
  cases a with
  | start d deadline now until_ r => exact h.start hs
  | resume d recovering now until_ ok => exact h.resume hs
  | save d r => exact h.save hs
  | begin_ d step => exact h.call hs
  | finish d step end_ => exact h.finish hs
  | endStage d end_ => exact h.endStage hs
  | release d r => exact h.release hs
  | reload d now ok =>
    simp only [Sys.machine, Sys.step] at hs
    split at hs
    case isFalse => cases hs
    case isTrue =>
      cases hs
      refine h.setDriver (conforms_reload fun inst hinst => ?_)
      cases ok with
      | true => exact h.mem_persisted hinst
      | false => cases hinst
  | kill d =>
    cases hs
    exact h.setDriver trivial

theorem inv_run {actions : List Action} (h : (Sys.machine defn).run .initial actions = some s) :
    Inv defn s :=
  Machine.invariant_run (fun _ _ => True) (Inv defn)
    (fun _ _ _ hi _ hs => inv_step hi hs) inv_initial
    (Machine.along_of_mem (fun _ _ _ => trivial) _) h

/-! ## The state machine of every run -/

theorem run_stateMachine {actions : List Action}
    (h : (Sys.machine defn).run .initial actions = some s) :
    s.stored = current s.log ∧ StateMachine defn s.log :=
  ⟨(inv_run h).stored, stateMachine (inv_run h).legal⟩

def stagesOf (op : Op) (log : List Event) : List Nat :=
  log.filterMap fun
    | .begun _ op' stage _ _ => if op' = op then some stage else none
    | _ => none

def twoStages : Definition where
  name := "order"
  stages := [⟨"reserve", [⟨"reserve", true, false, false⟩]⟩,
    ⟨"charge", [⟨"charge", true, false, false⟩]⟩]
  pivotIdx := 2
  missing := []
  policy := .warn

def interruptedRollback : List Action :=
  [.start 0 none 0 10 .ok, .save 0 .ok, .save 0 .ok, .begin_ 0 0, .finish 0 0 .success,
   .endStage 0 (.normal ""), .save 0 .ok, .save 0 .ok, .begin_ 0 0, .finish 0 0 .giveUp,
   .endStage 0 (.normal "declined"), .save 0 .ok, .begin_ 0 0, .finish 0 0 .success, .kill 0,
   .resume 1 true 20 30 true, .save 1 .ok, .begin_ 1 0, .finish 1 0 .success,
   .endStage 1 (.normal ""), .save 1 .ok, .save 1 .ok]

theorem run_stateMachine_interrupted : ∃ s,
    (Sys.machine twoStages).run .initial interruptedRollback = some s ∧
      s.stored = current s.log ∧ StateMachine twoStages s.log := by
  obtain ⟨s, hs⟩ : ∃ s, (Sys.machine twoStages).run .initial interruptedRollback = some s :=
    ⟨_, rfl⟩
  exact ⟨s, hs, run_stateMachine hs⟩

/-- The stage of the interrupted rollback is compensated by both invocations. -/
theorem interrupted_stage_compensated_twice :
    build "order" twoStages.stages .warn = .ok twoStages ∧ ∃ s,
      (Sys.machine twoStages).run .initial interruptedRollback = some s ∧
        s.stored.map Instance.status = some .compensated ∧
        stagesOf .compensation s.log = [0, 0] ∧
        ¬ (stagesOf .compensation s.log).Pairwise (· > ·) :=
  ⟨rfl, _, rfl, rfl, rfl, by decide⟩

end GoAtlas.Saga
