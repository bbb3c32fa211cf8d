import GoAtlas.Saga.Conformance

/-!
# Completeness of the rollback

An action that returned success is dirty until its compensation returns success. The persisted
instance has to cover every dirty step: it lies below the cursor or is pending at it. The write of a
stage that failed replaces the pending steps by those that succeeded in the driver's own run of the
stage, so it covers a step that an interrupted run left behind only if the step succeeded again.
-/

namespace GoAtlas.Saga

open GoAtlas.Lib

variable {defn : Definition} {log : List Event} {d i j : Nat} {e : Event} {inst : Instance}
    {base : Instance}

/-- The action of the step returned success and no compensation of it has since. -/
def Dirty (log : List Event) (i j : Nat) : Prop :=
  ∃ pre post d, log = pre ++ .returned d .action i j true :: post ∧
    ∀ d', .returned d' .compensation i j true ∉ post

/-- Every compensable step whose action returned success has a later successful compensation. -/
def RolledBack (defn : Definition) (log : List Event) : Prop :=
  ∀ pre post d i j, log = pre ++ .returned d .action i j true :: post → defn.compensates i j →
    ∃ d', .returned d' .compensation i j true ∈ post

theorem rolledBack_iff : RolledBack defn log ↔ ∀ i j, defn.compensates i j → ¬ Dirty log i j := by
  constructor
  · rintro h i j hcomp ⟨pre, post, d, hlog, hnone⟩
    obtain ⟨d', hd'⟩ := h pre post d i j hlog hcomp
    exact hnone d' hd'
  · intro h pre post d i j hlog hcomp
    by_contra hnone
    exact h i j hcomp ⟨pre, post, d, hlog, fun d' hd' => hnone ⟨d', hd'⟩⟩

/-- An action succeeds for the driver that acquired the lease last. -/
def Fenced (pre : List Event) : Event → Prop
  | .returned d .action _ _ true => holder pre = some d
  | _ => True

instance (pre : List Event) : (e : Event) → Decidable (Fenced pre e)
  | .returned d .action _ _ true => inferInstanceAs (Decidable (holder pre = some d))
  | .returned _ .action _ _ false | .returned _ .compensation _ _ _ | .created _ | .saved _ _ _
  | .begun _ _ _ _ _ => .isTrue trivial

/-- No action succeeds for a driver whose lease was superseded. -/
def FencedSuccess (log : List Event) : Prop := Guarded Fenced log

instance (log : List Event) : Decidable (FencedSuccess log) :=
  inferInstanceAs (Decidable (Guarded _ _))

/-- A driver that turns to the rollback after a failed stage has seen every dirty compensable step
of the stage succeed in its own run of the stage. -/
def OwnSuccesses (defn : Definition) (log : List Event) : Prop :=
  Guarded (fun pre e => ∀ d inst, e = .saved d .failed inst → inst.status = .compensating →
    ∀ j, defn.compensates inst.stage j → Dirty pre inst.stage j →
    DoneBy d pre .action inst.stage j) log

theorem Dirty.of_concat (h : Dirty (log ++ [e]) i j) :
    (∃ d, e = .returned d .action i j true) ∨
      (Dirty log i j ∧ ∀ d', e ≠ .returned d' .compensation i j true) := by
  obtain ⟨pre, post, d, hlog, hnone⟩ := h
  rcases split_concat hlog with ⟨-, he, -⟩ | ⟨post', rfl, hlog'⟩
  · exact .inl ⟨d, he.symm⟩
  · refine .inr ⟨⟨pre, post', d, hlog', fun d' hd' => hnone d' (List.mem_append_left _ hd')⟩, ?_⟩
    rintro d' rfl
    exact hnone d' (by simp)

theorem Dirty.of_concat_other (h : Dirty (log ++ [e]) i j)
    (he : ∀ d op stage step ok, e ≠ .returned d op stage step ok) : Dirty log i j := by
  rcases h.of_concat with ⟨d, heq⟩ | ⟨hold, -⟩
  · exact absurd heq (he d .action i j true)
  · exact hold

theorem Dirty.current_ne_none (h : Guarded (Legal defn) log) (hd : Dirty log i j) :
    current log ≠ none := by
  obtain ⟨pre, post, d, rfl, -⟩ := hd
  intro hnone
  have hnil : persisted (pre ++ .returned d .action i j true :: post) = [] :=
    List.getLast?_eq_none_iff.mp hnone
  rw [persisted_append] at hnil
  cases h pre _ _ rfl with
  | returned _ _ _ _ _ base hlast =>
    have hmem := lastBy_mem_persisted hlast
    rw [(List.append_eq_nil_iff.mp hnil).1] at hmem
    cases hmem

/-! ## The driver that holds the lease -/

theorem mem_of_holder (h : holder log = some d) : ∃ k inst, .saved d k inst ∈ log := by
  obtain ⟨⟨_, fence⟩, ha, rfl⟩ := Option.map_eq_some_iff.mp h
  obtain ⟨recovering, now, inst, hsaved, -⟩ := mem_acquisitions (List.mem_of_getLast? ha)
  exact ⟨_, inst, hsaved⟩

theorem current_of_holder (h : Guarded (Legal defn) log) :
    ∀ d, holder log = some d → current log = lastBy d log := by
  refine h.induct (motive := fun log => ∀ d, holder log = some d → current log = lastBy d log)
    (fun d hd => by cases hd) fun log e hlog he ih d hd => ?_
  rw [holder_concat] at hd
  rw [current_concat, lastBy_concat]
  cases he with
  | created deadline hnone =>
    obtain ⟨k, inst, hsaved⟩ := mem_of_holder hd
    have hmem := mem_persisted hsaved rfl
    rw [current_eq, List.getLast?_eq_none_iff] at hnone
    rw [hnone] at hmem
    cases hmem
  | acquired d' =>
    cases hd
    simp [Event.persisted?, Event.savedBy?]
  | saved d' k base next hcur howner hw =>
    have hk : Event.acquired? (.saved d' k { next with version := base.version + 1 }) = none := by
      cases hw <;> rfl
    rw [hk, Option.map_none, Option.none_or] at hd
    have hd' := (owner_holds hlog base d' hcur howner).1
    obtain rfl : d' = d := Option.some.inj (hd'.symm.trans hd)
    simp [Event.persisted?, Event.savedBy?]
  | begun | returned => simpa [Event.persisted?, Event.savedBy?] using ih d hd

theorem since_split (d : Nat) (log : List Event) :
    ∃ front, log = front ++ since d log ∧ lastBy d front = lastBy d log := by
  induction log using List.reverseRecOn with
  | nil => exact ⟨[], rfl, rfl⟩
  | append_singleton log e ih =>
    obtain ⟨front, hlog, hlast⟩ := ih
    rw [since_concat, lastBy_concat]
    cases he : e.savedBy? d with
    | some inst => exact ⟨log ++ [e], by simp, by simp [lastBy_concat, he]⟩
    | none =>
      refine ⟨front, ?_, by simpa using hlast⟩
      simp only [Option.isSome_none, Bool.false_eq_true, if_false]
      rw [← List.append_assoc, ← hlog]

theorem persisted_since (h : Guarded (Legal defn) log)
    (hcur : current log = some base) (hlast : lastBy d log = some base) :
    persisted (since d log) = [] := by
  obtain ⟨front, hlog, hfront⟩ := since_split d log
  have hbase : base ∈ persisted front := lastBy_mem_persisted (hfront.trans hlast)
  have hv := versions_increase h
  rw [hlog] at hcur hv
  exact states_eq_nil (fun _ => Nat.lt_irrefl _) hv hbase hcur

/-- While the lease holder rolls back, no action succeeds. -/
theorem no_success_since (h : Guarded (Legal defn) log) (hf : FencedSuccess log)
    (hcur : current log = some base) (howner : base.leaseOwner = some d)
    (hstatus : base.status = .compensating) (d' i j : Nat) :
    .returned d' .action i j true ∉ since d log := by
  intro hmem
  have hlast := (owner_holds h base d hcur howner).2
  obtain ⟨front, hlog, hfront⟩ := since_split d log
  obtain ⟨a, b, hab⟩ := List.append_of_mem hmem
  have hnil := persisted_since h hcur hlast
  rw [hab, persisted_append] at hnil
  have hsplit : log = (front ++ a) ++ .returned d' .action i j true :: b := by
    rw [hlog, hab, List.append_assoc]
  -- nothing was persisted in between, so the instance and its owner were the same
  have hguard : Guarded (Legal defn) (front ++ a) := by
    rw [hsplit] at h
    exact h.of_append
  have hcur' : current (front ++ a) = some base := by
    rw [current_eq, hlog, hab, persisted_append, persisted_append, hnil, List.append_nil] at hcur
    rw [current_eq, persisted_append, (List.append_eq_nil_iff.mp hnil).1, List.append_nil]
    exact hcur
  obtain ⟨hholder, hlast'⟩ := owner_holds hguard base d hcur' howner
  obtain rfl : d' = d :=
    Option.some.inj ((hf _ _ _ hsplit : holder _ = some d').symm.trans hholder)
  cases h _ _ _ hsplit with
  | returned _ _ _ _ _ base' hbase' hserves =>
    obtain rfl : base' = base := Option.some.inj (hbase'.symm.trans hlast')
    exact absurd (hserves.running.1.symm.trans hstatus) (by decide)

/-- What the lease holder compensated since its last write is not dirty. -/
theorem not_dirty_of_done (h : Guarded (Legal defn) log) (hf : FencedSuccess log)
    (hcur : current log = some base) (howner : base.leaseOwner = some d)
    (hstatus : base.status = .compensating) (hdone : DoneBy d log .compensation i j) :
    ¬ Dirty log i j := by
  rintro ⟨pre, post, d', hlog, hnone⟩
  obtain ⟨front, hsince, -⟩ := since_split d log
  have hclean := no_success_since h hf hcur howner hstatus d' i j
  rcases List.append_eq_append_iff.mp (hsince.symm.trans hlog) with ⟨a, -, ha⟩ | ⟨a, -, ha⟩
  · exact hclean (ha ▸ by simp)
  · cases a with
    | nil =>
      have hs : since d log = .returned d' .action i j true :: post := ha.symm
      exact hclean (by rw [hs]; exact List.mem_cons_self)
    | cons x rest =>
      obtain ⟨-, rfl⟩ := List.cons.inj ha
      exact hnone d (List.mem_append_right _ hdone)

/-! ## Covered steps -/

/-- The instance calls for the compensation of the step, now or once the saga is rolled back. -/
def Covers (inst : Instance) (i j : Nat) : Prop :=
  match inst.status with
  | .running | .compensating => i < inst.stage ∨ (i = inst.stage ∧ j ∈ inst.pendingSteps)
  | .compensated => False
  | .completed | .failed => True

theorem covers_running (h : inst.status = .running) :
    Covers inst i j ↔ i < inst.stage ∨ (i = inst.stage ∧ j ∈ inst.pendingSteps) := by
  simp [Covers, h]

theorem covers_compensating (h : inst.status = .compensating) :
    Covers inst i j ↔ i < inst.stage ∨ (i = inst.stage ∧ j ∈ inst.pendingSteps) := by
  simp [Covers, h]

/-- A write keeps a step covered, unless the driver has compensated it or leaves it out of the
pending steps. -/
theorem Writes.covers {done : Op → Nat → Nat → Prop} {base next : Instance} {k : Checkpoint}
    (hw : Writes defn done base k next) (hcomp : defn.compensates i j) (hbase : Covers base i j)
    (hundone : base.status = .compensating → ¬ done .compensation i j)
    (hown : k = .failed → next.status = .compensating → i = next.stage → done .action i j) :
    Covers next i j := by
  cases hw with
  | expired _ hs => exact (covers_compensating rfl).mpr ((covers_running hs).mp hbase)
  | intent hs =>
    refine (covers_running ?_).mpr ?_
    · exact hs
    rcases (covers_running hs).mp hbase with hlt | ⟨rfl, -⟩
    · exact .inl hlt
    · exact .inr ⟨rfl, List.mem_range.mpr (compensates_lt hcomp)⟩
  | rollback pending _ hs _ hpending =>
    refine (covers_compensating rfl).mpr ?_
    rcases (covers_running hs).mp hbase with hlt | ⟨rfl, -⟩
    · exact .inl hlt
    · exact .inr ⟨rfl, (hpending j).mpr (hown rfl rfl rfl)⟩
  | failed | completed | compensationFailed => trivial
  | committed hs =>
    refine (covers_running ?_).mpr (.inl ?_)
    · exact hs
    rcases (covers_running hs).mp hbase with hlt | ⟨rfl, -⟩
    · exact Nat.lt_succ_of_lt hlt
    · exact Nat.lt_succ_self _
  | pendingUndone hs _ hdone =>
    refine (covers_compensating ?_).mpr (.inl ?_)
    · exact hs
    rcases (covers_compensating hs).mp hbase with hlt | ⟨rfl, hmem⟩
    · exact hlt
    · exact absurd (hdone j hmem hcomp) (hundone hs)
  | stageUndone stage hs hpending hstage hdone =>
    refine (covers_compensating ?_).mpr (.inl ?_)
    · exact hs
    rcases (covers_compensating hs).mp hbase with hlt | ⟨rfl, hmem⟩
    · rcases Nat.lt_succ_iff_lt_or_eq.mp (hstage ▸ hlt) with hlt | rfl
      · exact hlt
      · exact absurd (hdone j hcomp) (hundone hs)
    · rw [hpending] at hmem
      cases hmem
  | undone hs hpending hstage =>
    rcases (covers_compensating hs).mp hbase with hlt | ⟨rfl, hmem⟩
    · exact absurd (hstage ▸ hlt) (Nat.not_lt_zero i)
    · rw [hpending] at hmem
      cases hmem
  | released | dropped => exact hbase

theorem Covers.of_eq {x y : Instance} (h : Covers x i j) (hs : y.status = x.status)
    (hst : y.stage = x.stage) (hp : y.pendingSteps = x.pendingSteps) : Covers y i j := by
  unfold Covers at h ⊢
  rw [hs, hst, hp]
  exact h

/-- Every dirty compensable step is covered by the persisted instance. -/
theorem dirty_covered (h : Guarded (Legal defn) log) (hf : FencedSuccess log)
    (hown : OwnSuccesses defn log) :
    ∀ base, current log = some base → ∀ i j, defn.compensates i j → Dirty log i j →
      Covers base i j := by
  revert hf hown
  refine h.induct (motive := fun log => FencedSuccess log → OwnSuccesses defn log → ∀ base,
    current log = some base → ∀ i j, defn.compensates i j → Dirty log i j → Covers base i j)
    (fun _ _ base hcur => by cases hcur) ?_
  intro log e hlog he ih hf' hown' cur hcur i j hcomp hdirty
  obtain ⟨hf, hfe⟩ := Guarded.of_concat hf'
  obtain ⟨hown, howne⟩ := Guarded.of_concat hown'
  clear hf' hown'
  rw [current_concat] at hcur
  cases he with
  | created deadline hnone =>
    exact absurd hnone (Dirty.current_ne_none hlog (hdirty.of_concat_other (by simp)))
  | acquired d _ _ _ base hbase =>
    cases hcur
    exact (ih hf hown base hbase i j hcomp (hdirty.of_concat_other (by simp))).of_eq rfl rfl rfl
  | saved d k base next hbase howner hw =>
    cases hcur
    have hold := hdirty.of_concat_other (by simp)
    have hnext : Covers next i j := by
      refine hw.covers hcomp (ih hf hown base hbase i j hcomp hold) (fun hstatus hdone => ?_) ?_
      · exact not_dirty_of_done hlog hf hbase howner hstatus hdone hold
      · rintro rfl hstatus rfl
        exact howne d _ rfl hstatus j hcomp hold
    exact hnext.of_eq rfl rfl rfl
  | begun d => exact ih hf hown cur hcur i j hcomp (hdirty.of_concat_other (by simp))
  | returned d op stage step ok base hlast hserves =>
    rcases hdirty.of_concat with ⟨d', heq⟩ | ⟨hold, -⟩
    · cases heq
      -- the lease holder's own write is the persisted one, and it has the step pending
      have hcur' := current_of_holder hlog d hfe
      obtain rfl : cur = base := Option.some.inj (hcur.symm.trans (hcur'.trans hlast))
      cases hserves with
      | action hstatus _ hpending hstep =>
        refine (covers_running hstatus).mpr (.inr ⟨rfl, ?_⟩)
        rw [hpending]
        exact List.mem_range.mpr hstep
    · exact ih hf hown cur hcur i j hcomp hold

/-! ## Steps that are left out -/

/-- The rollback is past the step. -/
def Beyond (i j : Nat) (inst : Instance) : Prop :=
  inst.status ≠ .running ∧ inst.stage ≤ i ∧ (inst.stage = i → j ∉ inst.pendingSteps)

theorem Beyond.over {x y : Instance} (h : Over defn x y) (hx : Beyond i j x) : Beyond i j y := by
  obtain ⟨hstatus, hstage, hpending⟩ := hx
  cases h with
  | acquired => exact ⟨hstatus, hstage, hpending⟩
  | saved _ _ _ hw =>
    cases hw with
    | expired _ hs | intent hs | rollback _ _ hs | failed _ _ hs | committed hs | completed hs =>
      exact absurd hs hstatus
    | pendingUndone => exact ⟨hstatus, hstage, fun _ => List.not_mem_nil⟩
    | stageUndone stage _ hnil hs =>
      refine ⟨hstatus, by simp only; omega, fun _ => ?_⟩
      rw [hnil]
      exact List.not_mem_nil
    | undone | compensationFailed => exact ⟨by simp, hstage, hpending⟩
    | released | dropped => exact ⟨hstatus, hstage, hpending⟩

theorem Beyond.not_serves (h : Beyond i j inst) :
    ¬ Serves defn inst .compensation i j := by
  obtain ⟨-, hstage, hpending⟩ := h
  intro hserves
  cases hserves with
  | pending _ hmem => exact hpending rfl hmem
  | below _ _ hs => omega

/-- A step that the write of a failed stage leaves out is never compensated. -/
theorem left_out {pre post : List Event}
    (h : Guarded (Legal defn) (pre ++ .saved d .failed inst :: post))
    (hstatus : inst.status = .compensating) (hdone : ¬ DoneBy d pre .action inst.stage j)
    (d' : Nat) :
    .returned d' .compensation inst.stage j true ∉ post := by
  intro hmem
  obtain ⟨base, hbase, hrunning, hbeyond⟩ : ∃ base, current pre = some base ∧
      base.status = .running ∧ Beyond inst.stage j inst := by
    cases h pre _ _ rfl with
    | saved _ _ base next hcur _ hw =>
      cases hw with
      | rollback pending _ hs _ hpending =>
        exact ⟨base, hcur, hs, by simp, le_rfl, fun _ hin => hdone ((hpending j).mp hin)⟩
      | failed => cases hstatus
  obtain ⟨a, b, rfl⟩ := List.append_of_mem hmem
  have hsplit : Guarded (Legal defn) ((pre ++ .saved d .failed inst :: a) ++
      .returned d' .compensation inst.stage j true :: b) := by simpa using h
  cases hsplit _ _ _ rfl with
  | returned _ _ _ _ _ last hlast hserves =>
    have hlast := lastBy_mem_persisted hlast
    rw [persisted_append] at hlast
    rcases List.mem_append.mp hlast with hpre | hpost
    · -- before the failed stage nothing was rolled back
      have hrank := (later_current h.of_append hbase hpre).rank_le
      rw [hserves.height_eq.1, hrunning] at hrank
      exact absurd hrank (by decide)
    · have hpairs : (persisted (pre ++ .saved d .failed inst :: a)).Pairwise
          fun x y => Beyond inst.stage j x → Beyond inst.stage j y :=
        persisted_pairwise hsplit.of_append (fun _ _ _ hxy hyz => hyz ∘ hxy)
          fun _ _ => Beyond.over
      rw [persisted_append] at hpairs
      have hlater : last = inst ∨ last ∈ persisted a := by
        simpa [persisted, states, Event.persisted?] using hpost
      rcases hlater with rfl | hin
      · exact hbeyond.not_serves hserves
      · have hcons : (inst :: persisted a).Pairwise
            fun x y => Beyond inst.stage j x → Beyond inst.stage j y :=
          (List.pairwise_append.mp hpairs).2.1
        exact ((List.pairwise_cons.mp hcons).1 last hin hbeyond).not_serves hserves

/-! ## Completeness -/

theorem rolledBack_iff_ownSuccesses (h : Guarded (Legal defn) log) (hf : FencedSuccess log)
    (hcur : current log = some base) (hstatus : base.status = .compensated) :
    RolledBack defn log ↔ OwnSuccesses defn log := by
  constructor
  · rintro hrolled pre e post rfl d inst rfl hs j hcomp ⟨p, q, d₀, rfl, hnone⟩
    by_contra hdone
    obtain ⟨d', hd'⟩ :=
      hrolled p (q ++ .saved d .failed inst :: post) d₀ inst.stage j (by simp) hcomp
    rcases List.mem_append.mp hd' with hq | hrest
    · exact hnone d' hq
    · rcases List.mem_cons.mp hrest with heq | hpost
      · cases heq
      · exact left_out h hs hdone d' hpost
  · intro hown
    refine rolledBack_iff.mpr fun i j hcomp hdirty => ?_
    have hcovers := dirty_covered h hf hown base hcur i j hcomp hdirty
    simp [Covers, hstatus] at hcovers

/-- A rolled back saga has compensated everything exactly if each driver that gave up on a stage had
seen the dirty steps of the stage succeed itself. -/
theorem compensated_rolledBack_iff {actions : List Action} {s : Sys}
    (hrun : (Sys.machine defn).run .initial actions = some s) (hfenced : FencedSuccess s.log)
    (hstored : s.stored = some inst) (hstatus : inst.status = .compensated) :
    RolledBack defn s.log ↔ OwnSuccesses defn s.log :=
  rolledBack_iff_ownSuccesses (inv_run hrun).legal hfenced
    ((inv_run hrun).stored.symm.trans hstored) hstatus

theorem compensated_rolledBack_iff_interrupted : ∃ s inst,
    (Sys.machine twoStages).run .initial interruptedRollback = some s ∧ FencedSuccess s.log ∧
      s.stored = some inst ∧ inst.status = .compensated ∧
      (RolledBack twoStages s.log ↔ OwnSuccesses twoStages s.log) := by
  obtain ⟨s, inst, hrun, hfenced, hstored, hstatus⟩ : ∃ s inst,
      (Sys.machine twoStages).run .initial interruptedRollback = some s ∧ FencedSuccess s.log ∧
        s.stored = some inst ∧ inst.status = .compensated := by
    refine ⟨_, _, rfl, ?_, rfl, rfl⟩
    decide
  exact ⟨s, inst, hrun, hfenced, hstored, hstatus,
    compensated_rolledBack_iff hrun hfenced hstored hstatus⟩

def oneStage : Definition where
  name := "order"
  stages := [⟨"reserve", [⟨"reserve", true, false, false⟩]⟩]
  pivotIdx := 1
  missing := []
  policy := .warn

/-- The action succeeds, the process is killed before the stage is persisted, and the action fails
when it is run again. -/
def rerunFails : List Action :=
  [.start 0 none 0 10 .ok, .save 0 .ok, .save 0 .ok, .begin_ 0 0, .finish 0 0 .success, .kill 0,
   .resume 1 true 20 30 true, .save 1 .ok, .save 1 .ok, .begin_ 1 0, .finish 1 0 .giveUp,
   .endStage 1 (.normal "declined"), .save 1 .ok, .save 1 .ok]

theorem rerun_leaves_effect : build "order" oneStage.stages .warn = .ok oneStage ∧
    ∃ s, (Sys.machine oneStage).run .initial rerunFails = some s ∧ FencedSuccess s.log ∧
      s.stored.map Instance.status = some .compensated ∧ ¬ RolledBack oneStage s.log := by
  refine ⟨rfl, _, rfl, by decide, rfl, fun h => ?_⟩
  obtain ⟨d', hd'⟩ := h _ _ 0 0 0 (show _ = [_, _, _, _] ++ _ :: _ from rfl) rfl
  simp at hd'

end GoAtlas.Saga
