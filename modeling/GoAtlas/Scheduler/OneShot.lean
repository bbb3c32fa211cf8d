import GoAtlas.Scheduler.Ownership

/-!
# One-shot tasks

A one-shot task whose occurrence was executed is completed, and stays so until a registration moves
it to another occurrence. A registration for another occurrence while a run is unfinished stays
pending, at no earlier time, until that occurrence is executed, skipped or registered anew.
-/

namespace GoAtlas.Scheduler

open GoAtlas.Lib

variable {cron : Cron} {options : Nat → Options} {log : List Event} {r n : Int} {state : TaskState}
    {now : Time} {before after : TaskState} {result : RunResult} {cfg : TaskConfig}
    {x y : TaskState}

/-! ## The occurrence of a task -/

theorem merge_occurrence (cron : Cron) (o : Options) (cfg : TaskConfig) (now : Time)
    (existing : TaskState) :
    (cfg.merge cron o now existing).oneShot = cfg.runAt.isSome ∧
      (cfg.merge cron o now existing).runAt = (cfg.runAt.map unix).getD 0 := by
  unfold TaskConfig.merge
  simp only
  split
  · exact ⟨rfl, rfl⟩
  · split <;> exact ⟨rfl, rfl⟩

theorem mutate_occurrence {op : Management} {state next : TaskState}
    (h : op.mutate cron now state = .ok next) :
    next.oneShot = state.oneShot ∧ next.runAt = state.runAt := by
  obtain rfl | ⟨-, ⟨_, -, rfl⟩ | rfl⟩ := mutate_cases h <;> exact ⟨rfl, rfl⟩

theorem skipped_occurrence :
    (state.skipped cron now).oneShot = state.oneShot ∧
      (state.skipped cron now).runAt = state.runAt := by
  unfold TaskState.skipped
  simp only
  split <;> exact ⟨rfl, rfl⟩

theorem reset_occurrence :
    (state.reset cron now).oneShot = state.oneShot ∧ (state.reset cron now).runAt =
    state.runAt := by
  unfold TaskState.reset
  simp only
  split <;> exact ⟨rfl, rfl⟩

/-- Only a registration moves a task to another occurrence. -/
theorem Writes.occurrence {cause : Cause} (hw : Writes cron options log before cause after)
    (hc : ∀ i cfg now, cause ≠ .register i cfg now) :
    after.oneShot = before.oneShot ∧ after.runAt = before.runAt := by
  cases hw with
  | register i cfg now => exact absurd rfl (hc i cfg now)
  | manage _ _ _ hnext => exact mutate_occurrence hnext
  | skip => exact skipped_occurrence
  | reset => exact reset_occurrence
  | claim | renew | finish => exact ⟨rfl, rfl⟩

/-! ## Executed occurrences -/

structure Done (r : Int) (state : TaskState) : Prop where
  oneShot : state.oneShot
  runAt : state.runAt = r
  status : state.status = .completed
  free : state.runStartedAt = 0

theorem finished_done (hone : state.oneShot)
    (hrun : state.runAt = result.runAt) : Done result.runAt (state.finished result) := by
  refine ⟨hone, hrun, ?_, rfl⟩
  simp [TaskState.finished, hone, hrun]

/-- Registering a completed task for its own occurrence keeps it completed. -/
theorem Done.merge {o : Options} (h : Done r state) (hcheck : cfg.check cron = .ok ())
    (hone : (cfg.merge cron o now state).oneShot)
    (hrun : (cfg.merge cron o now state).runAt = r) : Done r (cfg.merge cron o now state) := by
  refine ⟨hone, hrun, ?_, merge_sameRun.runStartedAt.trans h.free⟩
  obtain ⟨hisSome, hrunAt⟩ := merge_occurrence cron o cfg now state
  have hsome : cfg.runAt.isSome := hisSome ▸ hone
  obtain ⟨t, ht⟩ := Option.isSome_iff_exists.mp hsome
  have hpos : 0 < unix t := by
    unfold TaskConfig.check at hcheck
    split at hcheck
    · cases hcheck
    · split at hcheck
      · cases hcheck
      · simp only [ht] at hcheck
        split at hcheck
        · cases hcheck
        · split at hcheck
          · cases hcheck
          · omega
  have hbase : (cfg.base cron now).runAt = state.runAt := by
    rw [h.runAt, ← hrun, hrunAt]
    rfl
  have hne : state.runAt ≠ 0 := by
    rw [← hbase]
    simp only [TaskConfig.base, ht, Option.map_some, Option.getD_some]
    exact hpos.ne'
  have hfor : completedFor state (cfg.base cron now).runAt := by
    simp [completedFor, hne, hbase]
  unfold TaskConfig.merge
  simp only
  rw [if_pos ⟨h.status, hsome, h.oneShot, hfor⟩]

theorem Done.not_abandoned {o : Options} {live : List String}
    {now leaseSec : Int} (h : Done r state) : runAbandoned o live state now leaseSec = false := by
  unfold runAbandoned
  rw [if_pos ⟨h.free, by simp [h.status]⟩]

theorem Done.not_owned {runID : String} (h : Done r state) :
    ¬ Owns state runID :=
  fun howns => howns.2.2 h.free

/-- A completed task stays completed while its occurrence stays. -/
theorem Writes.done {cause : Cause}
    (hw : Writes cron options log before cause after) (h : Done r before)
    (hone : after.oneShot) (hrun : after.runAt = r) : Done r after := by
  cases hw with
  | register i cfg now hcheck => exact h.merge hcheck hone hrun
  | manage op now next hnext =>
    obtain rfl | ⟨hopen, -⟩ := mutate_cases hnext
    · exact ⟨hone, hrun, h.status, h.free⟩
    · exact absurd h.status hopen
  | skip _ hactive => exact absurd (hactive.symm.trans h.status) (by decide)
  | reset _ _ _ hstale =>
    obtain ⟨_, _, live, -, -, hab⟩ := hstale
    rw [h.not_abandoned] at hab
    cases hab
  | claim _ _ _ hactive => exact absurd (hactive.symm.trans h.status) (by decide)
  | renew _ _ howns => exact absurd howns h.not_owned
  | finish _ _ howns => exact absurd howns h.not_owned

/-! ## Occurrences that wait -/

/-- The one-shot task waits for the occurrence, not before `n`. -/
structure Awaits (r n : Int) (state : TaskState) : Prop where
  oneShot : state.oneShot
  runAt : state.runAt = r
  status : state.status ≠ .completed
  nextRunAt : n ≤ state.nextRunAt

theorem Awaits.activated (h : Awaits r n state) :
    Awaits r n (state.activated cron now) := by
  refine ⟨h.oneShot, h.runAt, by simp [TaskState.activated], ?_⟩
  have hn := h.nextRunAt
  simp only [TaskState.activated, h.oneShot, if_true]
  split <;> omega

theorem Awaits.mutate {op : Management} {state next : TaskState} (h : Awaits r n state)
    (hnext : op.mutate cron now state = .ok next) : Awaits r n next := by
  obtain rfl | ⟨-, ⟨status, hstatus, rfl⟩ | rfl⟩ := mutate_cases hnext
  · exact ⟨h.oneShot, h.runAt, h.status, h.nextRunAt⟩
  · exact ⟨h.oneShot, h.runAt, by rcases hstatus with rfl | rfl <;> simp, h.nextRunAt⟩
  · exact h.activated

theorem Awaits.reset (h : Awaits r n state) :
    Awaits r n (state.reset cron now) := by
  refine ⟨reset_occurrence.1.trans h.oneShot, reset_occurrence.2.trans h.runAt, ?_, ?_⟩
  · unfold TaskState.reset
    simp only
    split
    · simp
    · exact h.status
  · have hn := h.nextRunAt
    unfold TaskState.reset
    simp only
    split
    · simp only [h.oneShot, Bool.not_true, Bool.false_and, Bool.false_eq_true, if_false, if_true]
      omega
    · exact hn

theorem Awaits.finished (h : Awaits r n state)
    (hresult : result.runAt ≠ r) : Awaits r n (state.finished result) := by
  have hne : state.runAt ≠ result.runAt := fun heq => hresult (heq ▸ h.runAt)
  refine ⟨h.oneShot, h.runAt, ?_, ?_⟩
  · simp only [TaskState.finished, hne, decide_false, Bool.and_false, Bool.false_eq_true, if_false]
    split
    · decide
    · exact h.status
  · simpa [TaskState.finished, hne, h.oneShot] using h.nextRunAt

/-- What neither registers, skips nor executes the occurrence leaves it waiting. -/
theorem Writes.awaits {cause : Cause}
    (hw : Writes cron options log before cause after) (h : Awaits r n before)
    (hregister : ∀ i cfg now, cause ≠ .register i cfg now) (hskip : ∀ now, cause ≠ .skip now)
    (hfinish : ∀ runID result, cause = .finish runID result → result.runAt ≠ r) :
    Awaits r n after := by
  cases hw with
  | register i cfg now => exact absurd rfl (hregister i cfg now)
  | manage _ _ _ hnext => exact h.mutate hnext
  | skip now => exact absurd rfl (hskip now)
  | reset => exact h.reset
  | claim => exact ⟨h.oneShot, h.runAt, by simp [TaskState.claimed], h.nextRunAt⟩
  | renew => exact ⟨h.oneShot, h.runAt, h.status, h.nextRunAt⟩
  | finish runID result => exact h.finished (hfinish runID result rfl)

/-! ## Whole logs -/

theorem Done.of_eq (h : Done r x) (h₁ : y.oneShot = x.oneShot)
    (h₂ : y.runAt = x.runAt) (h₃ : y.status = x.status) (h₄ : y.runStartedAt = x.runStartedAt) :
    Done r y :=
  ⟨h₁.trans h.oneShot, h₂.trans h.runAt, h₃.trans h.status, h₄.trans h.free⟩

theorem Awaits.of_eq (h : Awaits r n x) (h₁ : y.oneShot = x.oneShot)
    (h₂ : y.runAt = x.runAt) (h₃ : y.status = x.status) (h₄ : y.nextRunAt = x.nextRunAt) :
    Awaits r n y :=
  ⟨h₁.trans h.oneShot, h₂.trans h.runAt, h₃ ▸ h.status, h₄ ▸ h.nextRunAt⟩

theorem completed_free (h : Guarded (Legal cron options) log) :
    ∀ state, stored log = some state → state.status = .completed → state.runStartedAt = 0 := by
  refine h.induct (motive := fun log => ∀ state, stored log = some state →
    state.status = .completed → state.runStartedAt = 0) (fun _ hs => by cases hs) ?_
  intro log e _ he ih state hstate hstatus
  rw [stored, latest_concat] at hstate
  cases he with
  | scanned => exact ih state hstate hstatus
  | create =>
    cases hstate
    cases hstatus
  | wrote cause before next hbefore hw =>
    cases hstate
    have hold := ih before hbefore
    cases hw with
    | register i cfg now =>
      refine merge_sameRun.runStartedAt.trans (hold ?_)
      by_contra hne
      have hkeep : (cfg.merge cron (options i) now before).status = before.status := by
        unfold TaskConfig.merge
        simp only
        rw [if_neg (fun hc => hne hc.1), if_neg hne]
      exact hne (hkeep ▸ hstatus)
    | manage op now _ hnext =>
      refine (mutate_sameRun hnext).runStartedAt.trans (hold ?_)
      obtain rfl | ⟨-, ⟨_, rfl | rfl, rfl⟩ | rfl⟩ := mutate_cases hnext
      · exact hstatus
      all_goals cases hstatus
    | skip _ _ hfree => exact skipped_sameRun.runStartedAt.trans hfree
    | reset => rfl
    | claim => cases hstatus
    | renew => exact hold hstatus
    | finish => rfl

theorem executed_once {pre mid post : List Event} {runID : String}
    {b b' : Slot} {a a' state : TaskState} {claim : RunClaim}
    (h : Guarded (Legal cron options) (pre ++ .wrote (.finish runID result) b a ::
      (mid ++ .wrote (.claim claim) b' a' :: post)))
    (hb' : b' = some state) (hone : state.oneShot) (hrun : state.runAt = result.runAt) :
    ∃ i cfg now x y, .wrote (.register i cfg now) (some x) y ∈ mid ∧
      (y.oneShot ≠ x.oneShot ∨ y.runAt ≠ x.runAt) := by
  by_contra hnone
  have hstay : ∀ i cfg now x y, .wrote (.register i cfg now) (some x) y ∈ mid →
      y.oneShot = x.oneShot ∧ y.runAt = x.runAt := by
    intro i cfg now x y hmem
    by_contra hne
    exact hnone ⟨i, cfg, now, x, y, hmem, not_and_or.mp hne⟩
  have hsplit : Guarded (Legal cron options)
      (((pre ++ [.wrote (.finish runID result) b a]) ++ mid) ++ .wrote (.claim claim)
        b' a' :: post) := by
    simpa using h
  have hstored : stored (pre ++ [.wrote (.finish runID result) b a]) = some a := by
    rw [stored, latest_concat]
    rfl
  have hdone : a.oneShot → a.runAt = result.runAt → Done result.runAt a := by
    obtain ⟨-, ⟨-, _, _, _, hc⟩ | ⟨st, next, -, hw, rfl⟩⟩ := (h pre _ _ rfl).wrote_inv
    · cases hc
    · cases hw with
      | finish =>
        intro h₁ h₂
        have hd : Done result.runAt (st.finished result) := finished_done h₁ h₂
        exact hd.of_eq rfl rfl rfl rfl
  -- until the claim the occurrence is the one that was finished
  obtain ⟨last, hlast, h₁, h₂, h₃⟩ := hsplit.of_append.kept (Q := fun x => x.oneShot = a.oneShot ∧
      x.runAt = a.runAt ∧ (a.oneShot → a.runAt = result.runAt → Done result.runAt x))
    hstored ⟨rfl, rfl, hdone⟩ fun log e x y he hmem hx hy hq => by
      obtain ⟨cause, next, rfl, hw, rfl⟩ := he.over hx hy
      obtain ⟨hq₁, hq₂, hq₃⟩ := hq
      have hocc : next.oneShot = x.oneShot ∧ next.runAt = x.runAt := by
        by_cases hreg : ∃ i cfg now, cause = .register i cfg now
        · obtain ⟨i, cfg, now, rfl⟩ := hreg
          have hs := hstay i cfg now x _ hmem
          exact hs
        · exact hw.occurrence fun i cfg now hc => hreg ⟨i, cfg, now, hc⟩
      refine ⟨hocc.1.trans hq₁, hocc.2.trans hq₂, fun ha₁ ha₂ => ?_⟩
      exact (hw.done (hq₃ ha₁ ha₂) (by rw [hocc.1, hq₁, ha₁]) (by rw [hocc.2, hq₂, ha₂])).of_eq
        rfl rfl rfl rfl
  obtain ⟨hbefore, ⟨-, _, _, _, hc⟩ | ⟨st, next, rfl, hw, -⟩⟩ := (hsplit _ _ post rfl).wrote_inv
  · cases hc
  · cases hb'
    obtain rfl : state = last := Option.some.inj (hbefore.symm.trans hlast)
    have hcompleted := (h₃ (h₁ ▸ hone) (h₂ ▸ hrun)).status
    cases hw with
    | claim _ _ _ hactive => exact absurd (hactive.symm.trans hcompleted) (by decide)

/-- A one-shot registration is for its own time, or now if that is past. -/
theorem merge_awaits {o : Options} {now t : Time} {existing : TaskState}
    (ht : cfg.runAt = some t) (hlive : existing.status ≠ .completed) :
    Awaits (unix t) (max (unix t) (unix now)) (cfg.merge cron o now existing) := by
  obtain ⟨h₁, h₂⟩ := merge_occurrence cron o cfg now existing
  refine ⟨by rw [h₁, ht]; rfl, by rw [h₂, ht]; rfl, ?_, ?_⟩
  · unfold TaskConfig.merge
    simp only
    rw [if_neg (fun hc => hlive hc.1), if_neg hlive]
    exact hlive
  · have hnext : (cfg.merge cron o now existing).nextRunAt = unix (cfg.nextRun cron now) := by
      unfold TaskConfig.merge
      simp only
      rw [if_neg (fun hc => hlive hc.1), if_neg hlive]
      simp [ht, TaskConfig.base]
    rw [hnext]
    simp only [TaskConfig.nextRun, ht]
    have hmono {a b : Int} (hab : a ≤ b) : unix a ≤ unix b := Int.ediv_le_ediv (by decide) hab
    split
    case isTrue hlt => exact max_le (hmono hlt.le) le_rfl
    case isFalse hge => exact max_le le_rfl (hmono (not_lt.mp hge))

theorem reregistered_awaits {pre mid : List Event} {i : Nat} {now t : Time}
    (h : Guarded (Legal cron options)
      (pre ++ .wrote (.register i cfg now) (some x) y :: mid))
    (hrun : x.runStartedAt ≠ 0) (ht : cfg.runAt = some t)
    (hregister : ∀ i cfg now b a, .wrote (.register i cfg now) b a ∉ mid)
    (hskip : ∀ now b a, .wrote (.skip now) b a ∉ mid)
    (hfinish : ∀ runID result b a, .wrote (.finish runID result) b a ∈ mid →
    result.runAt ≠ unix t) :
    ∃ state, stored (pre ++ .wrote (.register i cfg now) (some x) y :: mid) = some state ∧
      Awaits (unix t) (max (unix t) (unix now)) state := by
  have hsplit : Guarded (Legal cron options)
      ((pre ++ [.wrote (.register i cfg now) (some x) y]) ++ mid) := by simpa using h
  have hy : Awaits (unix t) (max (unix t) (unix now)) y := by
    obtain ⟨hpre, ⟨hb, -⟩ | ⟨st, next, hb, hw, rfl⟩⟩ := (h pre _ _ rfl).wrote_inv
    · cases hb
    · cases hb
      have hlive : x.status ≠ .completed := fun hc => hrun (completed_free h.of_append x hpre hc)
      cases hw with
      | register => exact (merge_awaits ht hlive).of_eq rfl rfl rfl rfl
  have hstored : stored (pre ++ [.wrote (.register i cfg now) (some x) y]) = some y := by
    rw [stored, latest_concat]
    rfl
  obtain ⟨state, hstate, hawaits⟩ :=
    hsplit.kept hstored hy fun log e x y he hmem hx hy hawaits => by
    obtain ⟨cause, next, rfl, hw, rfl⟩ := he.over hx hy
    refine (hw.awaits hawaits ?_ ?_ ?_).of_eq rfl rfl rfl rfl
    · rintro i cfg now rfl
      exact hregister i cfg now _ _ hmem
    · rintro now rfl
      exact hskip now _ _ hmem
    · rintro runID result rfl
      exact hfinish runID result _ _ hmem
  exact ⟨state, by simpa [stored] using hstate, hawaits⟩

/-- One-shot tasks over the log of their writes. -/
structure OneShots (log : List Event) : Prop where
  /-- A finish is of an occurrence its run was claimed for. -/
  finish_of_claim : ∀ pre post runID result before after,
    log = pre ++ .wrote (.finish runID result) before after :: post →
    ClaimedFor pre runID result.runAt
  /-- After an occurrence was finished, a claim of it follows a registration that moved the task
  from one occurrence to another. -/
  executed_once : ∀ pre mid post runID result b a claim state a',
    log = pre ++ .wrote (.finish runID result) b a ::
      (mid ++ .wrote (.claim claim) (some state) a' :: post) →
    state.oneShot → state.runAt = result.runAt →
    ∃ i cfg now x y, .wrote (.register i cfg now) (some x) y ∈ mid ∧
      (y.oneShot ≠ x.oneShot ∨ y.runAt ≠ x.runAt)
  /-- A task registered for another time during a run waits for it, at no earlier time, until it is
  registered again, skipped or executed; and a claim of it wins once the task is active and free. -/
  reregistered : ∀ pre mid i cfg now t x y,
    log = pre ++ .wrote (.register i cfg now) (some x) y :: mid → x.runStartedAt ≠ 0 →
    cfg.runAt = some t → (∀ i cfg now b a, .wrote (.register i cfg now) b a ∉ mid) →
    (∀ now b a, .wrote (.skip now) b a ∉ mid) →
    (∀ runID result b a, .wrote (.finish runID result) b a ∈ mid → result.runAt ≠ unix t) →
    ∃ state, stored log = some state ∧ Awaits (unix t) (max (unix t) (unix now)) state ∧
      (state.status = .active → state.runStartedAt = 0 → ∀ claim : RunClaim,
        claim.validate = .ok () → claim.nextRunAt = state.nextRunAt → claim.runAt = state.runAt →
        claimRun (stored log) claim = .ok (true, some (state.claimed claim)))
  /-- The finish of another occurrence frees the task and takes it from running to active. -/
  released : ∀ runID result state after, .wrote (.finish runID result) (some state) after ∈ log →
    state.oneShot → state.runAt ≠ result.runAt → after.runStartedAt = 0 ∧
      after.nextRunAt = state.nextRunAt ∧
      after.status = if state.status = .running then .active else state.status

theorem oneShots (h : Guarded (Legal cron options) log) : OneShots log where
  finish_of_claim := by
    rintro pre post runID result before after rfl
    obtain ⟨-, ⟨-, _, _, _, hc⟩ | ⟨st, next, -, hw, -⟩⟩ := (h pre _ post rfl).wrote_inv
    · cases hc
    · cases hw with
      | finish _ _ _ hclaimed => exact hclaimed
  executed_once := by
    rintro pre mid post runID result b a claim state a' rfl hone hrun
    exact executed_once h rfl hone hrun
  reregistered := by
    rintro pre mid i cfg now t x y rfl hrun ht hregister hskip hfinish
    obtain ⟨state, hstate, hawaits⟩ := reregistered_awaits h hrun ht hregister hskip hfinish
    refine ⟨state, hstate, hawaits, fun hactive hfree claim hvalid hnext hat => ?_⟩
    rw [hstate]
    exact claimRun_of_claimable hvalid hactive hfree hnext.symm hat.symm
  released := by
    intro runID result state after hmem hone hne
    obtain ⟨hb, -⟩ | ⟨pre, st, next, hb, hw, rfl⟩ := wrote_inv h hmem
    · cases hb
    · cases hb
      cases hw with
      | finish =>
        exact ⟨rfl, by simp [TaskState.finished, hone, hne], by simp [TaskState.finished, hne]⟩

/-- One-shot tasks in every run of any number of instances. -/
theorem run_oneShots {actions : List Action} {s : Sys}
    (h : (Sys.machine cron).run (.initial options) actions = some s) :
    s.stored = stored s.log ∧ OneShots s.log :=
  ⟨(inv_run h).stored_eq, oneShots (inv_run h).legal⟩

theorem run_oneShots_stalled : ∃ s,
    (Sys.machine everyMinute).run (.initial twoInstances) stalledRun = some s ∧
      s.stored = stored s.log ∧ OneShots s.log := by
  obtain ⟨s, hs⟩ : ∃ s, (Sys.machine everyMinute).run (.initial twoInstances) stalledRun = some s :=
    ⟨_, rfl⟩
  exact ⟨s, hs, run_oneShots hs⟩

/-- No claim of an occurrence follows its finish. -/
def NeverAgain (log : List Event) : Prop :=
  ∀ pre mid post runID result b a claim state a',
    log = pre ++ .wrote (.finish runID result) b a ::
      (mid ++ .wrote (.claim claim) (some state) a' :: post) →
    state.oneShot → state.runAt ≠ result.runAt

/-- The task is executed, registered for another time and then for the first one again. -/
def registeredBack : List Action :=
  [.register 0 0 job (10 * second), .read 0, .write 0,
   .tick 1 0 (100 * second), .announce 1 (100 * second) "x", .claim 1, .body 1 (101 * second) true,
   .finish 1,
   .register 2 0 { job with runAt := some (200 * second) } (110 * second), .read 2, .write 2,
   .register 3 0 job (120 * second), .read 3, .write 3,
   .tick 4 0 (121 * second), .announce 4 (121 * second) "y", .claim 4]

theorem registered_back_runs_again : ∃ s,
    (Sys.machine everyMinute).run (.initial twoInstances) registeredBack = some s ∧
      ¬ NeverAgain s.log := by
  refine ⟨_, rfl, fun h => ?_⟩
  exact h [_, _] [_, _] [] _ _ _ _ _ _ _ rfl rfl rfl

end GoAtlas.Scheduler
