import GoAtlas.Scheduler.Conformance

/-!
# Ownership of runs

Between the claim of a run and its end every write keeps its owner, so a second claim can only
follow the finish of the first run or a reset of it; and a reset by another instance than the owner
goes over exactly the state that was scanned, whose lease had expired.
-/

namespace GoAtlas.Scheduler

open GoAtlas.Lib

variable {cron : Cron} {options : Nat → Options} {log : List Event} {state : TaskState}
    {cause : Cause}

/-! ## One write -/

theorem Owns.unique {r r' : String} (h : Owns state r) (h' : Owns state r') :
    r = r' := h.2.1.symm.trans h'.2.1

/-- The run-ownership fields of a state. -/
structure SameRun (x y : TaskState) : Prop where
  lastRunID : y.lastRunID = x.lastRunID
  runStartedAt : y.runStartedAt = x.runStartedAt
  runLeaseUntil : y.runLeaseUntil = x.runLeaseUntil
  runLeaseID : y.runLeaseID = x.runLeaseID

theorem SameRun.owns {x y : TaskState} {runID : String} (h : SameRun x y) (hx : Owns x runID) :
    Owns y runID :=
  ⟨hx.1, h.lastRunID.trans hx.2.1, h.runStartedAt ▸ hx.2.2⟩

theorem merge_sameRun {o : Options} {cfg : TaskConfig} {now : Time} {existing : TaskState} :
    SameRun existing (cfg.merge cron o now existing) := by
  unfold TaskConfig.merge
  simp only
  split
  · exact ⟨rfl, rfl, rfl, rfl⟩
  · split <;> exact ⟨rfl, rfl, rfl, rfl⟩

theorem mutate_sameRun {op : Management} {now : Time} {state next : TaskState}
    (h : op.mutate cron now state = .ok next) : SameRun state next := by
  obtain rfl | ⟨-, ⟨_, -, rfl⟩ | rfl⟩ := mutate_cases h <;> exact ⟨rfl, rfl, rfl, rfl⟩

theorem skipped_sameRun {now : Time} :
    SameRun state (state.skipped cron now) := by
  unfold TaskState.skipped
  simp only
  split <;> exact ⟨rfl, rfl, rfl, rfl⟩

/-- Everything but the end of a run keeps its owner. -/
theorem Writes.owns {before after : TaskState} {runID : String}
    (hw : Writes cron options log before cause after) (howns : Owns before runID)
    (hfinish : ∀ result, cause ≠ .finish runID result)
    (hreset : ∀ p i now, cause ≠ .reset p i now) :
    Owns after runID := by
  cases hw with
  | register => exact merge_sameRun.owns howns
  | manage _ _ _ hnext => exact (mutate_sameRun hnext).owns howns
  | skip => exact skipped_sameRun.owns howns
  | reset p i now => exact absurd rfl (hreset p i now)
  | claim _ _ _ _ hfree => exact absurd hfree howns.2.2
  | renew => exact howns
  | finish runID' result howns' =>
    obtain rfl := howns.unique howns'
    exact absurd rfl (hfinish result)

theorem Writes.clears {before after : TaskState}
    (hw : Writes cron options log before cause after) (hrun : before.runStartedAt ≠ 0)
    (hclear : after.runStartedAt = 0) :
    (∃ runID result, cause = .finish runID result ∧ Owns before runID) ∨
      ∃ p i now, cause = .reset p i now := by
  cases hw with
  | register => exact absurd (merge_sameRun.runStartedAt.symm.trans hclear) hrun
  | manage _ _ _ hnext => exact absurd ((mutate_sameRun hnext).runStartedAt.symm.trans hclear) hrun
  | skip _ _ hfree => exact absurd hfree hrun
  | reset p i now => exact .inr ⟨p, i, now, rfl⟩
  | claim _ _ _ _ hfree => exact absurd hfree hrun
  | renew => exact absurd hclear hrun
  | finish runID result howns => exact .inl ⟨runID, result, rfl, howns⟩

theorem claimed_owns (state : TaskState) {claim : RunClaim} (hstart : 0 < claim.startedAt)
    (hid : claim.runID ≠ "") : Owns (state.claimed claim) claim.runID :=
  ⟨hid, rfl, hstart.ne'⟩

theorem lease_expired {o : Options} {live : List String} {now leaseSec : Int}
    (h : runAbandoned o live state now leaseSec) (hrun : state.runStartedAt ≠ 0)
    (hbound : state.leaseBound) (howner : runOwner state.lastRunID ≠ o.instanceID) :
    state.runLeaseUntil < now := by
  unfold runAbandoned at h
  rw [if_neg (fun hc => hrun hc.1), if_neg (fun hc => howner hc.2), if_pos hbound] at h
  simpa using h

/-! ## Whole logs -/

theorem Legal.wrote_inv {before : Slot} {after : TaskState}
    (h : Legal cron options log (.wrote cause before after)) :
    stored log = before ∧ ((before = none ∧ ∃ i cfg now, cause = .create i cfg now) ∨
      ∃ state next, before = some state ∧ Writes cron options log state cause next ∧
        after = { next with revision := state.revision + 1 }) := by
  cases h with
  | create i cfg now _ hnone => exact ⟨hnone, .inl ⟨rfl, i, cfg, now, rfl⟩⟩
  | wrote _ state next hbefore hw => exact ⟨hbefore, .inr ⟨state, next, rfl, hw, rfl⟩⟩

theorem Legal.over {e : Event} {x y : TaskState} (h : Legal cron options log e)
    (hx : stored log = some x) (hy : e.after? = some y) :
    ∃ cause next, e = .wrote cause (some x) y ∧ Writes cron options log x cause next ∧
      y = { next with revision := x.revision + 1 } := by
  cases h with
  | create _ _ _ _ hnone => rw [hnone] at hx; cases hx
  | wrote cause before after hbefore hw =>
    obtain rfl : before = x := Option.some.inj (hbefore.symm.trans hx)
    cases hy
    exact ⟨cause, after, rfl, hw, rfl⟩
  | scanned => cases hy

/-- A run keeps its owner until it is finished or reset. -/
theorem owner_kept {l mid : List Event} {runID : String}
    (h : Guarded (Legal cron options) (l ++ mid)) (hl : stored l = some state)
    (howns : Owns state runID)
    (hfinish : ∀ result before after, .wrote (.finish runID result) before after ∉ mid)
    (hreset : ∀ p i now before after, .wrote (.reset p i now) before after ∉ mid) :
    ∃ last, stored (l ++ mid) = some last ∧ Owns last runID := by
  refine h.kept hl howns fun log e x y he hmem hx hy howns => ?_
  obtain ⟨cause, next, rfl, hw, rfl⟩ := he.over hx hy
  have hnext : Owns next runID := by
    refine hw.owns howns ?_ ?_
    · rintro result rfl
      exact hfinish result _ _ hmem
    · rintro p i now rfl
      exact hreset p i now _ _ hmem
  exact hnext

/-- What holds of the runs of a task over the log of its writes. -/
structure Ownership (options : Nat → Options) (log : List Event) : Prop where
  one_owner : ∀ state ∈ states Event.after? log, ∀ r r', Owns state r → Owns state r' → r = r'
  /-- A claim wins only while no run is unfinished. -/
  claim_free : ∀ claim before after, .wrote (.claim claim) before after ∈ log →
    Owns after claim.runID ∧ ∃ state, before = some state ∧ state.runStartedAt = 0
  /-- Between two claims the first run was finished by its owner, or reset. -/
  exclusive : ∀ pre mid post c b a c' b' a',
    log = pre ++ .wrote (.claim c) b a :: (mid ++ .wrote (.claim c') b' a' :: post) →
    (∃ result before after, .wrote (.finish c.runID result) before after ∈ mid) ∨
      ∃ p i now before after, .wrote (.reset p i now) before after ∈ mid
  /-- Only the owner renews and finishes. -/
  renewed_by_owner : ∀ runID leaseUntil before after, .wrote (.renew runID leaseUntil)
    before after ∈ log →
    ∃ state, before = some state ∧ Owns state runID ∧ Owns after runID
  finished_by_owner : ∀ runID result before after, .wrote (.finish runID result)
    before after ∈ log →
    ∃ state, before = some state ∧ Owns state runID
  /-- Only a finish by the owner and a reset clear a run. -/
  cleared : ∀ cause state after, .wrote cause (some state) after ∈ log → state.runStartedAt ≠ 0 →
    after.runStartedAt = 0 → (∃ runID result, cause = .finish runID result ∧ Owns state runID) ∨
      ∃ p i now, cause = .reset p i now
  /-- A reset by another instance found the run's own lease expired when it scanned the task, and
  nothing was written between the scan and the reset. -/
  reset_expired : ∀ pre post p i now state after,
    log = pre ++ .wrote (.reset p i now) (some state) after :: post → state.runStartedAt ≠ 0 →
    state.leaseBound → runOwner state.lastRunID ≠ (options i).instanceID →
    state.runLeaseUntil < unix now ∧ ∃ pre' mid, pre = pre' ++ .scanned p i now state :: mid ∧
      ∀ e ∈ mid, e.after? = none

theorem wrote_inv (h : Guarded (Legal cron options) log) {before : Slot}
    {after : TaskState} (hmem : .wrote cause before after ∈ log) :
    (before = none ∧ ∃ i cfg now, cause = .create i cfg now) ∨
    ∃ pre state next, before = some state ∧
      Writes cron options pre state cause next ∧
        after = { next with revision := state.revision + 1 } := by
  obtain ⟨pre, post, rfl⟩ := List.append_of_mem hmem
  obtain ⟨-, hnone | ⟨state, next, hb, hw, ha⟩⟩ := (h pre _ post rfl).wrote_inv
  · exact .inl hnone
  · exact .inr ⟨pre, state, next, hb, hw, ha⟩

theorem claims_exclusive {pre mid post : List Event} {c c' : RunClaim} {b b' : Slot}
    {a a' : TaskState} (h : Guarded (Legal cron options)
      (pre ++ .wrote (.claim c) b a :: (mid ++ .wrote (.claim c') b' a' :: post))) :
    (∃ result before after, .wrote (.finish c.runID result) before after ∈ mid) ∨
      ∃ p i now before after, .wrote (.reset p i now) before after ∈ mid := by
  by_contra hnone
  obtain ⟨hfinish, hreset⟩ := not_or.mp hnone
  have hsplit : Guarded (Legal cron options)
      (((pre ++ [.wrote (.claim c) b a]) ++ mid) ++ .wrote (.claim c') b' a' :: post) := by
    simpa using h
  have howns : Owns a c.runID := by
    obtain ⟨-, ⟨-, _, _, _, hc⟩ | ⟨state, next, -, hw, rfl⟩⟩ := (h pre _ _ rfl).wrote_inv
    · cases hc
    · cases hw with
      | claim _ hstart hid => exact claimed_owns state hstart hid
  have hstored : stored (pre ++ [.wrote (.claim c) b a]) = some a := by
    rw [stored, latest_concat]
    rfl
  obtain ⟨last, hlast, hlowns⟩ := owner_kept hsplit.of_append hstored howns
    (fun r b a hm => hfinish ⟨r, b, a, hm⟩) (fun p i n b a hm => hreset ⟨p, i, n, b, a, hm⟩)
  obtain ⟨hbefore, ⟨-, _, _, _, hc⟩ | ⟨state, next, rfl, hw, -⟩⟩ := (hsplit _ _ post rfl).wrote_inv
  · cases hc
  · obtain rfl : state = last := Option.some.inj (hbefore.symm.trans hlast)
    cases hw with
    | claim _ _ _ _ hfree => exact hlowns.2.2 hfree

theorem ownership (h : Guarded (Legal cron options) log) : Ownership options log where
  one_owner := fun _ _ _ _ => Owns.unique
  claim_free := by
    intro claim before after hmem
    obtain ⟨-, _, _, _, hc⟩ | ⟨pre, state, next, hb, hw, rfl⟩ := wrote_inv h hmem
    · cases hc
    · cases hw with
      | claim _ hstart hid _ hfree => exact ⟨claimed_owns state hstart hid, state, hb, hfree⟩
  exclusive := by
    rintro pre mid post c b a c' b' a' rfl
    exact claims_exclusive h
  renewed_by_owner := by
    intro runID leaseUntil before after hmem
    obtain ⟨-, _, _, _, hc⟩ | ⟨pre, state, next, hb, hw, rfl⟩ := wrote_inv h hmem
    · cases hc
    · cases hw with
      | renew _ _ howns => exact ⟨state, hb, howns, howns⟩
  finished_by_owner := by
    intro runID result before after hmem
    obtain ⟨-, _, _, _, hc⟩ | ⟨pre, state, next, hb, hw, rfl⟩ := wrote_inv h hmem
    · cases hc
    · cases hw with
      | finish _ _ howns => exact ⟨state, hb, howns⟩
  cleared := by
    intro cause state after hmem hrun hclear
    obtain ⟨hb, -⟩ | ⟨pre, st, next, hb, hw, rfl⟩ := wrote_inv h hmem
    · cases hb
    · cases hb
      exact hw.clears hrun hclear
  reset_expired := by
    rintro pre post p i now state after rfl hrun hbound howner
    obtain ⟨-, ⟨hb, -⟩ | ⟨st, next, hb, hw, -⟩⟩ := (h pre _ post rfl).wrote_inv
    · cases hb
    · cases hb
      cases hw with
      | reset _ _ _ hstale =>
        obtain ⟨pre', mid, live, hpre, hmid, hab⟩ := hstale
        exact ⟨lease_expired hab hrun hbound howner, pre', mid, hpre, hmid⟩

/-- Run ownership in every run of any number of instances. -/
theorem run_ownership {actions : List Action} {s : Sys}
    (h : (Sys.machine cron).run (.initial options) actions = some s) :
    s.stored = stored s.log ∧ Ownership options s.log ∧
      (∀ state, s.stored = some state → state.runStartedAt ≠ 0 →
        ∀ claim result, claimRun s.stored claim = .ok result → result = (false, s.stored)) ∧
      ∀ runID, (¬ ∃ state, s.stored = some state ∧ Owns state runID) → ∀ result leaseUntil,
        finishRun s.stored runID result = (false, s.stored) ∧
          renewRun s.stored runID leaseUntil = (false, s.stored) := by
  have hinv := inv_run h
  refine ⟨hinv.stored_eq, ownership hinv.legal, ?_, ?_⟩
  · intro state hstate hrun claim result hresult
    rw [hstate] at hresult ⊢
    exact claimRun_of_unfinished hrun result hresult
  · intro runID hnot result leaseUntil
    exact ⟨finishRun_of_not_owner hnot, renewRun_of_not_owner hnot⟩

def everyMinute : Cron := fun _ => some (· + 60 * second)

def twoInstances (i : Nat) : Options :=
  ⟨if i = 0 then "a" else "b", 10 * second, second⟩

def job : TaskConfig where
  id := "job"
  description := ""
  schedule := ""
  hasFunc := true
  priority := 0
  runOnStart := false
  disableHistory := false
  unmanaged := false
  runAt := some (100 * second)
  meta_ := []

/-- Instance `a` claims the task, renews its lease once and stalls; instance `b` resets the run
after the lease and claims the task itself; then `a` tries to finish. -/
def stalledRun : List Action :=
  [.register 0 0 job (10 * second), .read 0, .write 0,
   .register 1 1 job (20 * second), .read 1, .write 1,
   .tick 2 0 (100 * second), .announce 2 (100 * second) "x", .claim 2, .renew 2 (103 * second),
   .scan 3 1 (114 * second), .read 3, .write 3,
   .tick 4 1 (115 * second), .announce 4 (115 * second) "y", .claim 4,
   .body 2 (116 * second) true, .body 4 (120 * second) true, .finish 4]

theorem run_ownership_stalled : ∃ s,
    (Sys.machine everyMinute).run (.initial twoInstances) stalledRun = some s ∧
      Ownership twoInstances s.log := by
  obtain ⟨s, hs⟩ : ∃ s, (Sys.machine everyMinute).run (.initial twoInstances) stalledRun = some s :=
    ⟨_, rfl⟩
  exact ⟨s, hs, (run_ownership hs).2.1⟩

end GoAtlas.Scheduler
