import GoAtlas.Scheduler.Ownership

/-!
# Stopped tasks

A task that was paused or disabled, and is not unregistered, is not started before a write activates
it. A trigger dispatches it, and a run that is under way goes on; none of this starts a new run.
-/

namespace GoAtlas.Scheduler

open GoAtlas.Lib

variable {cron : Cron} {options : Nat → Options} {log : List Event} {state next : TaskState}
  {cause : Cause}

def Stopped (state : TaskState) : Prop :=
  state.status = .paused ∨ state.status = .disabled ∨ state.status = .completed

def Cause.activates (cause : Cause) (state : TaskState) : Prop :=
  match cause with
  | .manage op _ => op = .resume ∨ op = .enable
  | .register _ _ _ => state.status = .completed
  | _ => False

theorem mutate_stops {op : Management} {now : Time} (h : op.mutate cron now state = .ok next)
    (hop : op = .pause ∨ op = .disable) : Stopped next := by
  rcases hop with rfl | rfl <;> grind [Management.mutate, Stopped]

theorem Writes.stopped (hw : Writes cron options log state cause next) (h : Stopped state)
    (hno : ¬ cause.activates state) : Stopped next := by
  have hidle : state.status ≠ .active ∧ state.status ≠ .running := by
    rcases h with h | h | h <;> simp [h]
  have hkept (hs : next.status = state.status) : Stopped next := by rwa [Stopped, hs]
  cases hw with
  | register =>
    have hopen : state.status ≠ .completed := hno
    exact hkept (by simp [TaskConfig.merge, hopen])
  | manage op now _ hnext =>
    cases op with
    | pause => exact mutate_stops hnext (.inl rfl)
    | disable => exact mutate_stops hnext (.inr rfl)
    | skipNextRun =>
      cases hnext
      exact h
    | resume => exact absurd (.inl rfl) hno
    | enable => exact absurd (.inr rfl) hno
  | skip _ hactive | claim _ _ _ hactive => exact absurd hactive hidle.1
  | reset => exact hkept (by simp [TaskState.reset, hidle.2])
  | renew => exact h
  | finish _ result =>
    by_cases hexec : (state.oneShot && decide (state.runAt = result.runAt)) = true
    · exact .inr (.inr (if_pos hexec))
    · exact hkept ((if_neg hexec).trans (if_neg hidle.2))

/-- In every run, a task that was paused or disabled is claimed only after a write that activates
it. -/
theorem claimed_after_stop {actions : List Action} {s : Sys} {pre mid post : List Event}
    {op : Management} {now : Time} {b b' : Slot} {a a' : TaskState} {c : RunClaim}
    (h : (Sys.machine cron).run (.initial options) actions = some s)
    (hop : op = .pause ∨ op = .disable)
    (hlog : s.log =
      pre ++ .wrote (.manage op now) b a :: (mid ++ .wrote (.claim c) b' a' :: post)) :
    ∃ cause x y, .wrote cause (some x) y ∈ mid ∧ cause.activates x := by
  have hlegal := (inv_run h).legal
  rw [hlog] at hlegal
  by_contra hnone
  have hsplit : Guarded (Legal cron options)
      (((pre ++ [.wrote (.manage op now) b a]) ++ mid) ++ .wrote (.claim c) b' a' :: post) := by
    simpa using hlegal
  have hstop : Stopped a := by
    obtain ⟨-, ⟨-, _, _, _, hc⟩ | ⟨state, next, -, hw, rfl⟩⟩ := (hlegal pre _ _ rfl).wrote_inv
    · cases hc
    · cases hw with
      | manage _ _ _ hnext =>
        exact (mutate_stops hnext hop : Stopped next)
  have hstored : stored (pre ++ [.wrote (.manage op now) b a]) = some a := by
    rw [stored, latest_concat]
    rfl
  obtain ⟨last, hlast, hstopped⟩ := hsplit.of_append.kept hstored hstop
    fun log e x y he hmem hx hy hstop => by
      obtain ⟨cause, next, rfl, hw, rfl⟩ := he.over hx hy
      exact hw.stopped hstop fun hact => hnone ⟨cause, x, _, hmem, hact⟩
  obtain ⟨hbefore, ⟨-, _, _, _, hc⟩ | ⟨state, next, rfl, hw, -⟩⟩ := (hsplit _ _ post rfl).wrote_inv
  · cases hc
  · obtain rfl : state = last := Option.some.inj (hbefore.symm.trans hlast)
    cases hw with
    | claim _ _ _ hactive => simp [Stopped, hactive] at hstopped

def pausedRun : List Action :=
  [.register 0 0 job (10 * second), .read 0, .write 0, .manage 1 .pause, .read 1,
   .update 1 (20 * second), .manage 1 .resume, .read 1, .update 1 (30 * second),
   .tick 2 0 (100 * second), .announce 2 (100 * second) "x", .claim 2]

theorem claimed_after_stop_paused :
    ∃ s, (Sys.machine everyMinute).run (.initial twoInstances) pausedRun =
    some s ∧ ∃ cause x y, .wrote cause (some x) y ∈ s.log ∧ cause.activates x := by
  obtain ⟨s, pre, b, a, m, c, b', a', hs, hlog⟩ : ∃ s pre b a m c b' a',
      (Sys.machine everyMinute).run (.initial twoInstances) pausedRun = some s ∧
        s.log = pre ++ .wrote (.manage .pause (20 * second)) b a ::
          ([m] ++ .wrote (.claim c) b' a' :: []) := ⟨_, [_], _, _, _, _, _, _, rfl, rfl⟩
  obtain ⟨cause, x, y, hmem, hact⟩ := claimed_after_stop hs (.inl rfl) hlog
  refine ⟨s, hs, cause, x, y, ?_, hact⟩
  rw [hlog]
  simp [List.mem_singleton.mp hmem]

end GoAtlas.Scheduler
