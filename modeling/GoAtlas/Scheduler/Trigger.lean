import GoAtlas.Scheduler.System
import Mathlib.Algebra.Order.Group.Int
import Mathlib.Order.Bounds.Basic

/-!
# Manual triggers

A run that `TriggerTask` starts is claimed and finished like a scheduled one, so the finish stores
the time that the schedule gives from the start of that run. A schedule whose next time is the first
of fixed occurrences gives the stored time again, and no other one does; one of fixed delays starts
anew.
-/

namespace GoAtlas.Scheduler

open GoAtlas.Lib

variable {cron : Cron} {s s' : Sys} {p i : Nat} {start end_ : Time} {random runID : String}
  {state : TaskState} {success : Bool} {spec : String}

/-- A trigger, the claim of its run, renewals of the lease, and the finish. -/
def triggeredRun (p i : Nat) (start : Time) (random : String) (renewals : List Time) (end_ : Time)
    (success : Bool) : List Action :=
  .trigger p i :: .announce p start random :: .claim p ::
    (renewals.map (Action.renew p) ++ [.body p end_ success, .finish p])

/-- The process runs what it claimed of a periodic task; the schedule and its next time are as they
were in `state`. -/
structure Runs (s : Sys) (p : Nat) (runID : String) (start : Time) (state : TaskState) : Prop where
  proc : ∃ i, s.proc p = .running i runID start state
  stored : ∃ cur, s.stored = some cur ∧ Owns cur runID ∧ cur.oneShot = false ∧
    cur.schedule = state.schedule ∧ cur.nextRunAt = state.nextRunAt

theorem done_proc (s : Sys) (p : Nat) : (s.done p).proc p = .idle := by
  unfold Sys.done
  simp only
  split <;> simp [Sys.setProc]

@[simp] theorem done_stored (s : Sys) (p : Nat) : (s.done p).stored = s.stored := by
  unfold Sys.done
  simp only
  split <;> rfl

theorem run_idle_eq_none (h : s.proc p = .idle) (renewals : List Time) :
    (Sys.machine cron).run s (renewals.map (Action.renew p) ++ [.body p end_ success, .finish p]) =
    none := by
  cases renewals with
  | nil => simp [Machine.run, Sys.machine, Sys.step, Sys.body, h]
  | cons now renewals => simp [Machine.run, Sys.machine, Sys.step, Sys.renew, h]

theorem runs_claim (hproc : s.proc p = .claiming i runID start state)
    (hstored : s.stored = some state) (hperiodic : state.oneShot = false)
    (hs : s.claim p = some s') :
    s'.proc p = .idle ∨ Runs s' p runID start state := by
  simp only [Sys.claim, hproc, hstored] at hs
  rcases claimRun_cases (some state) ⟨state.nextRunAt, state.runAt, unix start, runID,
      unix start + leaseSeconds (s.options i).runLease⟩
      with ⟨err, hc⟩ | hc | ⟨st, hst, hstart, hid, -, -, -, -, hc⟩
  · rw [hc] at hs
    cases hs
    exact .inl (done_proc _ _)
  · rw [hc] at hs
    cases hs
    exact .inl (done_proc _ _)
  · rw [hc] at hs
    cases hst
    cases hs
    refine .inr ⟨⟨i, by simp [Sys.setProc]⟩, _, rfl, ⟨hid, rfl, ?_⟩, hperiodic, rfl, rfl⟩
    exact Int.ne_of_gt hstart

theorem Runs.renew (h : Runs s p runID start state) {now : Time} (hs : s.renew p now = some s') :
    Runs s' p runID start state := by
  obtain ⟨⟨i, hproc⟩, cur, hstored, hown, hrest⟩ := h
  simp only [Sys.renew, hproc, hstored] at hs
  rcases renewRun_cases (some cur) runID (unix now + leaseSeconds (s.options i).runLease) with
    hr | ⟨st, hst, -, hr⟩
  · rw [hr] at hs
    cases hs
    exact ⟨⟨i, hproc⟩, cur, rfl, hown, hrest⟩
  · rw [hr] at hs
    cases hst
    cases hs
    exact ⟨⟨i, hproc⟩, _, rfl, hown, hrest⟩

theorem Runs.finish (h : Runs s p runID start state)
    (hs : (Sys.machine cron).run s [.body p end_ success, .finish p] = some s') :
    ∃ cur, s'.stored = some cur ∧ cur.nextRunAt = unix (calculateNextRun cron start state) := by
  obtain ⟨⟨i, hproc⟩, cur, hstored, hown, hperiodic, hsched, -⟩ := h
  obtain ⟨t, ht, hs⟩ := Machine.run_cons.mp hs
  simp only [Sys.machine, Sys.step, Sys.body, hproc, hstored, hown.2.1, ne_eq, not_true_eq_false,
    if_false] at ht
  cases ht
  obtain ⟨u, hu, hs⟩ := Machine.run_cons.mp hs
  cases hs
  simp only [Sys.machine, Sys.step, Sys.finish, Sys.setProc, Function.update_self, hstored] at hu
  cases hu
  have howns : ownsUnfinishedRun (some cur) runID = true :=
    ownsUnfinishedRun_iff.mpr ⟨cur, rfl, hown⟩
  refine ⟨_, by simp [finishRun, howns, Sys.apply]; rfl, ?_⟩
  simp [TaskState.finished, hperiodic, calculateNextRun, hsched]

theorem Runs.run (h : Runs s p runID start state) (renewals : List Time)
    (hs : (Sys.machine cron).run s
    (renewals.map (Action.renew p) ++ [.body p end_ success, .finish p]) =
      some s') :
    ∃ cur, s'.stored = some cur ∧ cur.nextRunAt = unix (calculateNextRun cron start state) := by
  induction renewals generalizing s with
  | nil => exact h.finish hs
  | cons now renewals ih =>
    obtain ⟨t, ht, hs⟩ := Machine.run_cons.mp hs
    exact ih (h.renew ht) hs

/-- The run of a trigger that starts at `start` leads from `s` to `s'`; the stored task is periodic
and has the schedule. -/
structure Triggered (cron : Cron) (spec : String) (state : TaskState) (start : Time) (s s' : Sys) :
    Prop where
  stored : s.stored = some state
  periodic : state.oneShot = false
  schedule : state.schedule = spec
  run : ∃ p i random renewals end_ success,
    (Sys.machine cron).run s (triggeredRun p i start random renewals end_ success) = some s'

def Kept (state : TaskState) (s' : Sys) : Prop :=
  s'.stored.map TaskState.nextRunAt = some state.nextRunAt

theorem Triggered.kept_iff {spec : String} {next : Time → Time}
    (h : Triggered cron spec state start s s') (hnext : cron spec = some next) :
    Kept state s' ↔ unix (next start) = state.nextRunAt := by
  obtain ⟨hstored, hperiodic, hspec, p, i, random, renewals, end_, success, hrun⟩ := h
  obtain ⟨t₁, ht₁, hrun⟩ := Machine.run_cons.mp hrun
  obtain ⟨t₂, ht₂, hrun⟩ := Machine.run_cons.mp hrun
  obtain ⟨t₃, ht₃, hrun⟩ := Machine.run_cons.mp hrun
  obtain ⟨cfg, hdispatched, hstored₁⟩ :
      ∃ cfg, t₁.proc p = .dispatched i cfg state ∧ t₁.stored = some state := by
    simp only [Sys.machine, Sys.step, Sys.trigger, hstored] at ht₁
    split at ht₁
    · rename_i st cfg hproc hst hreg
      cases hst
      split at ht₁ <;> cases ht₁
      exact ⟨cfg, by simp [Sys.setProc], hstored⟩
    · cases ht₁
  obtain ⟨runID, hclaiming, hstored₂⟩ : ∃ runID, t₂.proc p = .claiming i runID start state ∧
      t₂.stored = some state := by
    simp only [Sys.machine, Sys.step, Sys.announce, hdispatched] at ht₂
    split at ht₂
    · cases ht₂
      exact ⟨newRunID (t₁.options i) random, by simp [Sys.setProc], hstored₁⟩
    · -- the state belongs to another registration, and nothing is claimed
      cases ht₂
      simp [Sys.machine, Sys.step, Sys.claim, done_proc] at ht₃
  rcases runs_claim hclaiming hstored₂ hperiodic ht₃ with hidle | hruns
  · rw [run_idle_eq_none hidle] at hrun
    cases hrun
  · obtain ⟨cur, hcur, hat⟩ := hruns.run renewals hrun
    rw [Kept, hcur, Option.map_some, Option.some.injEq, hat, calculateNextRun, hspec, hnext]

/-! ## The shape of the schedule -/

/-- What is assumed of a schedule: the next time is a later one, in whole seconds. -/
structure Later (next : Int → Int) : Prop where
  lt : ∀ t : Int, 0 < unix t → t < next t
  whole : ∀ t, 0 < unix t → second ∣ next t

/-- The next time is the first one of a fixed set. -/
def FixedOccurrences (next : Int → Int) : Prop :=
  ∃ occurrences : Set Int, ∀ t, 0 < unix t → IsLeast {o | o ∈ occurrences ∧ t < o} (next t)

theorem unix_mono {t u : Int} (h : t ≤ u) : unix t ≤ unix u := Int.ediv_le_ediv (by decide) h

theorem Later.unix_next_inj {next : Int → Int} (h : Later next) {t u : Int} (ht : 0 < unix t)
    (hu : 0 < unix u) : unix (next t) = unix (next u) ↔ next t = next u := by
  refine ⟨fun heq => ?_, congrArg unix⟩
  rw [← Int.ediv_mul_cancel (h.whole t ht), ← Int.ediv_mul_cancel (h.whole u hu)]
  exact congrArg (· * second) heq

/-- The next time stays the same until it comes, if and only if it is the first of a fixed set. -/
theorem fixedOccurrences_iff {next : Int → Int} (h : Later next) :
    FixedOccurrences next ↔
      ∀ t start : Int, 0 < unix t → t ≤ start → start < next t → next start = next t := by
  constructor
  · rintro ⟨occurrences, hfirst⟩ t start ht hle hlt
    have hstart := ht.trans_le (unix_mono hle)
    obtain ⟨⟨hmem, htlt⟩, hleast⟩ := hfirst t ht
    obtain ⟨⟨hmem', hstartlt⟩, hleast'⟩ := hfirst start hstart
    exact le_antisymm (hleast' ⟨hmem, hlt⟩) (hleast ⟨hmem', hle.trans_lt hstartlt⟩)
  · intro hsame
    refine ⟨{o | ∃ t, 0 < unix t ∧ next t = o}, fun t ht => ⟨⟨⟨t, ht, rfl⟩, h.lt t ht⟩, ?_⟩⟩
    rintro _ ⟨⟨u, hu, rfl⟩, htu⟩
    rcases le_total u t with hut | hut
    · exact (hsame u t hu hut htu).le
    · rcases lt_or_ge u (next t) with hlt | hge
      · exact (hsame t u ht hut hlt).ge
      · exact hge.trans (h.lt u hu).le

/-- `cron.Every`: a fixed delay from the second of the instant. -/
def every (delay : Int) : Int → Int := fun t => t + delay - t % second

theorem unix_every {delay : Int} (h : second ∣ delay) (t : Int) :
    unix (every delay t) = unix (t + delay) := by
  obtain ⟨n, rfl⟩ := h
  simp only [unix, every, second]
  omega

/-! ## A task to trigger -/

def jobConfig (spec : String) : TaskConfig :=
  ⟨"job", "", spec, true, 0, false, false, false, none, []⟩

def jobState (cron : Cron) (spec : String) (now : Time) : TaskState :=
  { (jobConfig spec).base cron now with revision := 1 }

def jobSys (cron : Cron) (spec : String) (now : Time) : Sys :=
  { Sys.initial (fun _ => ⟨"a", 60 * second, 0⟩) with
    stored := some (jobState cron spec now)
    registered := fun _ => some (jobConfig spec) }

theorem claim_job {now : Time} (hproc : s.proc p = .claiming i runID start (jobState cron spec now))
    (hstored : s.stored = some (jobState cron spec now)) (hstart : 0 < unix start)
    (hid : runID ≠ "") (hlease : 0 ≤ leaseSeconds (s.options i).runLease) :
    ∃ s', s.claim p = some s' ∧ Runs s' p runID start (jobState cron spec now) := by
  obtain ⟨c, hc⟩ : ∃ c : RunClaim, c =
    ⟨(jobState cron spec now).nextRunAt, (jobState cron spec now).runAt, unix start, runID,
      unix start + leaseSeconds (s.options i).runLease⟩ := ⟨_, rfl⟩
  have hvalid : c.validate = .ok () := by
    rw [hc, RunClaim.validate]
    simp only
    rw [if_neg (by omega), if_neg hid, if_neg (by omega)]
  have hclaim : claimRun (some (jobState cron spec now)) c =
      .ok (true, some ((jobState cron spec now).claimed c)) := by
    have hactive : (jobState cron spec now).status = .active := rfl
    have hfree : (jobState cron spec now).runStartedAt = 0 := rfl
    have hnext : (jobState cron spec now).nextRunAt = c.nextRunAt := by rw [hc]
    have hrunAt : (jobState cron spec now).runAt = c.runAt := by rw [hc]
    simp [claimRun, hvalid, hactive, hfree, hnext, hrunAt]
  refine ⟨(s.apply (.claim c) (true, some ((jobState cron spec now).claimed c))).setProc p
    (.running i runID start (jobState cron spec now)), ?_, ⟨i, by simp [Sys.setProc]⟩,
    (jobState cron spec now).claimed c, rfl, ⟨hid, by rw [hc]; rfl, ?_⟩, rfl, rfl, rfl⟩
  · simp only [Sys.claim, hproc, hstored, ← hc, hclaim, if_true]
  · rw [hc]
    exact Int.ne_of_gt hstart

theorem Runs.exists_finish (h : Runs s p runID start state) (cron : Cron) (end_ : Time)
    (success : Bool) :
    ∃ s', (Sys.machine cron).run s [.body p end_ success, .finish p] = some s' := by
  obtain ⟨⟨i, hproc⟩, cur, hstored, hown, -⟩ := h
  simp [Machine.run, Sys.machine, Sys.step, Sys.body, hproc, hstored, hown.2.1, Sys.finish,
    Sys.setProc]

theorem exists_triggered (cron : Cron) (spec : String) (now : Time) (hstart : 0 < unix start) :
    ∃ s', Triggered cron spec (jobState cron spec now) start (jobSys cron spec now) s' := by
  obtain ⟨t, ht, hproc, hstored, hoptions⟩ : ∃ t, (Sys.machine cron).run (jobSys cron spec now)
      [.trigger 0 0, .announce 0 start "x"] = some t ∧
        t.proc 0 = .claiming 0 "a/x" start (jobState cron spec now) ∧
        t.stored = some (jobState cron spec now) ∧ t.options 0 = ⟨"a", 60 * second, 0⟩ :=
    ⟨_, rfl, rfl, rfl, rfl⟩
  obtain ⟨u, hu, hruns⟩ := claim_job hproc hstored hstart (by decide) (by rw [hoptions]; decide)
  obtain ⟨s', hfinish⟩ := hruns.exists_finish cron start true
  exact ⟨s', rfl, rfl, rfl, 0, 0, "x", [], start, true,
    Machine.run_append ht (Machine.run_cons.mpr ⟨u, hu, hfinish⟩)⟩

def onTheHour (t : Int) : Int := t + 3600 * second - t % (3600 * second)

theorem later_onTheHour : Later onTheHour where
  lt t _ := by
    simp only [onTheHour, second]
    omega
  whole t _ := by
    simp only [onTheHour, second]
    omega

theorem fixedOccurrences_onTheHour : FixedOccurrences onTheHour := by
  refine (fixedOccurrences_iff later_onTheHour).mpr fun t start _ hle hlt => ?_
  simp only [onTheHour, second] at hlt ⊢
  omega

end GoAtlas.Scheduler
