import GoAtlas.Scheduler.History

/-!
# The scheduler obeys the rules

A process that is about to write holds a state that was stored, and a fence made from it; the
revision in the fence makes the write go over that state. One lemma a step.
-/

namespace GoAtlas.Scheduler

open GoAtlas.Lib

variable {cron : Cron} {options : Nat → Options} {log : List Event} {e : Event} {now : Time}
    {state : TaskState}

/-- Recovery of the instance saw the run of `state` abandoned at some point of the log. -/
def Scanned (options : Nat → Options) (log : List Event) (p i : Nat) (now : Time)
    (state : TaskState) : Prop :=
  ∃ pre mid live, log = pre ++ .scanned p i now state :: mid ∧ stored pre = some state ∧
    runAbandoned (options i) live state (unix now) (leaseSeconds (options i).runLease)

/-- What the log says about a process. -/
def Conforms (cron : Cron) (options : Nat → Options) (log : List Event) (p : Nat) : Proc → Prop
  | .registering _ cfg _ _ => cfg.check cron = .ok ()
  | .merging _ cfg _ _ existing => cfg.check cron = .ok () ∧
      ∀ state, existing = some state → state ∈ states Event.after? log
  | .updating _ _ state => state ∈ states Event.after? log
  | .dueSkip _ due => due.status = .active ∧ due.runStartedAt = 0
  | .skipping _ due state => state ∈ states Event.after? log ∧ fenceOf state = due ∧
      due.status = .active ∧ due.runStartedAt = 0
  | .stale i now fence => ∃ state, fenceOf state = fence ∧ Scanned options log p i now state
  | .resetting i now fence state => state ∈ states Event.after? log ∧ fenceOf state = fence ∧
      ∃ seen, fenceOf seen = fence ∧ Scanned options log p i now seen
  | .running _ runID _ state | .finishing _ runID _ _ _ state _ => ClaimedFor log runID state.runAt
  | .idle | .managing _ _ | .dispatched _ _ _ | .claiming _ _ _ _ => True

theorem ClaimedFor.concat {runID : String} {runAt : Int} (h : ClaimedFor log runID runAt) :
    ClaimedFor (log ++ [e]) runID runAt := by
  obtain ⟨claim, before, after, hmem, hid, hrun⟩ := h
  exact ⟨claim, before, after, List.mem_append_left _ hmem, hid, hrun⟩

theorem Scanned.concat {p i : Nat}
    (h : Scanned options log p i now state) : Scanned options (log ++ [e]) p i now state := by
  obtain ⟨pre, mid, live, rfl, hpre, hab⟩ := h
  exact ⟨pre, mid ++ [e], live, by simp, hpre, hab⟩

theorem Scanned.mem {p i : Nat}
    (h : Scanned options log p i now state) : state ∈ states Event.after? log := by
  obtain ⟨pre, mid, live, rfl, hpre, -⟩ := h
  rw [states_append]
  exact List.mem_append_left _ (mem_of_latest hpre)

theorem mem_states_concat (h : state ∈ states Event.after? log) :
    state ∈ states Event.after? (log ++ [e]) := by
  rw [states_concat]
  exact List.mem_append_left _ h

theorem Conforms.concat {p : Nat} {x : Proc} (h : Conforms cron options log p x) :
    Conforms cron options (log ++ [e]) p x := by
  cases x with
  | registering => exact h
  | merging => exact ⟨h.1, fun state hs => mem_states_concat (h.2 state hs)⟩
  | updating => exact mem_states_concat h
  | dueSkip => exact h
  | skipping => exact ⟨mem_states_concat h.1, h.2⟩
  | stale =>
    obtain ⟨state, hf, hs⟩ := h
    exact ⟨state, hf, hs.concat⟩
  | resetting =>
    obtain ⟨hmem, hf, seen, hseen, hs⟩ := h
    exact ⟨mem_states_concat hmem, hf, seen, hseen, hs.concat⟩
  | running | finishing => exact ClaimedFor.concat h
  | idle | managing | dispatched | claiming => trivial

/-! ## The system -/

structure Inv (cron : Cron) (options : Nat → Options) (s : Sys) : Prop where
  legal : Guarded (Legal cron options) s.log
  stored_eq : s.stored = stored s.log
  options_eq : s.options = options
  procs : ∀ p, Conforms cron options s.log p (s.proc p)

variable {s s' : Sys} {p : Nat} {i : Nat}

theorem Inv.mem_states (h : Inv cron options s) (hs : s.stored = some state) :
    state ∈ states Event.after? s.log :=
  mem_of_latest (h.stored_eq.symm.trans hs)

theorem inv_initial : Inv cron options (.initial options) where
  legal := .nil
  stored_eq := rfl
  options_eq := rfl
  procs := fun _ => trivial

namespace Inv

variable (h : Inv cron options s)
include h

theorem moved (hlog : s'.log = s.log) (hstored : s'.stored = s.stored)
    (hoptions : s'.options = s.options)
    (hprocs : ∀ p, s'.proc p = s.proc p ∨ Conforms cron options s.log p (s'.proc p)) :
    Inv cron options s' where
  legal := hlog ▸ h.legal
  stored_eq := by rw [hstored, hlog, h.stored_eq]
  options_eq := hoptions.trans h.options_eq
  procs := by
    intro q
    rw [hlog]
    rcases hprocs q with heq | hc
    · rw [heq]
      exact h.procs q
    · exact hc

theorem setProc {x : Proc} (hx : Conforms cron options s.log p x) :
    Inv cron options (s.setProc p x) := by
  refine h.moved rfl rfl rfl fun q => ?_
  by_cases hq : q = p
  · subst hq
    exact .inr (by simpa [Sys.setProc] using hx)
  · exact .inl (by simp [Sys.setProc, Function.update_of_ne hq])

theorem done : Inv cron options (s.done p) := by
  have hidle := h.setProc (p := p) (x := .idle) trivial
  unfold Sys.done
  split
  · exact hidle.moved rfl rfl rfl fun _ => .inl rfl
  · exact hidle

theorem wrote {cause : Cause} {after : TaskState}
    (he : Legal cron options s.log (.wrote cause s.stored after)) :
    Inv cron options
      { s with stored := some after, log := s.log ++ [.wrote cause s.stored after] } where
  legal := h.legal.concat he
  stored_eq := by
    show _ = latest Event.after? _
    rw [latest_concat]
    rfl
  options_eq := h.options_eq
  procs := fun q => (h.procs q).concat

theorem refused {cause : Cause} :
    Inv cron options (s.apply cause (false, s.stored)) :=
  h.moved rfl rfl rfl fun _ => .inl rfl

theorem replaced {cause : Cause} {state next : TaskState}
    {fence : TaskFence} (hstate : state ∈ states Event.after? s.log)
    (hfence : fenceOf state = fence)
    (hw : s.stored = some state → Writes cron options s.log state cause next) :
    Inv cron options (s.apply cause (replaceTaskIf s.stored next fence)) := by
  rcases replaceTaskIf_cases s.stored next fence with hf | ⟨cur, hcur, hcf, ht⟩
  · rw [hf]
    exact h.refused
  · rw [ht]
    obtain rfl : cur = state :=
      eq_of_fence h.legal hstate (h.stored_eq.symm.trans hcur) (hcf.trans hfence.symm)
    refine h.wrote ?_
    rw [hcur]
    exact .wrote cause cur next (h.stored_eq.symm.trans hcur) (hw hcur)

theorem registerDone {cfg : TaskConfig} {left : Nat} {ok : Bool}
    (hcheck : cfg.check cron = .ok ()) :
    Inv cron options (s.registerDone p i cfg now left ok) := by
  unfold Sys.registerDone
  split
  · have hreg : Inv cron options
      { s with registered := Function.update s.registered i (some cfg) } :=
      h.moved rfl rfl rfl fun _ => .inl rfl
    exact hreg.setProc trivial
  · split
    · exact h.setProc trivial
    · exact h.setProc hcheck

theorem read (hs : s.read p = some s') : Inv cron options s' := by
  have hc := h.procs p
  unfold Sys.read at hs
  split at hs
  case h_1 i cfg now left hp =>
    cases hs
    rw [hp] at hc
    exact h.setProc ⟨hc, fun state hstate => h.mem_states hstate⟩
  case h_2 op left hp =>
    split at hs
    · cases hs
      exact h.done
    case h_2 state hstate =>
      cases hs
      exact h.setProc (h.mem_states hstate)
  case h_3 now due hp =>
    rw [hp] at hc
    split at hs
    · cases hs
      exact h.done
    case h_2 fresh hfresh =>
      split at hs
      · cases hs
        exact h.done
      case isFalse hskip =>
        cases hs
        have hfence : fenceOf fresh = due := by
          by_contra hne
          exact hskip (.inr hne)
        exact h.setProc ⟨h.mem_states hfresh, hfence, hc⟩
  case h_4 i now fence hp =>
    rw [hp] at hc
    split at hs
    · cases hs
      exact h.done
    case h_2 state hstate =>
      split at hs
      · cases hs
        exact h.done
      case isFalse hfence =>
        cases hs
        exact h.setProc ⟨h.mem_states hstate, not_not.mp hfence, hc⟩
  case h_5 => cases hs

/-- What recovery scanned is still what is stored, and nothing was written since. -/
theorem seenStale {seen : TaskState}
    (hseen : Scanned options s.log p i now seen) (hstored : s.stored = some seen) :
    SeenStale options s.log p i now seen := by
  obtain ⟨pre, mid, live, hlog, hpre, hab⟩ := hseen
  refine ⟨pre, mid, live, hlog, ?_, hab⟩
  have hrev := revisions_increase h.legal
  have hlast := h.stored_eq.symm.trans hstored
  have hsplit : s.log = (pre ++ [.scanned p i now seen]) ++ mid := by simp [hlog]
  rw [hsplit] at hrev hlast
  have hmem : seen ∈ states Event.after? (pre ++ [.scanned p i now seen]) := by
    rw [states_append]
    exact List.mem_append_left _ (mem_of_latest hpre)
  have hnil := states_eq_nil (fun x => Int.lt_irrefl (TaskState.revision x)) hrev hmem hlast
  intro e he
  by_contra hne
  obtain ⟨after, hafter⟩ := Option.ne_none_iff_exists'.mp hne
  have hin := Lib.mem_states he hafter
  rw [hnil] at hin
  cases hin

theorem write (hs : s.write cron p = some s') :
    Inv cron options s' := by
  have hc := h.procs p
  unfold Sys.write at hs
  split at hs
  case h_1 i cfg now left hp =>
    rw [hp] at hc
    cases hs
    refine Inv.registerDone ?_ hc.1
    rcases createTask_cases s.stored (cfg.base cron now) with ⟨cur, -, hf⟩ | ⟨hnone, ht⟩
    · rw [hf]
      exact h.refused
    · rw [ht]
      refine h.wrote ?_
      rw [hnone]
      exact .create i cfg now hc.1 (h.stored_eq.symm.trans hnone)
  case h_2 i cfg now left existing hp =>
    rw [hp] at hc
    cases hs
    refine (h.replaced (hc.2 existing rfl) rfl fun _ => ?_).registerDone hc.1
    rw [h.options_eq]
    exact .register i cfg now hc.1
  case h_3 now due state hp =>
    rw [hp] at hc
    cases hs
    obtain ⟨hmem, rfl, hactive, hfree⟩ := hc
    exact (h.replaced hmem rfl fun _ => .skip now hactive hfree).done
  case h_4 i now fence state hp =>
    rw [hp] at hc
    cases hs
    obtain ⟨hmem, rfl, seen, hseen, hscan⟩ := hc
    refine (h.replaced hmem rfl fun hstored => .reset p i now ?_).done
    obtain rfl : state = seen :=
      eq_of_fence h.legal hscan.mem (h.stored_eq.symm.trans hstored) hseen.symm
    exact h.seenStale hscan hstored
  case h_5 => cases hs

theorem update (hs : s.update cron p now = some s') :
    Inv cron options s' := by
  have hc := h.procs p
  unfold Sys.update at hs
  split at hs
  case h_1 op left state hp =>
    rw [hp] at hc
    split at hs
    · cases hs
      exact h.done
    case h_2 next hnext =>
      cases hs
      refine (h.replaced hc rfl fun _ => .manage op now next hnext).setProc ?_
      split <;> trivial
  case h_2 => cases hs

theorem claim (hs : s.claim p = some s') : Inv cron options s' := by
  unfold Sys.claim at hs
  split at hs
  case h_1 i runID start state hp =>
    simp only at hs
    obtain ⟨c, hc⟩ : ∃ c : RunClaim, c = ⟨state.nextRunAt, state.runAt, unix start, runID,
      unix start + leaseSeconds (s.options i).runLease⟩ := ⟨_, rfl⟩
    rw [← hc] at hs
    rcases claimRun_cases s.stored c with ⟨err, he⟩ | hf | ⟨st, hst, hstart, hid, hact,
      hfree, hn, hr, ht⟩
    · rw [he] at hs
      cases hs
      exact h.done
    · rw [hf] at hs
      cases hs
      exact h.refused.done
    · rw [ht] at hs
      cases hs
      refine (h.wrote ?_).setProc ?_
      · rw [hst]
        exact .wrote (.claim c) st (st.claimed c) (h.stored_eq.symm.trans hst)
          (.claim c hstart hid hact hfree hn hr)
      · exact ⟨c, s.stored, st.claimed c, by simp, by rw [hc], by rw [hc]⟩
  case h_2 => cases hs

theorem renewed (runID : String) (leaseUntil : Int) :
    Inv cron options (s.apply (.renew runID leaseUntil) (renewRun s.stored runID leaseUntil)) := by
  rcases renewRun_cases s.stored runID leaseUntil with hf | ⟨st, hst, howns, ht⟩
  · rw [hf]
    exact h.refused
  · rw [ht]
    refine h.wrote ?_
    rw [hst]
    exact .wrote (.renew runID leaseUntil) st (st.renewed runID leaseUntil)
      (h.stored_eq.symm.trans hst) (.renew runID leaseUntil howns)

theorem finished (runID : String) (result : RunResult)
    (hclaimed : ClaimedFor s.log runID result.runAt) :
    Inv cron options (s.apply (.finish runID result) (finishRun s.stored runID result)) := by
  rcases finishRun_cases s.stored runID result with hf | ⟨st, hst, howns, ht⟩
  · rw [hf]
    exact h.refused
  · rw [ht]
    refine h.wrote ?_
    rw [hst]
    exact .wrote (.finish runID result) st (st.finished result)
      (h.stored_eq.symm.trans hst) (.finish runID result howns hclaimed)

theorem tick (hs : s.tick p i now = some s') :
    Inv cron options s' := by
  unfold Sys.tick at hs
  split at hs
  case h_1 state cfg hp hstored hreg =>
    split at hs
    case isFalse => cases hs
    case isTrue hdue =>
      cases hs
      refine h.setProc ?_
      split
      · exact ⟨hdue.1, hdue.2.2.2⟩
      · trivial
  case h_2 => cases hs

theorem trigger (hs : s.trigger p i = some s') :
    Inv cron options s' := by
  unfold Sys.trigger at hs
  split at hs
  · split at hs
    · cases hs
      exact h.setProc trivial
    · cases hs
  · cases hs

theorem announce {start : Time} {random : String}
    (hs : s.announce p start random = some s') : Inv cron options s' := by
  unfold Sys.announce at hs
  split at hs
  case h_1 i cfg state hp =>
    split at hs
    · cases hs
      have hclaiming := h.setProc (p := p)
        (x := .claiming i (newRunID (s.options i) random) start state) trivial
      exact hclaiming.moved rfl rfl rfl fun _ => .inl rfl
    · cases hs
      exact h.done
  case h_2 => cases hs

theorem renew (hs : s.renew p now = some s') :
    Inv cron options s' := by
  unfold Sys.renew at hs
  split at hs
  · cases hs
    exact h.renewed _ _
  · cases hs
    exact h.renewed _ _
  · cases hs

theorem body {end_ : Time} {success : Bool}
    (hs : s.body p end_ success = some s') : Inv cron options s' := by
  have hc := h.procs p
  unfold Sys.body at hs
  split at hs
  case h_1 hp _ =>
    rw [hp] at hc
    cases hs
    split
    · exact h.done
    · exact h.setProc hc
  case h_2 =>
    cases hs
    exact h.done
  case h_3 => cases hs

theorem finish (hs : s.finish cron p = some s') :
    Inv cron options s' := by
  have hc := h.procs p
  unfold Sys.finish at hs
  split at hs
  case h_1 i runID start end_ success state fresh hp =>
    rw [hp] at hc
    cases hs
    have hclaimed : ClaimedFor s.log runID state.runAt := hc
    exact (h.finished runID _ hclaimed).done
  case h_2 => cases hs

theorem scan (hs : s.scan p i now = some s') :
    Inv cron options s' := by
  unfold Sys.scan at hs
  split at hs
  case h_1 state hp hstored =>
    split at hs
    case isFalse => cases hs
    case isTrue hab =>
      cases hs
      rw [h.options_eq] at hab
      have hstate := h.stored_eq.symm.trans hstored
      refine ⟨h.legal.concat (.scanned p i now state hstate _ hab), ?_, h.options_eq, fun q => ?_⟩
      · show _ = latest Event.after? _
        rw [latest_concat]
        exact h.stored_eq
      · by_cases hq : q = p
        · subst hq
          simp only [Sys.setProc, Function.update_self]
          exact ⟨state, rfl, s.log, [], _, rfl, hstate, hab⟩
        · simp only [Sys.setProc, Function.update_of_ne hq]
          exact (h.procs q).concat
  case h_2 => cases hs

theorem restart (i : Nat) : Inv cron options (s.restart i) := by
  refine h.moved rfl rfl rfl fun q => ?_
  simp only [Sys.restart]
  split
  · exact .inr trivial
  · exact .inl rfl
end Inv

theorem inv_step {a : Action} (h : Inv cron options s)
    (hs : (Sys.machine cron).step s a = some s') :
    Inv cron options s' := by
  cases a with
  | register p i cfg now =>
    simp only [Sys.machine, Sys.step] at hs
    split at hs
    · split at hs
      · cases hs
        exact h
      case h_2 hcheck =>
        cases hs
        exact h.setProc hcheck
    · cases hs
  | manage p op =>
    simp only [Sys.machine, Sys.step] at hs
    split at hs
    · cases hs
      exact h.setProc trivial
    · cases hs
  | read p => exact h.read hs
  | write p => exact h.write hs
  | update p now => exact h.update hs
  | tick p i now => exact h.tick hs
  | trigger p i => exact h.trigger hs
  | announce p start random => exact h.announce hs
  | claim p => exact h.claim hs
  | renew p now => exact h.renew hs
  | body p end_ success => exact h.body hs
  | finish p => exact h.finish hs
  | scan p i now => exact h.scan hs
  | giveUp p =>
    cases hs
    exact h.done
  | restart i =>
    cases hs
    exact h.restart i

theorem inv_run {actions : List Action}
    (h : (Sys.machine cron).run (.initial options) actions = some s) : Inv cron options s :=
  Machine.invariant_run (fun _ _ => True) (Inv cron options) (fun _ _ _ hi _ hs => inv_step hi hs)
    inv_initial (Machine.along_of_mem (fun _ _ _ => trivial) _) h

end GoAtlas.Scheduler
