import GoAtlas.Saga.Conformance

/-!
# Which instances recovery finds

`Instance.Recoverable` and the scan of `storages/memory` over it. An instance that is not terminal
is found once its lease is over if it has an owner or a deadline. The first owner is written by the
Update that takes the lease, after Create; a deadline is written by Create, if there is a saga
timeout.
-/

namespace GoAtlas.Saga

open GoAtlas.Lib

/-- `LeaseUntil.After(now)`. -/
def Instance.leased (inst : Instance) (now : Int) : Bool := inst.leaseUntil.any (now < ·)

def Instance.recoverable (inst : Instance) (now : Int) : Bool :=
  if inst.status.isTerminal || inst.leased now then false
  else inst.status = .compensating || inst.leaseOwner.isSome || inst.deadline.any (· ≤ now)

structure Stored where
  definition : String
  inst : Instance
  deriving DecidableEq

/-- The scan over the instances, in the order of the iteration; `limit` 0 is no limit. -/
def fetchRecoverable (definition : String) (now : Int) (limit : Nat) :
    List Stored → List Stored → List Stored
  | out, [] => out
  | out, x :: rest =>
    if (definition ≠ "" ∧ x.definition ≠ definition) ∨ x.inst.recoverable now = false then
      fetchRecoverable definition now limit out rest
    else
      let out := out ++ [x]
      if 0 < limit ∧ limit ≤ out.length then out else fetchRecoverable definition now limit out rest

/-- Without a limit the scan keeps what it is to find, in any store. -/
theorem fetchRecoverable_unlimited (definition : String) (now : Int) (out instances : List Stored) :
    fetchRecoverable definition now 0 out instances = out ++ instances.filter fun x =>
      (definition = "" || x.definition = definition) && x.inst.recoverable now := by
  induction instances generalizing out with
  | nil => simp [fetchRecoverable]
  | cons x rest ih =>
    simp only [fetchRecoverable, ih]
    split
    · rename_i h
      rw [List.filter_cons_of_neg]
      rcases h with h | h
      · simp [h]
      · simp [h]
    · rename_i h
      rw [not_or, not_and_or, Bool.not_eq_false] at h
      rw [if_neg (by simp), List.filter_cons_of_pos, List.append_assoc, List.singleton_append]
      simpa [h.2] using h.1

/-- What the scan looks for once the lease is over. -/
def Instance.Marked (inst : Instance) : Prop :=
  inst.status = .compensating ∨ inst.leaseOwner ≠ none ∨ inst.deadline ≠ none

/-- Found from some time on, whenever no lease is active. -/
def Instance.Found (inst : Instance) : Prop :=
  ∃ t, ∀ now, t ≤ now → inst.leased now = false → inst.recoverable now = true

variable {inst : Instance}

theorem Instance.leased_eq_false {now : Int}
    (h : inst.leaseUntil.getD now ≤ now) : inst.leased now = false := by
  cases hu : inst.leaseUntil with
  | none => simp [leased, hu]
  | some u => simpa [leased, hu] using h

theorem Instance.found_iff_marked (hlive : inst.status.isTerminal = false) :
    inst.Found ↔ inst.Marked := by
  constructor
  · rintro ⟨t, h⟩
    have hfree : inst.leased (max t (inst.leaseUntil.getD t)) = false := by
      refine leased_eq_false ?_
      cases inst.leaseUntil with
      | none => exact Int.le_refl _
      | some u => exact Int.le_max_right t u
    have hrec := h _ (Int.le_max_left _ _) hfree
    rw [recoverable, hlive, hfree] at hrec
    simp only [Bool.or_false, Bool.false_eq_true, if_false, Bool.or_eq_true,
      decide_eq_true_eq] at hrec
    rcases hrec with (hrec | hrec) | hrec
    · exact .inl hrec
    · exact .inr (.inl (Option.isSome_iff_ne_none.mp hrec))
    · refine .inr (.inr fun hnone => ?_)
      simp [hnone] at hrec
  · intro hmark
    refine ⟨inst.deadline.getD 0, fun now hnow hfree => ?_⟩
    rw [recoverable, hlive, hfree]
    rcases hmark with hstatus | howner | hdeadline
    · simp [hstatus]
    · simp [Option.isSome_iff_ne_none.mpr howner]
    · obtain ⟨deadline, hd⟩ := Option.ne_none_iff_exists'.mp hdeadline
      rw [hd, Option.getD_some] at hnow
      simp [hd, hnow]

variable {defn : Definition} {log : List Event}

/-- Before the first lease the instance is as Create wrote it; from then on it has an owner until it
is terminal. -/
theorem owner_iff_acquired (h : Guarded (Legal defn) log) :
    ∀ base, current log = some base →
      (acquisitions log = [] → base.status = .running ∧ base.leaseOwner = none) ∧
      (acquisitions log ≠ [] → base.status.isTerminal = false → base.leaseOwner ≠ none) := by
  refine h.induct (motive := fun log => ∀ base, current log = some base →
    (acquisitions log = [] → base.status = .running ∧ base.leaseOwner = none) ∧
    (acquisitions log ≠ [] → base.status.isTerminal = false → base.leaseOwner ≠ none)) ?_ ?_
  · intro base hcur
    cases hcur
  · intro log e hlog he ih cur hcur
    rw [current_concat] at hcur
    rw [acquisitions_concat]
    cases he with
    | created deadline hnone =>
      cases hcur
      refine ⟨fun _ => ⟨rfl, rfl⟩, fun hne => ?_⟩
      -- an acquisition needs an instance, and there was none before
      have hnil : acquisitions log = [] := by
        rw [List.eq_nil_iff_forall_not_mem]
        rintro ⟨d, fence⟩ hmem
        obtain ⟨recovering, now, inst, hsaved, -⟩ := mem_acquisitions hmem
        rw [current_eq, List.getLast?_eq_none_iff] at hnone
        have hin := mem_persisted hsaved rfl
        rw [hnone] at hin
        cases hin
      simp [hnil, Event.acquired?] at hne
    | acquired d recovering now until_ base hbase =>
      cases hcur
      refine ⟨fun hnil => ?_, fun _ _ => by simp⟩
      simp [Event.acquired?] at hnil
    | saved d k base next hbase howner hw =>
      cases hcur
      have hne : acquisitions log ≠ [] := by
        intro hnil
        rw [((ih base hbase).1 hnil).2] at howner
        cases howner
      refine ⟨fun hnil => absurd (List.append_eq_nil_iff.mp hnil).1 hne, fun _ hlive => ?_⟩
      cases hw with
      | dropped hterminal =>
        rw [show base.status.isTerminal = false from hlive] at hterminal
        cases hterminal
      | _ =>
        intro hnone
        rw [show base.leaseOwner = none from hnone] at howner
        cases howner
    | begun | returned => simpa [Event.acquired?] using ih cur hcur

/-- A persisted instance that is not terminal is found by the scan without a limit, from some time
on and whenever it has no active lease, exactly if it was created with a deadline or some execution
has taken its lease. -/
theorem fetched_iff_deadline_or_acquired {actions : List Action} {s : Sys}
    (hrun : (Sys.machine defn).run .initial actions = some s) (hstored : s.stored = some inst)
    (hlive : inst.status.isTerminal = false) (instances : List Stored)
    (hmem : ⟨defn.name, inst⟩ ∈ instances) :
    (∃ t, ∀ now, t ≤ now → inst.leased now = false →
        inst.recoverable now = true ∧
          ⟨defn.name, inst⟩ ∈ fetchRecoverable defn.name now 0 [] instances) ↔
      inst.deadline ≠ none ∨ acquisitions s.log ≠ [] := by
  have hcur : current s.log = some inst := (inv_run hrun).stored.symm.trans hstored
  have howner := owner_iff_acquired (inv_run hrun).legal inst hcur
  have hfetch : ∀ now, inst.recoverable now = true →
      ⟨defn.name, inst⟩ ∈ fetchRecoverable defn.name now 0 [] instances := by
    intro now hrec
    rw [fetchRecoverable_unlimited]
    simp [hmem, hrec]
  have hmarked : inst.Marked ↔ inst.deadline ≠ none ∨ acquisitions s.log ≠ [] := by
    constructor
    · rintro (hstatus | hown | hdeadline)
      · refine .inr fun hnil => ?_
        rw [(howner.1 hnil).1] at hstatus
        cases hstatus
      · exact .inr fun hnil => hown (howner.1 hnil).2
      · exact .inl hdeadline
    · rintro (hdeadline | hacq)
      · exact .inr (.inr hdeadline)
      · exact .inr (.inl (howner.2 hacq hlive))
  rw [← hmarked, ← Instance.found_iff_marked hlive]
  constructor
  · rintro ⟨t, h⟩
    exact ⟨t, fun now hnow hfree => (h now hnow hfree).1⟩
  · rintro ⟨t, h⟩
    exact ⟨t, fun now hnow hfree => ⟨h now hnow hfree, hfetch now (h now hnow hfree)⟩⟩

/-- The process ends between Create and the Update that takes the lease. -/
def killedAtCreate (deadline : Option Int) : List Action := [.start 0 deadline 0 10 .ok, .kill 0]

theorem fetched_iff_deadline_or_acquired_killed :
    ∃ s, (Sys.machine twoStages).run .initial (killedAtCreate (some 60)) = some s ∧
      s.stored = some (newInstance (some 60)) ∧
      ∃ t, ∀ now, t ≤ now → (newInstance (some 60)).leased now = false →
        (newInstance (some 60)).recoverable now = true ∧
        ⟨"order", newInstance (some 60)⟩ ∈
          fetchRecoverable "order" now 0 [] [⟨"order", newInstance (some 60)⟩] := by
  obtain ⟨s, hrun, hstored⟩ : ∃ s, (Sys.machine twoStages).run .initial
    (killedAtCreate (some 60)) = some s ∧
      s.stored = some (newInstance (some 60)) := ⟨_, rfl, rfl⟩
  refine ⟨s, hrun, hstored, (fetched_iff_deadline_or_acquired hrun hstored rfl
    [⟨twoStages.name, newInstance (some 60)⟩] (by simp)).mpr (.inl ?_)⟩
  simp [newInstance]

/-- Without a saga timeout such an instance stays running, and no scan ever finds it. -/
theorem killed_at_create_lost :
    ∃ s, (Sys.machine twoStages).run .initial (killedAtCreate none) = some s ∧
      s.stored = some (newInstance none) ∧ (newInstance none).status.isTerminal = false ∧
      ∀ now, (newInstance none).leased now = false ∧ (newInstance none).recoverable now = false ∧
        fetchRecoverable "order" now 0 [] [⟨"order", newInstance none⟩] = [] := by
  refine ⟨_, rfl, rfl, rfl, fun now => ⟨rfl, rfl, ?_⟩⟩
  rfl

end GoAtlas.Saga
