import GoAtlas.Saga.History

/-!
# What the rules guarantee

Every log that obeys the rules is a sequence of persisted instances, each made from the one before
it, with callbacks between them. Facts about all pairs of persisted instances come from transitive
relations that one write keeps.
-/

namespace GoAtlas.Saga

open GoAtlas.Lib

variable {defn : Definition} {log : List Event} {base next : Instance} {x y : Instance}
    {done : Op → Nat → Nat → Prop} {k : Checkpoint}

/-! ## Consecutive instances -/

/-- `next` is persisted over `base`, in one of the ways of the rules. -/
inductive Over (defn : Definition) (base : Instance) : Instance → Prop
  | acquired (d : Nat) (until_ : Int) (hlive : base.status.isTerminal = false) :
      Over defn base
        { base with leaseOwner := some d, leaseUntil := some until_, version := base.version + 1 }
  | saved (done : Op → Nat → Nat → Prop) (k : Checkpoint) (next : Instance)
      (hw : Writes defn done base k next) : Over defn base { next with version := base.version + 1 }

theorem Over.version_lt (h : Over defn base next) :
    base.version < next.version := by
  cases h <;> exact Nat.lt_succ_self _

inductive Moves : Status → Status → Prop
  | stay (s : Status) : Moves s s
  | complete : Moves .running .completed
  | rollback : Moves .running .compensating
  | fail : Moves .running .failed
  | undone : Moves .compensating .compensated
  | stuck : Moves .compensating .failed

theorem Writes.moves (h : Writes defn done base k next) : Moves base.status next.status := by
  cases h with
  | expired _ hs => simpa [hs] using .rollback
  | rollback _ _ hs => simpa [hs] using .rollback
  | failed _ _ hs => simpa [hs] using .fail
  | completed hs => simpa [hs] using .complete
  | undone hs => simpa [hs] using .undone
  | compensationFailed _ hs => simpa [hs] using .stuck
  | _ => exact .stay _

theorem Over.moves (h : Over defn base next) :
    Moves base.status next.status := by
  cases h with
  | acquired => exact .stay _
  | saved _ _ _ hw => exact hw.moves

/-- One above the stage whose compensations are due. -/
def Instance.height (inst : Instance) : Nat :=
  if inst.pendingSteps = [] then inst.stage else inst.stage + 1

theorem Serves.running {base : Instance} {stage step : Nat}
    (h : Serves defn base .action stage step) : base.status = .running ∧ base.stage = stage := by
  cases h with
  | action hstatus => exact ⟨hstatus, rfl⟩

theorem Serves.height_eq {base : Instance} {stage step : Nat}
    (h : Serves defn base .compensation stage step) :
    base.status = .compensating ∧ base.height = stage + 1 := by
  cases h with
  | pending hstatus hstep =>
    have hne : base.pendingSteps ≠ [] := List.ne_nil_of_mem hstep
    simp [Instance.height, hstatus, hne]
  | below hstatus hpending hstage => simp [Instance.height, hstatus, hpending, hstage]

/-- A checkpoint of the rollback lowers the height. -/
theorem Writes.height_lt (h : Writes defn done base k next) (hbase : base.status = .compensating)
    (hnext : next.status = .compensating) (hk : k ≠ .released) : next.height < base.height := by
  cases h with
  | pendingUndone _ hpending => simp [Instance.height, hpending]
  | stageUndone stage _ hpending hstage => simp [Instance.height, hpending, hstage]
  | released | dropped => exact absurd rfl hk
  | undone | compensationFailed => cases hnext
  | expired _ hs | intent hs | rollback _ _ hs | failed _ _ hs | committed hs | completed hs =>
    rw [hbase] at hs
    cases hs

def Status.rank : Status → Nat
  | .running => 0
  | .compensating => 1
  | .completed | .compensated | .failed => 2

/-- `y` was persisted after `x`, or is `x`: the status does not go back, going forward the cursor
only rises and going back the height only falls. -/
structure Later (x y : Instance) : Prop where
  rank_le : x.status.rank ≤ y.status.rank
  forward : x.status = .running → y.status = .running → x.stage ≤ y.stage
  backward : x.status = .compensating → y.status = .compensating → y.height ≤ x.height

theorem Moves.rank_le {s t : Status} (h : Moves s t) : s.rank ≤ t.rank := by
  cases h <;> simp [Status.rank]

theorem Status.eq_of_rank {s t : Status} (hs : s.isTerminal = false) (h₁ : s.rank ≤ t.rank)
    (h₂ : t.rank ≤ s.rank) : t = s := by
  revert hs h₁ h₂
  cases s <;> cases t <;> decide

theorem Later.refl (x : Instance) : Later x x := ⟨le_rfl, fun _ _ => le_rfl, fun _ _ => le_rfl⟩

theorem Later.trans {x y z : Instance} (hxy : Later x y) (hyz : Later y z) : Later x z where
  rank_le := hxy.rank_le.trans hyz.rank_le
  forward := by
    intro hx hz
    have hy : y.status = .running :=
      Status.eq_of_rank rfl (hx ▸ hxy.rank_le) (hz ▸ hyz.rank_le)
    exact (hxy.forward hx hy).trans (hyz.forward hy hz)
  backward := by
    intro hx hz
    have hy : y.status = .compensating :=
      Status.eq_of_rank rfl (hx ▸ hxy.rank_le) (hz ▸ hyz.rank_le)
    exact (hyz.backward hy hz).trans (hxy.backward hx hy)

theorem Writes.forward (h : Writes defn done base k next) (hnext : next.status = .running) :
    base.stage ≤ next.stage := by
  cases h with
  | committed => exact Nat.le_succ _
  | stageUndone _ hs => rw [hs] at hnext; cases hnext
  | _ => exact le_rfl

theorem Over.later (h : Over defn base next) : Later base next where
  rank_le := h.moves.rank_le
  forward := by
    intro _ hnext
    cases h with
    | acquired => exact le_rfl
    | saved _ _ _ hw => exact hw.forward hnext
  backward := by
    intro hbase hnext
    cases h with
    | acquired => exact le_rfl
    | saved _ k next hw =>
      by_cases hk : k = .released
      · subst hk
        cases hw <;> exact le_rfl
      · exact (hw.height_lt hbase hnext hk).le

/-! ## The persisted instances -/

theorem Legal.over {e : Event} (h : Legal defn log e) (hx : current log = some x)
    (hy : e.persisted? = some y) : Over defn x y := by
  cases h with
  | created _ hnone => rw [hnone] at hx; cases hx
  | acquired d _ _ until_ base hcur hlive =>
    obtain rfl : base = x := Option.some.inj (hcur.symm.trans hx)
    cases hy
    exact .acquired d until_ hlive
  | saved d k base next hcur _ hw =>
    obtain rfl : base = x := Option.some.inj (hcur.symm.trans hx)
    cases hy
    exact .saved _ k next hw
  | begun | returned => cases hy

section

variable (h : Guarded (Legal defn) log)
include h

theorem persisted_chain : (persisted log).IsChain (Over defn) :=
  h.isChain fun _ _ _ _ => Legal.over

theorem persisted_head :
    ∀ inst, (persisted log).head? = some inst → ∃ deadline, inst = newInstance deadline := by
  refine h.induct (motive := fun log => ∀ inst, (persisted log).head? = some inst →
    ∃ deadline, inst = newInstance deadline) (by simp [persisted, states])
    fun log e _ he ih inst => ?_
  rw [persisted_concat]
  intro hinst
  cases hl : persisted log with
  | cons x rest =>
    rw [hl] at hinst ih
    exact ih inst hinst
  | nil =>
    have hnone : current log = none := List.getLast?_eq_none_iff.mpr hl
    rw [hl] at hinst
    cases he with
    | created deadline => exact ⟨deadline, by simpa [Event.persisted?] using hinst.symm⟩
    | acquired _ _ _ _ _ hcur | saved _ _ _ _ hcur => rw [hnone] at hcur; cases hcur
    | begun | returned => simp [Event.persisted?] at hinst

theorem persisted_pairwise {R : Instance → Instance → Prop}
    (htrans : ∀ x y z, R x y → R y z → R x z) (hstep : ∀ x y, Over defn x y → R x y) :
    (persisted log).Pairwise R :=
  h.pairwise htrans fun _ _ x y he hx hy => hstep x y (he.over hx hy)

theorem persisted_later : (persisted log).Pairwise Later :=
  persisted_pairwise h (fun _ _ _ => Later.trans) fun _ _ => Over.later

end

theorem persisted_append (l₁ l₂ : List Event) :
    persisted (l₁ ++ l₂) = persisted l₁ ++ persisted l₂ := states_append ..

theorem later_of_append {l₁ l₂ : List Event} (h : Guarded (Legal defn) (l₁ ++ l₂))
    (hx : x ∈ persisted l₁) (hy : y ∈ persisted l₂) : Later x y := by
  have hp := persisted_later h
  rw [persisted_append] at hp
  exact (List.pairwise_append.mp hp).2.2 x hx y hy

theorem versions_increase (h : Guarded (Legal defn) log) :
    (persisted log).Pairwise (·.version < ·.version) :=
  persisted_pairwise h (fun _ _ _ => Nat.lt_trans) fun _ _ => Over.version_lt

theorem later_current (h : Guarded (Legal defn) log) {base inst : Instance}
    (hcur : current log = some base) (hinst : inst ∈ persisted log) : Later inst base :=
  rel_latest (persisted_later h) Later.refl hcur hinst

theorem version_le_current (h : Guarded (Legal defn) log) {base inst : Instance}
    (hcur : current log = some base) (hinst : inst ∈ persisted log) :
    inst.version ≤ base.version :=
  rel_latest ((versions_increase h).imp Nat.le_of_lt) (fun _ => le_rfl) hcur hinst

/-! ## The pivot -/

/-- The pivot was reached and the saga is not being rolled back. -/
def Past (defn : Definition) (inst : Instance) : Prop :=
  defn.pivotIdx ≤ inst.stage ∧ inst.status ≠ .compensating

/-- The rollback began before the pivot. -/
def Back (defn : Definition) (inst : Instance) : Prop :=
  inst.stage < defn.pivotIdx ∧ inst.status ≠ .running

theorem Past.over (h : Over defn x y) (hx : Past defn x) : Past defn y := by
  obtain ⟨hstage, hstatus⟩ := hx
  cases h with
  | acquired => exact ⟨hstage, hstatus⟩
  | saved _ _ _ hw =>
    cases hw with
    | expired _ _ hlt | rollback _ _ _ hlt => exact absurd hlt (Nat.not_lt.mpr hstage)
    | pendingUndone hs | stageUndone _ hs => exact absurd hs hstatus
    | committed => exact ⟨hstage.trans (Nat.le_succ _), hstatus⟩
    | failed | completed | undone | compensationFailed => exact ⟨hstage, by simp⟩
    | intent | released | dropped => exact ⟨hstage, hstatus⟩

theorem Back.over (h : Over defn x y) (hx : Back defn x) : Back defn y := by
  obtain ⟨hstage, hstatus⟩ := hx
  cases h with
  | acquired => exact ⟨hstage, hstatus⟩
  | saved _ _ _ hw =>
    cases hw with
    | expired _ hs | intent hs | rollback _ _ hs | failed _ _ hs | committed hs | completed hs =>
      exact absurd hs hstatus
    | stageUndone stage _ _ hs => exact ⟨by simp only; omega, hstatus⟩
    | undone | compensationFailed => exact ⟨hstage, by simp⟩
    | pendingUndone | released | dropped => exact ⟨hstage, hstatus⟩

/-- A rollback starts before the pivot, and its cursor only falls. -/
theorem compensating_before_pivot (h : Guarded (Legal defn) log) {inst : Instance}
    (hinst : inst ∈ persisted log) (hstatus : inst.status = .compensating) :
    inst.stage < defn.pivotIdx := by
  refine (persisted_chain h).induction
    (fun inst => inst.status = .compensating → inst.stage < defn.pivotIdx)
      _ ?_ ?_ inst hinst hstatus
  · intro x y hover hx hy
    cases hover with
    | acquired => exact hx hy
    | saved _ _ _ hw =>
      cases hw with
      | expired _ _ hlt | rollback _ _ _ hlt => exact hlt
      | intent hs | committed hs => exact absurd (hs.symm.trans hy) (by decide)
      | stageUndone _ hs _ hstage => have := hx hs; simp only; omega
      | pendingUndone | released | dropped => exact hx hy
      | failed | completed | undone | compensationFailed => cases hy
  · intro hne hhead
    obtain ⟨deadline, hd⟩ := persisted_head h _ (List.head?_eq_some_head hne)
    rw [hd] at hhead
    cases hhead

/-- No rollback and an instance at or past the pivot are persisted in one run. -/
theorem before_pivot_of_compensating (h : Guarded (Legal defn) log)
    (hx : x ∈ persisted log) (hcomp : x.status = .compensating) (hy : y ∈ persisted log) :
    y.stage < defn.pivotIdx := by
  have hxlt := compensating_before_pivot h hx hcomp
  by_contra hge
  have hypast : Past defn y :=
    ⟨Nat.not_lt.mp hge, fun hs => hge (compensating_before_pivot h hy hs)⟩
  have hxback : Back defn x := ⟨hxlt, by simp [hcomp]⟩
  -- whichever of the two came first decides the other
  have hpairs : (persisted log).Pairwise fun a b =>
      (Past defn a → Past defn b) ∧ (Back defn a → Back defn b) :=
    persisted_pairwise h (fun _ _ _ hab hbc => ⟨hbc.1 ∘ hab.1, hbc.2 ∘ hab.2⟩)
      fun _ _ ho => ⟨Past.over ho, Back.over ho⟩
  have hsymm : (persisted log).Pairwise fun a b =>
      ¬ (Back defn a ∧ Past defn b ∧ a.status = .compensating) ∧
        ¬ (Back defn b ∧ Past defn a ∧ b.status = .compensating) := by
    refine hpairs.imp fun hab => ⟨?_, ?_⟩
    · rintro ⟨ha, hb, -⟩
      exact absurd hb.1 (Nat.not_le.mpr (hab.2 ha).1)
    · rintro ⟨-, ha, hb⟩
      exact (hab.1 ha).2 hb
  have : Std.Symm fun a b : Instance =>
      ¬ (Back defn a ∧ Past defn b ∧ a.status = .compensating) ∧
        ¬ (Back defn b ∧ Past defn a ∧ b.status = .compensating) := ⟨fun _ _ => And.symm⟩
  refine (hsymm.forall hx hy ?_).1 ⟨hxback, hypast, hcomp⟩
  rintro rfl
  exact hge hxlt

/-! ## The lease -/

/-- The instance names as its owner only the driver that acquired the lease last, and then it is
that driver's own last write. -/
theorem owner_holds (h : Guarded (Legal defn) log) :
    ∀ base d, current log = some base → base.leaseOwner = some d →
      holder log = some d ∧ lastBy d log = some base := by
  refine h.induct (motive := fun log => ∀ base d, current log = some base →
    base.leaseOwner = some d → holder log = some d ∧ lastBy d log = some base) ?_ ?_
  · intro base d hcur
    cases hcur
  · intro log e _ he ih cur d hcur howner
    rw [current_concat] at hcur
    rw [holder_concat, lastBy_concat]
    cases he with
    | created =>
      cases hcur
      cases howner
    | acquired d' _ _ _ base =>
      cases hcur
      cases howner
      simp [Event.acquired?, Event.savedBy?]
    | saved d' k base next hbase hd' hw =>
      cases hcur
      have hd : d' = d := by
        cases hw with
        | dropped => cases howner
        | _ => exact Option.some.inj (hd'.symm.trans howner)
      subst hd
      have hk : Event.acquired? (.saved d' k { next with version := base.version + 1 }) = none := by
        cases hw <;> rfl
      simp [hk, Event.savedBy?, (ih base d' hbase hd').1]
    | begun | returned => simpa [Event.acquired?, Event.savedBy?] using ih cur d hcur howner

theorem lastBy_isSome {d : Nat} {inst : Instance} (h : .saved d k inst ∈ log) :
    lastBy d log ≠ none := by
  intro hnone
  have hnil := List.getLast?_eq_none_iff.mp hnone
  have hmem : inst ∈ log.filterMap (Event.savedBy? d) :=
    List.mem_filterMap.mpr ⟨_, h, by simp [Event.savedBy?]⟩
  rw [hnil] at hmem
  cases hmem

theorem mem_acquisitions {d fence : Nat} (h : (d, fence) ∈ acquisitions log) :
    ∃ recovering now inst, .saved d (.acquired recovering now) inst ∈ log ∧
      inst.version = fence := by
  obtain ⟨e, he, ha⟩ := List.mem_filterMap.mp h
  cases e with
  | saved d' k inst =>
    cases k with
    | acquired recovering now =>
      cases ha
      exact ⟨recovering, now, inst, he, rfl⟩
    | _ => cases ha
  | _ => cases ha

theorem acquisitions_increase (h : Guarded (Legal defn) log) :
    (acquisitions log).Pairwise fun a b => a.2 < b.2 ∧ a.1 ≠ b.1 := by
  refine h.induct (motive := fun log => (acquisitions log).Pairwise fun a b =>
    a.2 < b.2 ∧ a.1 ≠ b.1) List.Pairwise.nil fun log e hlog he ih => ?_
  rw [acquisitions_concat]
  cases he with
  | acquired d _ _ _ base hcur _ hnew =>
    refine List.pairwise_append.mpr ⟨ih, List.pairwise_singleton _ _, ?_⟩
    intro a ha b hb
    obtain rfl := List.mem_singleton.mp hb
    obtain ⟨_, _, inst, hsaved, hv⟩ := mem_acquisitions (show (a.1, a.2) ∈ _ from ha)
    have hle := version_le_current hlog hcur (mem_persisted hsaved rfl)
    refine ⟨by simp only; omega, ?_⟩
    rintro rfl
    exact lastBy_isSome hsaved hnew
  | saved d k base next _ _ hw => cases hw <;> simpa [Event.acquired?] using ih
  | created | begun | returned => simpa [Event.acquired?] using ih

/-! ## The order of stages -/

/-- The stages below the cursor of a saga that goes forward were persisted as committed. -/
theorem committed_below (h : Guarded (Legal defn) log) :
    ∀ inst ∈ persisted log, inst.status = .running → ∀ i < inst.stage,
      ∃ d x, .saved d .committed x ∈ log ∧ x.stage = i + 1 := by
  refine h.induct (motive := fun log => ∀ inst ∈ persisted log, inst.status = .running →
    ∀ i < inst.stage, ∃ d x, .saved d .committed x ∈ log ∧ x.stage = i + 1) ?_ ?_
  · intro inst hinst
    cases hinst
  · intro log e _ he ih inst hinst hstatus i hi
    have lift (h : ∃ d x, .saved d .committed x ∈ log ∧ x.stage = i + 1) :
        ∃ d x, .saved d .committed x ∈ log ++ [e] ∧ x.stage = i + 1 := by
      obtain ⟨d, x, hx, hs⟩ := h
      exact ⟨d, x, List.mem_append_left _ hx, hs⟩
    rw [persisted_concat] at hinst
    rcases List.mem_append.mp hinst with hold | hnew
    · exact lift (ih inst hold hstatus i hi)
    · cases he with
      | created =>
        obtain rfl := List.mem_singleton.mp hnew
        exact absurd hi (Nat.not_lt_zero i)
      | acquired d _ _ _ base hcur =>
        obtain rfl := List.mem_singleton.mp hnew
        exact lift (ih base (List.mem_of_getLast? hcur) hstatus i hi)
      | begun | returned => cases hnew
      | saved d k base next hcur _ hw =>
        obtain rfl := List.mem_singleton.mp hnew
        have hbase := ih base (List.mem_of_getLast? hcur)
        cases hw with
        | committed hs =>
          rcases Nat.lt_succ_iff_lt_or_eq.mp hi with hlt | rfl
          · exact lift (hbase hs i hlt)
          · exact ⟨d, _, List.mem_append_right _ (List.mem_singleton_self _), rfl⟩
        | intent hs => exact lift (hbase hs i hi)
        | pendingUndone hs | stageUndone _ hs => exact absurd (hs.symm.trans hstatus) (by decide)
        | released | dropped => exact lift (hbase hstatus i hi)
        | expired | rollback | failed | completed | undone | compensationFailed => cases hstatus

theorem lastBy_append (d : Nat) (l₁ l₂ : List Event) :
    lastBy d (l₁ ++ l₂) = (lastBy d l₂).or (lastBy d l₁) := by
  rw [lastBy, List.filterMap_append, List.getLast?_append]
  rfl

theorem later_lastBy {l₁ l₂ : List Event} {d : Nat}
    (h : Guarded (Legal defn) (l₁ ++ l₂)) (hx : lastBy d l₁ = some x)
    (hy : lastBy d (l₁ ++ l₂) = some y) : Later x y := by
  rw [lastBy_append] at hy
  cases hl : lastBy d l₂ with
  | none =>
    rw [hl, hx] at hy
    cases hy
    exact .refl x
  | some z =>
    rw [hl] at hy
    cases hy
    exact later_of_append h (lastBy_mem_persisted hx) (lastBy_mem_persisted hl)

/-- A driver compensates stages downwards; after a checkpoint it is at a lower stage. -/
theorem compensations_descend {pre mid post : List Event} {d i j fence i' j' fence' : Nat}
    (h : Guarded (Legal defn) (pre ++ .begun d .compensation i j fence ::
      (mid ++ .begun d .compensation i' j' fence' :: post))) :
    i' ≤ i ∧ ((∃ k x, k ≠ .released ∧ .saved d k x ∈ mid) → i' < i) := by
  obtain ⟨base, hbase, hserves⟩ : ∃ base, lastBy d pre = some base ∧
      Serves defn base .compensation i j := by
    cases h pre _ _ rfl with
    | begun _ _ _ _ _ base hlast hserves => exact ⟨base, hlast, hserves⟩
  have hsplit : Guarded (Legal defn) ((pre ++ .begun d .compensation i j fence :: mid) ++
      .begun d .compensation i' j' fence' :: post) := by simpa using h
  have hguard := hsplit.of_append
  obtain ⟨last, hlast, hserves'⟩ : ∃ last,
      lastBy d (pre ++ .begun d .compensation i j fence :: mid) = some last ∧
        Serves defn last .compensation i' j' := by
    cases hsplit _ _ _ rfl with
    | begun _ _ _ _ _ last hlast hserves => exact ⟨last, hlast, hserves⟩
  obtain ⟨hstatus, hheight⟩ := hserves.height_eq
  obtain ⟨hstatus', hheight'⟩ := hserves'.height_eq
  have hfall := (later_lastBy hguard hbase hlast).backward hstatus hstatus'
  refine ⟨by omega, ?_⟩
  rintro ⟨k, x, hk, hmem⟩
  obtain ⟨m₁, m₂, rfl⟩ := List.append_of_mem hmem
  -- the checkpoint is a write over the driver's own last write
  have hsplit₁ : Guarded (Legal defn) ((pre ++ .begun d .compensation i j fence :: m₁) ++
      .saved d k x :: m₂) := by simpa using hguard
  have hguard₁ := hsplit₁.of_append
  cases hsplit₁ _ _ _ rfl with
  | acquired _ _ _ _ _ _ _ hnew =>
    rw [lastBy_append, hbase] at hnew
    cases hl : lastBy d (.begun d .compensation i j fence :: m₁) <;> simp [hl] at hnew
  | saved _ _ before next hcur howner hw =>
    obtain ⟨-, hbefore⟩ := owner_holds hguard₁ before d hcur howner
    have hlate₁ := later_lastBy hguard₁ hbase hbefore
    have hlate₂ : Later { next with version := before.version + 1 } last := by
      have hsplit₂ : Guarded (Legal defn) (((pre ++ .begun d .compensation i j fence :: m₁) ++
          [.saved d k { next with version := before.version + 1 }]) ++ m₂) := by simpa using hguard
      refine later_lastBy (d := d) hsplit₂ ?_ (by simpa using hlast)
      rw [lastBy_concat]
      simp [Event.savedBy?]
    have hmoves : before.status.rank ≤ next.status.rank := hw.moves.rank_le
    have hs : before.status = .compensating := Status.eq_of_rank rfl
      (hstatus ▸ hlate₁.rank_le) (hstatus' ▸ hmoves.trans hlate₂.rank_le)
    have hs' : next.status = .compensating :=
      Status.eq_of_rank rfl (hs ▸ hmoves) (hstatus' ▸ hlate₂.rank_le)
    have h₁ := hlate₁.backward hstatus hs
    have h₂ := hw.height_lt hs hs' hk
    have h₃ : last.height ≤ next.height := hlate₂.backward hs' hstatus'
    omega

/-- A driver that takes over goes on below what was persisted as undone. -/
theorem takeover_below {pre mid post : List Event} {d i j fence : Nat}
    {recovering : Bool} {now : Int} {inst x : Instance}
    (h : Guarded (Legal defn) (pre ++ .saved d (.acquired recovering now) inst ::
      (mid ++ .begun d .compensation i j fence :: post)))
    (hx : x ∈ persisted pre) (hstatus : x.status = .compensating) : i < x.height := by
  have hnew : lastBy d pre = none := by
    cases h pre _ _ rfl with
    | acquired _ _ _ _ _ _ _ hnew => exact hnew
    | saved _ _ _ _ _ _ hw => cases hw
  have hsplit : Guarded (Legal defn) ((pre ++ .saved d (.acquired recovering now) inst :: mid) ++
      .begun d .compensation i j fence :: post) := by simpa using h
  have hguard := hsplit.of_append
  cases hsplit _ _ _ rfl with
  | begun _ _ _ _ _ last hlast hserves =>
    rw [lastBy_append, hnew, Option.or_none] at hlast
    obtain ⟨hstatus', hheight⟩ := hserves.height_eq
    have hfall := (later_of_append hguard hx (lastBy_mem_persisted hlast)).backward hstatus hstatus'
    omega

/-! ## The state machine -/

/-- The protocol of one instance, over the log of a run. -/
structure StateMachine (defn : Definition) (log : List Event) : Prop where
  statuses : (persisted log).IsChain fun x y => Moves x.status y.status
  terminal : (persisted log).Pairwise fun x y => x.status.isTerminal → y.status = x.status
  rollback_before_pivot : ∀ inst ∈ persisted log,
    inst.status = .compensating → inst.stage < defn.pivotIdx
  /-- A run with a compensation never reaches the pivot. -/
  no_compensation_past_pivot : ∀ d stage step fence, .begun d .compensation stage step fence ∈ log →
    ∀ inst ∈ persisted log, inst.stage < defn.pivotIdx
  actions_in_order : ∀ pre post d i step fence, log = pre ++ .begun d .action
    (i + 1) step fence :: post →
    ∃ d' x, .saved d' .committed x ∈ pre ∧ x.stage = i + 1
  /-- The compensations of one driver: downwards, and strictly so across its checkpoints. -/
  compensations_in_order : ∀ pre mid post d i step fence i' step' fence',
    log = pre ++ .begun d .compensation i step fence ::
      (mid ++ .begun d .compensation i' step' fence' :: post) →
    i' ≤ i ∧ ((∃ k x, k ≠ .released ∧ .saved d k x ∈ mid) → i' < i)
  /-- A later driver goes on below every cursor persisted before it acquired the lease, or at it
  while steps are pending. -/
  takeover : ∀ pre mid post d recovering now inst i step fence,
    log = pre ++ .saved d (.acquired recovering now) inst ::
      (mid ++ .begun d .compensation i step fence :: post) →
    ∀ x ∈ persisted pre, x.status = .compensating → i < x.height
  /-- Only the driver that acquired the lease last persists a checkpoint. -/
  checkpoints_by_holder : ∀ pre post d k inst, log = pre ++ .saved d k inst :: post →
    (∀ recovering now, k ≠ .acquired recovering now) → holder pre = some d
  fences : (acquisitions log).Pairwise fun a b => a.2 < b.2 ∧ a.1 ≠ b.1
  /-- A callback gets the fence its driver acquired. -/
  fence_of_callback : ∀ pre post d op stage step fence,
    log = pre ++ .begun d op stage step fence :: post → (d, fence) ∈ acquisitions pre

theorem Over.terminal (h : Over defn x y) (hx : x.status.isTerminal) :
    y.status = x.status := by
  have hmoves := h.moves
  revert hmoves hx
  generalize x.status = s
  generalize y.status = t
  intro hx hmoves
  cases hmoves <;> first | rfl | cases hx

theorem stateMachine (h : Guarded (Legal defn) log) : StateMachine defn log where
  statuses := (persisted_chain h).imp fun _ _ => Over.moves
  terminal := persisted_pairwise h
    (fun x y z hxy hyz hx => (hyz (hxy hx ▸ hx)).trans (hxy hx)) fun _ _ => Over.terminal
  rollback_before_pivot := fun _ hinst => compensating_before_pivot h hinst
  no_compensation_past_pivot := by
    intro d stage step fence hmem inst hinst
    obtain ⟨pre, post, rfl⟩ := List.append_of_mem hmem
    cases h pre _ _ rfl with
    | begun _ _ _ _ _ base hlast hserves =>
      refine before_pivot_of_compensating h ?_ hserves.height_eq.1 hinst
      rw [persisted_append]
      exact List.mem_append_left _ (lastBy_mem_persisted hlast)
  actions_in_order := by
    rintro pre post d i step fence rfl
    cases h pre _ _ rfl with
    | begun _ _ _ _ _ base hlast hserves =>
      obtain ⟨hstatus, hstage⟩ := hserves.running
      exact committed_below h.of_append base (lastBy_mem_persisted hlast) hstatus i (by omega)
  compensations_in_order := by
    rintro pre mid post d i step fence i' step' fence' rfl
    exact compensations_descend h
  takeover := by
    rintro pre mid post d recovering now inst i step fence rfl x hx hstatus
    exact takeover_below h hx hstatus
  checkpoints_by_holder := by
    rintro pre post d k inst rfl hk
    cases h pre _ _ rfl with
    | acquired _ recovering now => exact absurd rfl (hk recovering now)
    | saved _ _ base _ hcur howner => exact (owner_holds h.of_append base d hcur howner).1
  fences := acquisitions_increase h
  fence_of_callback := by
    rintro pre post d op stage step fence rfl
    cases h pre _ _ rfl with
    | begun _ _ _ _ _ _ _ _ hfence => exact hfence

end GoAtlas.Saga
