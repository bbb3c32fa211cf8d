import Mathlib.Data.List.Basic
import Mathlib.Logic.Function.Basic

/-!
# Dispatch under a limit

`dispatchDynamic` (`scheduler_exec.go`): the tasks a tick found due, sorted by priority, are started
while there are slots. Critical tasks take none, high ones take any, and the others leave the slots
that are reserved for high ones, of which each high task started uses up one. The goroutines that
were started end later; no other goroutine changes the flags within the loop.
-/

namespace GoAtlas.Scheduler

inductive TaskPriority where
  | unspecified | low | normal | high | critical
  deriving DecidableEq

def TaskPriority.value : TaskPriority → Nat
  | .unspecified => 0
  | .low => 1
  | .normal => 2
  | .high => 3
  | .critical => 4

structure PendingTask where
  id : String
  priority : TaskPriority
  deriving DecidableEq

/-- What a dispatch writes: the flag of each registered task that a dispatch of it is queued or
running, the counter of running tasks, and the goroutines started. -/
structure Dispatch where
  dispatched : String → Bool
  runningCount : Int
  started : List PendingTask

namespace Dispatch

def claim (d : Dispatch) (pt : PendingTask) : Dispatch :=
  { d with dispatched := Function.update d.dispatched pt.id true }

def release (d : Dispatch) (pt : PendingTask) : Dispatch :=
  { d with dispatched := Function.update d.dispatched pt.id false }

def start (d : Dispatch) (pt : PendingTask) : Dispatch := { d with started := d.started ++ [pt] }

def count (d : Dispatch) : Dispatch := { d with runningCount := d.runningCount + 1 }

/-- Every task that can be claimed, for a limit function without a limit. -/
def unlimited (d : Dispatch) : List PendingTask → Dispatch
  | [] => d
  | pt :: rest =>
    if d.dispatched pt.id then d.unlimited rest else ((d.claim pt).count.start pt).unlimited rest

/-- The loop over the pending tasks. -/
def limited (available reserved : Int) (d : Dispatch) : List PendingTask → Dispatch
  | [] => d
  | pt :: rest =>
    if d.dispatched pt.id then d.limited available reserved rest
    else if pt.priority = .critical then ((d.claim pt).start pt).limited available reserved rest
    else if available ≤ 0 then (d.claim pt).release pt
    else if pt.priority ≠ .high ∧ available ≤ reserved then (d.claim pt).release pt
    else
      ((d.claim pt).count.start pt).limited (available - 1)
        (if pt.priority = .high ∧ 0 < reserved then reserved - 1 else reserved) rest

end Dispatch

/-- `limit` is what the limit function returned, `reserved` the slots for high priority. -/
def dispatchDynamic (limit reserved : Int) (d : Dispatch) (pending : List PendingTask) : Dispatch :=
  if limit ≤ 0 then d.unlimited pending else d.limited (limit - d.runningCount) reserved pending

/-! ## The slots in closed form -/

/-- The tasks whose claim succeeds when the loop comes to them: each but once. -/
def claimable (dispatched : String → Bool) : List PendingTask → List PendingTask
  | [] => []
  | pt :: rest =>
    if dispatched pt.id then claimable dispatched rest
    else pt :: claimable (Function.update dispatched pt.id true) rest

def criticals (ts : List PendingTask) : List PendingTask := ts.filter (·.priority = .critical)

def highs (ts : List PendingTask) : List PendingTask := ts.filter (·.priority = .high)

def others (ts : List PendingTask) : List PendingTask :=
  ts.filter fun pt => pt.priority ≠ .critical ∧ pt.priority ≠ .high

/-- The slots that are left for the others when `high` high tasks are started. -/
def left (available reserved : Int) (high : Nat) : Nat :=
  (available - max (high : Int) reserved).toNat

/-- The tasks started when `available` slots are free and `reserved` of them are kept. -/
def batch (available reserved : Int) (ts : List PendingTask) : List PendingTask :=
  criticals ts ++ (highs ts).take available.toNat ++
    (others ts).take (left available reserved (min (highs ts).length available.toNat))

def Dispatch.after (d : Dispatch) (ts : List PendingTask) : Dispatch where
  dispatched id := d.dispatched id || ts.any (·.id == id)
  runningCount := d.runningCount + (ts.filter (·.priority ≠ .critical)).length
  started := d.started ++ ts

def Descending (ts : List PendingTask) : Prop :=
  ts.Pairwise fun a b => b.priority.value ≤ a.priority.value

variable {available reserved : Int} {d : Dispatch} {pt : PendingTask} {ts rest : List PendingTask}

theorem claimable_sublist (dispatched : String → Bool) (ts : List PendingTask) :
    (claimable dispatched ts).Sublist ts := by
  induction ts generalizing dispatched with
  | nil => exact .slnil
  | cons pt rest ih =>
    unfold claimable
    split
    · exact (ih _).cons _
    · exact (ih _).cons_cons _

theorem value_le_of_mem_claimable {dispatched : String → Bool} (h : Descending (pt :: rest))
    {x : PendingTask} (hx : x ∈ claimable dispatched rest) : x.priority.value ≤ pt.priority.value :=
  List.rel_of_pairwise_cons h ((claimable_sublist _ _).subset hx)

theorem criticals_eq_nil (hne : pt.priority ≠ .critical)
    (h : ∀ x ∈ ts, x.priority.value ≤ pt.priority.value) : criticals ts = [] := by
  refine List.filter_eq_nil_iff.mpr fun x hx => ?_
  have hle := h x hx
  cases hp : pt.priority <;> cases hxp : x.priority <;> simp_all [TaskPriority.value]

theorem highs_eq_nil (hne : pt.priority ≠ .critical) (hne' : pt.priority ≠ .high)
    (h : ∀ x ∈ ts, x.priority.value ≤ pt.priority.value) : highs ts = [] := by
  refine List.filter_eq_nil_iff.mpr fun x hx => ?_
  have hle := h x hx
  cases hp : pt.priority <;> cases hxp : x.priority <;> simp_all [TaskPriority.value]

theorem release_claim (h : d.dispatched pt.id = false) : (d.claim pt).release pt = d.after [] := by
  simp only [Dispatch.claim, Dispatch.release, Function.update_idem]
  rw [← h, Function.update_eq_self]
  simp [Dispatch.after]

theorem claim_dispatched (d : Dispatch) (pt : PendingTask) (ts : List PendingTask) (id : String) :
    ((d.claim pt).dispatched id || ts.any (·.id == id)) =
    (d.dispatched id || (pt :: ts).any (·.id == id)) := by
  by_cases hid : id = pt.id
  · simp [Dispatch.claim, hid]
  · have hne : (pt.id == id) = false := beq_eq_false_iff_ne.mpr (Ne.symm hid)
    simp [Dispatch.claim, hid, hne]

theorem after_cons_critical (h : pt.priority = .critical) :
    ((d.claim pt).start pt).after ts = d.after (pt :: ts) := by
  simp only [Dispatch.after, Dispatch.start, Dispatch.mk.injEq]
  refine ⟨funext fun id => claim_dispatched d pt ts id, ?_, ?_⟩
  · simp [Dispatch.claim, h]
  · simp [Dispatch.claim]

theorem after_cons_counted (h : pt.priority ≠ .critical) :
    ((d.claim pt).count.start pt).after ts = d.after (pt :: ts) := by
  simp only [Dispatch.after, Dispatch.count, Dispatch.start, Dispatch.mk.injEq]
  refine ⟨funext fun id => claim_dispatched d pt ts id, ?_, ?_⟩
  · simp [Dispatch.claim, h]
    omega
  · simp [Dispatch.claim]

/-! ### The first task of a batch -/

theorem batch_cons_critical (h : pt.priority = .critical) :
    batch available reserved (pt :: ts) = pt :: batch available reserved ts := by
  simp [batch, criticals, highs, others, h]

theorem batch_cons_high (h : pt.priority = .high) (hpos : 0 < available)
    (hcrit : criticals ts = []) :
    batch available reserved (pt :: ts) = pt :: batch (available - 1)
      (if 0 < reserved then reserved - 1 else reserved) ts := by
  have hnat : available.toNat = (available - 1).toNat + 1 := by omega
  have hcrit' : criticals (pt :: ts) = [] := by
    rw [← hcrit]
    simp [criticals, h]
  have hhigh : highs (pt :: ts) = pt :: highs ts := by simp [highs, h]
  have hothers : others (pt :: ts) = others ts := by simp [others, h]
  have hleft : left available reserved (min ((highs ts).length + 1) ((available - 1).toNat + 1)) =
      left (available - 1) (if 0 < reserved then reserved - 1 else reserved)
        (min (highs ts).length (available - 1).toNat) := by
    unfold left
    split <;> omega
  simp only [batch, hcrit, hcrit', hhigh, hothers, hnat, List.nil_append, List.take_succ_cons,
    List.length_cons, List.cons_append, hleft]

theorem batch_cons_other (hne : pt.priority ≠ .critical) (hne' : pt.priority ≠ .high)
    (hpos : 0 < available) (hres : reserved < available) (hcrit : criticals ts = [])
    (hhigh : highs ts = []) :
    batch available reserved (pt :: ts) = pt :: batch (available - 1) reserved ts := by
  have hcrit' : criticals (pt :: ts) = [] := by
    rw [← hcrit]
    simp [criticals, hne]
  have hhigh' : highs (pt :: ts) = [] := by
    rw [← hhigh]
    simp [highs, hne']
  have hothers : others (pt :: ts) = pt :: others ts := by simp [others, hne, hne']
  have hleft : left available reserved 0 = left (available - 1) reserved 0 + 1 := by
    unfold left
    omega
  simp only [batch, hcrit, hcrit', hhigh, hhigh', hothers, List.nil_append, List.take_nil,
    List.length_nil, Nat.zero_min, hleft, List.take_succ_cons]

theorem batch_of_no_slot (hcrit : criticals ts = []) (hnone : available ≤ 0) :
    batch available reserved ts = [] := by
  have hzero : available.toNat = 0 := by omega
  have hleft : left available reserved 0 = 0 := by
    unfold left
    omega
  simp [batch, hcrit, hzero, hleft]

theorem batch_of_reserved (hcrit : criticals ts = []) (hhigh : highs ts = [])
    (hres : available ≤ reserved) :
    batch available reserved ts = [] := by
  have hleft : left available reserved 0 = 0 := by
    unfold left
    omega
  simp [batch, hcrit, hhigh, hleft]

theorem limited_eq (hsorted : Descending ts) :
    d.limited available reserved ts =
      d.after (batch available reserved (claimable d.dispatched ts)) := by
  induction ts generalizing available reserved d with
  | nil => simp [Dispatch.limited, claimable, batch, criticals, highs, others, Dispatch.after]
  | cons pt rest ih =>
    have hrest : Descending rest := List.Pairwise.of_cons hsorted
    have hle : ∀ x ∈ claimable (Function.update d.dispatched pt.id true) rest,
        x.priority.value ≤ pt.priority.value := fun x hx => value_le_of_mem_claimable hsorted hx
    rw [Dispatch.limited, claimable]
    by_cases hclaimed : d.dispatched pt.id = true
    · rw [if_pos hclaimed, if_pos hclaimed]
      exact ih hrest
    rw [if_neg hclaimed, if_neg hclaimed]
    by_cases hcritical : pt.priority = .critical
    · rw [if_pos hcritical, ih hrest, batch_cons_critical hcritical,
        ← after_cons_critical hcritical]
      rfl
    have hcrit := criticals_eq_nil hcritical hle
    have hcrit' : criticals (pt :: claimable (Function.update d.dispatched pt.id true) rest) =
        [] := by
      rw [← hcrit]
      simp [criticals, hcritical]
    have hfree : d.dispatched pt.id = false := by simpa using hclaimed
    rw [if_neg hcritical]
    by_cases hslot : available ≤ 0
    · rw [if_pos hslot, batch_of_no_slot hcrit' hslot, release_claim hfree]
    rw [if_neg hslot]
    by_cases hhigh : pt.priority = .high
    · rw [if_neg (fun h => h.1 hhigh), ih hrest, batch_cons_high hhigh (by omega) hcrit,
        ← after_cons_counted hcritical]
      simp only [hhigh, true_and]
      rfl
    have hnone := highs_eq_nil hcritical hhigh hle
    by_cases hres : available ≤ reserved
    · have hnone' : highs (pt :: claimable (Function.update d.dispatched pt.id true) rest) =
          [] := by
        rw [← hnone]
        simp [highs, hhigh]
      rw [if_pos ⟨hhigh, hres⟩, batch_of_reserved hcrit' hnone' hres, release_claim hfree]
    · rw [if_neg (fun h => hres h.2), ih hrest, batch_cons_other hcritical hhigh (by omega)
        (by omega) hcrit hnone, ← after_cons_counted hcritical]
      simp only [hhigh, false_and, if_false]
      rfl

/-- Under a limit: every critical task that can be claimed is started, the high ones in order while
there are slots, and of the others the first that fit beside the high ones started, or the slots
reserved for them if those are more. No other task is left claimed. -/
theorem dispatchDynamic_batch (limit reserved : Int) (d : Dispatch) (pending : List PendingTask)
    (hlimit : 0 < limit) (hsorted : Descending pending) :
    let ready := claimable d.dispatched pending
    let slots := limit - d.runningCount
    let h := min (highs ready).length slots.toNat
    let started := criticals ready ++ (highs ready).take slots.toNat ++
      (others ready).take (slots - max (h : Int) reserved).toNat
    (dispatchDynamic limit reserved d pending).started = d.started ++ started ∧
      (∀ id, (dispatchDynamic limit reserved d pending).dispatched id =
        (d.dispatched id || started.any (·.id == id))) ∧
      (dispatchDynamic limit reserved d pending).runningCount =
        d.runningCount + (started.filter (·.priority ≠ .critical)).length := by
  have hdispatch : dispatchDynamic limit reserved d pending =
      d.after (batch (limit - d.runningCount) reserved (claimable d.dispatched pending)) := by
    rw [dispatchDynamic, if_neg (by omega), limited_eq hsorted]
  rw [hdispatch]
  exact ⟨rfl, fun id => rfl, rfl⟩

/-- Of five slots one is taken and two are reserved: the high task uses up a reserved one, and two
of the three normal ones start. -/
theorem dispatchDynamic_batch_mixed :
    ((dispatchDynamic 5 2 ⟨fun id => id == "b", 1, []⟩
      [⟨"a", .critical⟩, ⟨"b", .high⟩, ⟨"c", .high⟩, ⟨"d", .normal⟩, ⟨"e", .normal⟩,
      ⟨"f", .low⟩]).started.map
        PendingTask.id) = ["a", "c", "d", "e"] := by
  have h := (dispatchDynamic_batch 5 2 ⟨fun id => id == "b", 1, []⟩
    [⟨"a", .critical⟩, ⟨"b", .high⟩, ⟨"c", .high⟩, ⟨"d", .normal⟩, ⟨"e", .normal⟩,
    ⟨"f", .low⟩] (by decide)
    (by unfold Descending; decide)).1
  rw [h]
  decide

end GoAtlas.Scheduler
