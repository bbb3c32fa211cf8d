import GoAtlas.Lib.Machine
import Mathlib.Algebra.Order.BigOperators.Group.Finset
import Mathlib.Logic.Function.Basic

/-!
# Batches

`ProcessCollect` of `core/runtime/concurrency`: a pool of workers claims the indices of the items
from a shared counter, or the caller's goroutine runs through them. A worker's turn is cut at every
use of what it shares: it looks at the context, claims an index, calls the callback, comes back from
it, and records an error. The caller's context may end at any point, and a callback may return
anything. The ledger notes which items were passed to the callback and what came back; it also holds
the two arrays that the callback's wrapper writes.
-/

namespace GoAtlas.Batch

open Lib

variable {ε ρ : Type}

structure Options where
  concurrency : Int
  limitFunc : Option Int
  stopOnError : Bool
  /-- `runtime.NumCPU()`. -/
  numCpu : Nat
  numCpu_pos : 0 < numCpu

def Options.defaultLimitFunc (o : Options) : Int := o.numCpu * 2

def Options.fixedConcurrency (o : Options) : Int :=
  if 0 < o.concurrency then o.concurrency else o.defaultLimitFunc

def getConcurrency (o : Options) : Int :=
  match o.limitFunc with
  | some limit => if 0 < limit then limit else o.fixedConcurrency
  | none => o.fixedConcurrency

theorem getConcurrency_pos (o : Options) : 0 < getConcurrency o := by
  have hcpu := o.numCpu_pos
  have hfixed : 0 < o.fixedConcurrency := by
    unfold Options.fixedConcurrency Options.defaultLimitFunc
    split <;> omega
  unfold getConcurrency
  split
  · split
    · assumption
    · exact hfixed
  · exact hfixed

/-! ## The ledger -/

structure Ledger (ε ρ : Type) where
  passed : List Nat
  returned : Nat → Option (Except ε ρ)
  results : Nat → ρ
  completed : Nat → Bool

/-- `make` fills the arrays with zero values. -/
def Ledger.empty [Inhabited ρ] : Ledger ε ρ := ⟨[], fun _ => none, fun _ => default, fun _ => false⟩

def Ledger.pass (l : Ledger ε ρ) (idx : Nat) : Ledger ε ρ := { l with passed := l.passed ++ [idx] }

def Ledger.finish (l : Ledger ε ρ) (idx : Nat) (r : Except ε ρ) : Ledger ε ρ :=
  let l := { l with returned := Function.update l.returned idx (some r) }
  match r with
  | .ok res => { l with
      results := Function.update l.results idx res
      completed := Function.update l.completed idx true }
  | .error _ => l

structure Ledger.Sound (l : Ledger ε ρ) : Prop where
  nodup : l.passed.Nodup
  passed : ∀ i, (l.returned i).isSome → i ∈ l.passed
  stored : ∀ i r, l.returned i = some (.ok r) → l.completed i = true ∧ l.results i = r
  completed : ∀ i, l.completed i = true → ∃ r, l.returned i = some (.ok r)

section Ledger

variable {l : Ledger ε ρ} {i : Nat}

@[simp] theorem Ledger.mem_pass {j : Nat} : j ∈ (l.pass i).passed ↔ j ∈ l.passed ∨ j = i := by
  simp [Ledger.pass]

@[simp] theorem Ledger.passed_finish (r : Except ε ρ) : (l.finish i r).passed = l.passed := by
  cases r <;> rfl

@[simp] theorem Ledger.returned_finish (r : Except ε ρ) :
    (l.finish i r).returned = Function.update l.returned i (some r) := by
  cases r <;> rfl

theorem Ledger.Sound.empty [Inhabited ρ] : (Ledger.empty : Ledger ε ρ).Sound := by
  constructor <;> simp [Ledger.empty]

theorem Ledger.Sound.pass (h : l.Sound) (hi : i ∉ l.passed) : (l.pass i).Sound where
  nodup := by
    unfold Ledger.pass
    rw [← List.concat_eq_append]
    exact List.Nodup.concat hi h.nodup
  passed j hj := Ledger.mem_pass.mpr (.inl (h.passed j hj))
  stored := h.stored
  completed := h.completed

theorem Ledger.Sound.finish (h : l.Sound) (hi : i ∈ l.passed) (hnone : l.returned i = none)
    (r : Except ε ρ) :
    (l.finish i r).Sound where
  nodup := by
    rw [Ledger.passed_finish]
    exact h.nodup
  passed j hj := by
    rw [Ledger.passed_finish]
    by_cases hij : j = i
    · exact hij ▸ hi
    · rw [Ledger.returned_finish, Function.update_of_ne hij] at hj
      exact h.passed j hj
  stored j res hj := by
    rw [Ledger.returned_finish] at hj
    by_cases hij : j = i
    · subst hij
      rw [Function.update_self] at hj
      cases hj
      simp [Ledger.finish]
    · rw [Function.update_of_ne hij] at hj
      cases r <;> simpa [Ledger.finish, hij] using h.stored j res hj
  completed j hj := by
    rw [Ledger.returned_finish]
    by_cases hij : j = i
    · subst hij
      rw [Function.update_self]
      cases r with
      | ok res => exact ⟨res, rfl⟩
      | error e =>
        obtain ⟨res, hres⟩ := h.completed j hj
        rw [hnone] at hres
        cases hres
    · rw [Function.update_of_ne hij]
      apply h.completed
      cases r <;> simpa [Ledger.finish, hij] using hj

end Ledger

structure Outcome (ε ρ : Type) where
  ledger : Ledger ε ρ
  err : Option ε

/-! ## The workers -/

inductive Pc (ε : Type) where
  | check
  | claim
  | claimed (idx : Nat)
  | running (idx : Nat)
  | failed (err : ε)
  | done

def Pc.holds : Pc ε → Option Nat
  | .claimed idx | .running idx => some idx
  | _ => none

structure State (ε ρ : Type) where
  /-- `ctx.Err()` of the caller. -/
  ctxErr : Option ε
  cancelled : Bool
  next : Nat
  firstErr : Option ε
  workers : Nat → Pc ε
  ledger : Ledger ε ρ

inductive Act (ε ρ : Type) where
  | cancel (err : ε)
  | check (w : Nat)
  | claim (w : Nat)
  | call (w : Nat)
  | finish (w : Nat) (r : Except ε ρ)
  | record (w : Nat)

def Act.isWorker : Act ε ρ → Bool
  | .cancel _ => false
  | _ => true

/-- `gCtx.Err() != nil`. -/
def State.gCtxDone (s : State ε ρ) : Bool := s.ctxErr.isSome || s.cancelled

def State.goTo (s : State ε ρ) (w : Nat) (pc : Pc ε) : State ε ρ :=
  { s with workers := Function.update s.workers w pc }

/-- `once.Do`. -/
def State.recordErr (o : Options) (s : State ε ρ) (err : ε) : State ε ρ :=
  if s.firstErr.isNone then { s with firstErr := some err, cancelled := o.stopOnError } else s

def step (o : Options) (n : Nat) (s : State ε ρ) : Act ε ρ → Option (State ε ρ)
  | .cancel err => if s.ctxErr.isSome then none else some { s with ctxErr := some err }
  | .check w =>
    match s.workers w with
    | .check => some (s.goTo w (if s.gCtxDone then .done else .claim))
    | _ => none
  | .claim w =>
    match s.workers w with
    | .claim =>
      some ({ s with next := s.next + 1 }.goTo w (if n ≤ s.next then .done else .claimed s.next))
    | _ => none
  | .call w =>
    match s.workers w with
    | .claimed idx => some ({ s with ledger := s.ledger.pass idx }.goTo w (.running idx))
    | _ => none
  | .finish w r =>
    match s.workers w with
    | .running idx =>
      some ({ s with ledger := s.ledger.finish idx r }.goTo w
        (match r with | .ok _ => .check | .error err => .failed err))
    | _ => none
  | .record w =>
    match s.workers w with
    | .failed err => some ((s.recordErr o err).goTo w .check)
    | _ => none

def machine (o : Options) (n : Nat) : Machine (State ε ρ) (Act ε ρ) := ⟨step o n⟩

def poolSize (o : Options) (n : Nat) : Nat := (min (getConcurrency o) n).toNat

/-- Worker numbers beyond the pool stand for nobody. -/
def init [Inhabited ρ] (o : Options) (n : Nat) : State ε ρ where
  ctxErr := none
  cancelled := false
  next := 0
  firstErr := none
  workers w := if w < poolSize o n then .check else .done
  ledger := .empty

def State.outcome (n : Nat) (s : State ε ρ) : Outcome ε ρ :=
  ⟨s.ledger, if s.firstErr.isNone && s.next < n then s.ctxErr else s.firstErr⟩

/-! ## The caller's goroutine -/

/-- The loop over the last `k` items, from `idx` on: `ctx idx` is what the context says before the
item, `out idx` what the callback returns for it. The error of the outcome so far is `firstErr`. -/
def processSequential (o : Options) (ctx : Nat → Option ε) (out : Nat → Except ε ρ) :
    (k idx : Nat) → Outcome ε ρ → Outcome ε ρ
  | 0, _, x => x
  | k + 1, idx, x =>
    match ctx idx with
    | some err => if x.err.isSome then x else { x with err := some err }
    | none =>
      let ledger := (x.ledger.pass idx).finish idx (out idx)
      match out idx with
      | .ok _ => processSequential o ctx out k (idx + 1) ⟨ledger, x.err⟩
      | .error err =>
        if o.stopOnError then ⟨ledger, some err⟩
        else processSequential o ctx out k (idx + 1)
          ⟨ledger, if x.err.isNone then some err else x.err⟩

inductive Processed [Inhabited ρ] (o : Options) (n : Nat) : Outcome ε ρ → Prop where
  | empty : n = 0 → Processed o n ⟨.empty, none⟩
  | sequential (ctx : Nat → Option ε) (out : Nat → Except ε ρ) :
      n ≠ 0 → getConcurrency o = 1 ∨ n = 1 →
      Processed o n (processSequential o ctx out n 0 ⟨.empty, none⟩)
  | parallel {as : List (Act ε ρ)} {s : State ε ρ} :
      n ≠ 0 → ¬(getConcurrency o = 1 ∨ n = 1) → (machine o n).run (init o n) as = some s →
        (∀ w, s.workers w = .done) → Processed o n (s.outcome n)

/-! ## `ProcessCollect` -/

inductive Error (ε : Type) where
  | cause (err : ε)
  | wrapped (msg : String) (err : Error ε)

def wrap (err : Option (Error ε)) (msg : String) : Option (Error ε) := err.map (.wrapped msg)

def processCollect (o : Options) (n : Nat) (x : Outcome ε ρ) : List ρ × Option (Error ε) :=
  if n = 0 then ([], none)
  else
    let results := (List.range n).map x.ledger.results
    match x.err with
    | none => (results, none)
    | some cause =>
      let err := if o.stopOnError then wrap (some (.cause cause)) "batch processing failed"
        else some (.cause cause)
      let count := (List.range n).countP x.ledger.completed
      if count = n then (results, err)
      else
        ((List.range n).filterMap fun i => if x.ledger.completed i then some (x.ledger.results i)
          else none, err)

/-! ## What one step does -/

/-- Every way an action can go. -/
inductive Moves (o : Options) (n : Nat) (s : State ε ρ) : Act ε ρ → State ε ρ → Prop where
  | cancel (err : ε) : s.ctxErr = none → Moves o n s (.cancel err) { s with ctxErr := some err }
  | stop {w : Nat} : s.workers w = .check → s.gCtxDone = true →
    Moves o n s (.check w) (s.goTo w .done)
  | proceed {w : Nat} : s.workers w = .check → Moves o n s (.check w) (s.goTo w .claim)
  | exhausted {w : Nat} : s.workers w = .claim → n ≤ s.next →
      Moves o n s (.claim w) ({ s with next := s.next + 1 }.goTo w .done)
  | claim {w : Nat} : s.workers w = .claim → s.next < n →
      Moves o n s (.claim w) ({ s with next := s.next + 1 }.goTo w (.claimed s.next))
  | call {w idx : Nat} : s.workers w = .claimed idx →
      Moves o n s (.call w) ({ s with ledger := s.ledger.pass idx }.goTo w (.running idx))
  | succeed {w idx : Nat} (res : ρ) : s.workers w = .running idx →
      Moves o n s (.finish w (.ok res))
        ({ s with ledger := s.ledger.finish idx (.ok res) }.goTo w .check)
  | fail {w idx : Nat} (err : ε) : s.workers w = .running idx →
      Moves o n s (.finish w (.error err))
        ({ s with ledger := s.ledger.finish idx (.error err) }.goTo w (.failed err))
  | record {w : Nat} {err : ε} : s.workers w = .failed err →
    Moves o n s (.record w) ((s.recordErr o err).goTo w .check)

theorem moves_of_step {o : Options} {n : Nat} {s s' : State ε ρ} {a : Act ε ρ}
    (h : step o n s a = some s') :
    Moves o n s a s' := by
  cases a with
  | cancel err =>
    unfold step at h
    dsimp only at h
    split at h
    · cases h
    · rename_i hctx
      cases h
      exact .cancel err (by simpa using hctx)
  | check w =>
    unfold step at h
    dsimp only at h
    split at h
    · rename_i hw
      cases h
      cases hdone : s.gCtxDone with
      | true => exact .stop hw hdone
      | false => exact .proceed hw
    · cases h
  | claim w =>
    unfold step at h
    dsimp only at h
    split at h
    · rename_i hw
      cases h
      split
      · exact .exhausted hw ‹_›
      · exact .claim hw (by omega)
    · cases h
  | call w =>
    unfold step at h
    dsimp only at h
    split at h
    · cases h
      exact .call ‹_›
    · cases h
  | finish w r =>
    unfold step at h
    dsimp only at h
    split at h
    · cases h
      cases r with
      | ok res => exact .succeed res ‹_›
      | error err => exact .fail err ‹_›
    · cases h
  | record w =>
    unfold step at h
    dsimp only at h
    split at h
    · cases h
      exact .record ‹_›
    · cases h

end GoAtlas.Batch
