import GoAtlas.Lib.Trace
import GoAtlas.RedisFilter.Server
import Mathlib.Data.List.Basic

/-!
# Deletes run at most once

The delete script of `data/probfilter/internal/redisfilter`, and any number of requests, each of
which may run any number of times, at any time. The other scripts of the filter, the commit among
them, run in between; a commit advances the generation, whose token is 0 here as long as there is
none.
-/

namespace GoAtlas.RedisFilter

open Lib

inductive DeleteRecord where
  | pending
  | done (r : Int)
  deriving DecidableEq

structure DeleteRequest where
  token : Nat
  deadline : Nat
  deriving DecidableEq

inductive DeleteReply where
  | expired
  | pending
  | stale
  | error
  | reply (r : Int)
  deriving DecidableEq

/-- How the script goes on once it is about to delete. -/
inductive DeleteRun where
  /-- The record, or its deadline, cannot be written: the script ends there. -/
  | noRecord
  | noDeadline
  /-- The delete command fails. -/
  | error
  /-- It answers `r`, and the outcome is recorded, or cannot be. -/
  | ok (r : Int) (recorded : Bool)
  deriving DecidableEq

def deleteScript (clock generation : Nat) (records : Registry Nat DeleteRecord) (old : List Nat)
    (run : DeleteRun) (id : Nat) (req : DeleteRequest) :
    Registry Nat DeleteRecord × DeleteReply × Option Int :=
  if req.deadline ≤ clock then (records, .expired, none)
  else
    let records := records.prune old clock
    match records.record id with
    | some .pending => (records, .pending, none)
    | some (.done r) => (records, .reply r, none)
    | none =>
      if generation ≠ req.token then (records, .stale, none)
      else match run with
        | .noRecord => (records, .error, none)
        | .noDeadline => (records.set id .pending, .error, none)
        | .error => ((records.put id req.deadline .pending).drop id, .error, none)
        | .ok r true => ((records.put id req.deadline .pending).set id (.done r), .reply r, some r)
        | .ok r false => (records.put id req.deadline .pending, .error, some r)

inductive DeleteEvent where
  | requested (id token : Nat)
  /-- The delete command ran, in the generation, and answered `r`. -/
  | ran (id generation : Nat) (r : Int)
  | answered (id : Nat) (reply : DeleteReply)
  deriving DecidableEq

structure DeleteSys (ν : Type) where
  server : Server ν
  records : Registry Nat DeleteRecord
  requests : Nat → Option DeleteRequest
  log : List DeleteEvent

def DeleteSys.initial (ν : Type) : DeleteSys ν := ⟨.initial ν, .empty, fun _ => none, []⟩

inductive DeleteAction (ν : Type) where
  | tick (d : Nat)
  /-- Another script of the filter runs. -/
  | script (old : List Nat) (fault : Fault ν) (cmd : Command ν)
  | request (id : Nat)
  | exec (id : Nat) (old : List Nat) (run : DeleteRun)

/-- How long after its creation a delete request may run, in milliseconds. -/
def deleteRequestWindow : Nat := 60000

namespace DeleteSys

variable {ν : Type}

def step (s : DeleteSys ν) : DeleteAction ν → Option (DeleteSys ν)
  | .tick d => some { s with server := { s.server with clock := s.server.clock + d } }
  | .script old fault cmd => some { s with server := (s.server.exec old fault cmd).1 }
  | .request id => match s.requests id with
    | none =>
      let req : DeleteRequest := ⟨s.server.generation, s.server.clock + deleteRequestWindow⟩
      some { s with
        requests := Function.update s.requests id (some req)
        log := s.log ++ [.requested id req.token] }
    | some _ => none
  | .exec id old run => match s.requests id with
    | some req =>
      let (records, reply, ran) :=
        deleteScript s.server.clock s.server.generation s.records old run id req
      some { s with
        records := records
        log := s.log ++ (ran.map fun r => .ran id s.server.generation r).toList ++
          [.answered id reply] }
    | none => none

def machine : Machine (DeleteSys ν) (DeleteAction ν) := ⟨step⟩

end DeleteSys

/-! ## At most once -/

/-- A delete command runs once for a request, in the generation whose token the request read; a
later run of the request answers with the outcome, or with an error. -/
def DeleteAllowed (log : List DeleteEvent) : DeleteEvent → Prop
  | .requested _ _ => True
  | .ran id generation _ => .requested id generation ∈ log ∧ ∀ g r, .ran id g r ∉ log
  | .answered id reply => ∀ g r, .ran id g r ∈ log →
    reply = .reply r ∨ reply = .expired ∨ reply = .pending ∨ reply = .error

/-- The record of a request whose delete ran. -/
def RecordOf (r : Int) (x : DeleteRecord) : Prop := x = .pending ∨ x = .done r

structure DeleteInv {ν : Type} (s : DeleteSys ν) : Prop where
  log : Guarded DeleteAllowed s.log
  requested : ∀ id req, s.requests id = some req → .requested id req.token ∈ s.log
  kept : ∀ id g r req, .ran id g r ∈ s.log → s.requests id = some req →
    s.records.Kept s.server.clock id req.deadline (RecordOf r)
  known : ∀ id g r, .ran id g r ∈ s.log → s.requests id ≠ none

section Script

variable {clock generation : Nat} {records : Registry Nat DeleteRecord} {old : List Nat}
    {run : DeleteRun}
  {id : Nat} {req : DeleteRequest}

/-- A request whose delete ran is answered with its outcome or an error, and does not run it
again. -/
theorem deleteScript_of_kept {r : Int} (h : records.Kept clock id req.deadline (RecordOf r)) :
    (deleteScript clock generation records old run id req).2.2 = none ∧
      ((deleteScript clock generation records old run id req).2.1 = .reply r ∨
        (deleteScript clock generation records old run id req).2.1 = .expired ∨
        (deleteScript clock generation records old run id req).2.1 = .pending) ∧
      (deleteScript clock generation records old run id req).1.Kept clock id req.deadline
      (RecordOf r) := by
  unfold deleteScript
  split
  · exact ⟨rfl, .inr (.inl rfl), h⟩
  · rename_i hlt
    have hprune := h.prune old
    obtain ⟨⟨x, hx, hrec⟩, -⟩ := hprune (Nat.lt_of_not_le hlt)
    obtain rfl | rfl := hrec
    · simp only [hx]
      exact ⟨trivial, .inr (.inr trivial), hprune⟩
    · simp only [hx]
      exact ⟨trivial, .inl trivial, hprune⟩

theorem deleteScript_other {id' d : Nat} {P : DeleteRecord → Prop} (h : records.Kept clock id' d P)
    (hne : id' ≠ id) :
    (deleteScript clock generation records old run id req).1.Kept clock id' d P := by
  have hprune := h.prune old
  unfold deleteScript
  split
  · exact h
  · dsimp only
    split
    · exact hprune
    · exact hprune
    · split
      · exact hprune
      · split
        · exact hprune
        · exact hprune.set_of_ne hne
        · exact (hprune.put_of_ne hne).drop_of_ne hne
        · exact (hprune.put_of_ne hne).set_of_ne hne
        · exact hprune.put_of_ne hne

/-- If the delete command runs, it runs in the generation of the request, and leaves a record. -/
theorem deleteScript_ran {r : Int} :
    (deleteScript clock generation records old run id req).2.2 = some r →
    generation = req.token ∧
      (deleteScript clock generation records old run id req).1.Kept clock id req.deadline
      (RecordOf r) ∧
      ((deleteScript clock generation records old run id req).2.1 = .reply r ∨
        (deleteScript clock generation records old run id req).2.1 = .error) := by
  unfold deleteScript
  split
  · exact fun h => by cases h
  · dsimp only
    split
    · exact fun h => by cases h
    · exact fun h => by cases h
    · split
      · exact fun h => by cases h
      · rename_i hgen
        split
        · exact fun h => by cases h
        · exact fun h => by cases h
        · exact fun h => by cases h
        · intro h
          cases h
          refine ⟨not_not.mp hgen, fun _ => ?_, .inl rfl⟩
          exact ⟨⟨.done r, by simp [Registry.set], .inr rfl⟩, by simp [Registry.set, Registry.put]⟩
        · intro h
          cases h
          exact ⟨not_not.mp hgen, Registry.kept_put (.inl rfl), .inr rfl⟩

end Script

theorem exec_clock {ν : Type} (srv : Server ν) (old : List Nat) (fault : Fault ν)
    (cmd : Command ν) :
    (srv.exec old fault cmd).1.clock = srv.clock := by
  cases cmd with
  | stage p d =>
    simp only [Server.exec, Server.stage]
    repeat' split
    all_goals rfl
  | drain p t =>
    simp only [Server.exec, Server.drain]
    repeat' split
    all_goals rfl
  | commit p t loaded =>
    simp only [Server.exec, Server.commit, Server.promote]
    repeat' split
    all_goals rfl
  | _ =>
    simp only [Server.exec]
    repeat' split
    all_goals rfl

namespace DeleteInv

variable {ν : Type} {s s' : DeleteSys ν} {req : DeleteRequest}

theorem initial : DeleteInv (DeleteSys.initial ν) where
  log := .nil
  requested _ _ h := by cases h
  kept _ _ _ _ h := by cases h
  known _ _ _ h := by cases h

theorem server (h : DeleteInv s) {srv : Server ν} (hclock : s.server.clock ≤ srv.clock) :
    DeleteInv { s with server := srv } :=
  ⟨h.log, h.requested, fun id g r req hran hreq => (h.kept id g r req hran hreq).later hclock,
    h.known⟩

theorem request (h : DeleteInv s) {id : Nat} (hnew : s.requests id = none) :
    DeleteInv { s with
      requests := Function.update s.requests id (some req)
      log := s.log ++ [.requested id req.token] } := by
  have hran : ∀ id' g r, .ran id' g r ∈ s.log ++ [.requested id req.token] → .ran id' g r ∈ s.log ∧
      id' ≠ id := by
    intro id' g r hmem
    have hold : .ran id' g r ∈ s.log := by simpa using hmem
    exact ⟨hold, fun heq => h.known id' g r hold (heq ▸ hnew)⟩
  constructor
  · exact h.log.concat trivial
  · intro id' req' hreq
    by_cases hid : id' = id
    · subst hid
      simp only [Function.update_self, Option.some.injEq] at hreq
      simp [hreq]
    · simp only [Function.update_of_ne hid] at hreq
      exact List.mem_append_left _ (h.requested id' req' hreq)
  · intro id' g r req' hmem hreq
    obtain ⟨hold, hid⟩ := hran id' g r hmem
    simp only [Function.update_of_ne hid] at hreq
    exact h.kept id' g r req' hold hreq
  · intro id' g r hmem
    obtain ⟨hold, hid⟩ := hran id' g r hmem
    simp only [Function.update_of_ne hid]
    exact h.known id' g r hold

theorem answer (h : DeleteInv s) {id : Nat} {old : List Nat} {run : DeleteRun}
    (hreq : s.requests id = some req)
    (hnone : (deleteScript s.server.clock s.server.generation s.records old run id req).2.2 =
    none) :
    DeleteInv { s with
      records := (deleteScript s.server.clock s.server.generation s.records old run id req).1
      log := s.log ++
        [.answered id
          (deleteScript s.server.clock s.server.generation s.records old run id req).2.1] } := by
  constructor
  · refine h.log.concat fun g r hran => ?_
    obtain hreply | hexpired | hpending := (deleteScript_of_kept (h.kept id g r req hran hreq)).2.1
    · exact .inl hreply
    · exact .inr (.inl hexpired)
    · exact .inr (.inr (.inl hpending))
  · intro id' req' hreq'
    exact List.mem_append_left _ (h.requested id' req' hreq')
  · intro id' g r req' hmem hreq'
    have hold : .ran id' g r ∈ s.log := by simpa using hmem
    by_cases hid : id' = id
    · subst hid
      cases hreq.symm.trans hreq'
      exact (deleteScript_of_kept (h.kept id' g r req hold hreq)).2.2
    · exact deleteScript_other (h.kept id' g r req' hold hreq') hid
  · intro id' g r hmem
    exact h.known id' g r (by simpa using hmem)

theorem ran (h : DeleteInv s) {id : Nat} {old : List Nat}
    {run : DeleteRun} {r : Int} (hreq : s.requests id = some req)
    (hsome : (deleteScript s.server.clock s.server.generation s.records old run id req).2.2 =
    some r) :
    DeleteInv { s with
      records := (deleteScript s.server.clock s.server.generation s.records old run id req).1
      log := s.log ++ [.ran id s.server.generation r] ++
        [.answered id
          (deleteScript s.server.clock s.server.generation s.records old run id req).2.1] } := by
  obtain ⟨hgen, hkept, hreply⟩ := deleteScript_ran hsome
  have hfirst : ∀ g r', .ran id g r' ∉ s.log := by
    intro g r' hmem
    rw [(deleteScript_of_kept (h.kept id g r' req hmem hreq)).1] at hsome
    cases hsome
  have hallowed : DeleteAllowed s.log (.ran id s.server.generation r) :=
    ⟨hgen ▸ h.requested id req hreq, hfirst⟩
  constructor
  · refine (h.log.concat hallowed).concat fun g r' hmem => ?_
    obtain hold | hnew := List.mem_append.mp hmem
    · exact absurd hold (hfirst g r')
    · cases List.mem_singleton.mp hnew
      obtain hdone | herr := hreply
      · exact .inl hdone
      · exact .inr (.inr (.inr herr))
  · intro id' req' hreq'
    simp only [List.append_assoc]
    exact List.mem_append_left _ (h.requested id' req' hreq')
  · intro id' g r' req' hmem hreq'
    simp only [List.append_assoc, List.mem_append, List.mem_cons, List.not_mem_nil, or_false,
      DeleteEvent.ran.injEq, reduceCtorEq] at hmem
    by_cases hid : id' = id
    · subst hid
      cases hreq.symm.trans hreq'
      obtain hold | ⟨-, -, rfl⟩ := hmem
      · exact absurd hold (hfirst g r')
      · exact hkept
    · have hold : .ran id' g r' ∈ s.log := hmem.resolve_right fun heq => hid heq.1
      exact deleteScript_other (h.kept id' g r' req' hold hreq') hid
  · intro id' g r' hmem
    simp only [List.append_assoc, List.mem_append, List.mem_cons, List.not_mem_nil, or_false,
      DeleteEvent.ran.injEq, reduceCtorEq] at hmem
    obtain hold | ⟨rfl, -⟩ := hmem
    · exact h.known id' g r' hold
    · rw [hreq]
      exact Option.some_ne_none _

theorem step_action (h : DeleteInv s) (a : DeleteAction ν) (hstep : s.step a = some s') :
    DeleteInv s' := by
  cases a with
  | tick d =>
    cases hstep
    exact h.server (Nat.le_add_right _ _)
  | script old fault cmd =>
    cases hstep
    exact h.server (exec_clock s.server old fault cmd).ge
  | request id =>
    simp only [DeleteSys.step] at hstep
    split at hstep <;> cases hstep
    rename_i hnew
    exact h.request hnew
  | exec id old run =>
    simp only [DeleteSys.step] at hstep
    split at hstep <;> cases hstep
    rename_i req hreq
    cases hran : (deleteScript s.server.clock s.server.generation s.records old run id req).2.2 with
    | none =>
      simp only [Option.map_none, Option.toList_none, List.append_nil]
      exact h.answer hreq hran
    | some r => exact h.ran hreq hran

end DeleteInv

/-- The delete command runs successfully at most once for a request, only in the generation whose
token the request read at its start; every later run of the request returns the outcome, or an
error. -/
theorem delete_at_most_once {ν : Type} {as : List (DeleteAction ν)} {s : DeleteSys ν}
    (h : DeleteSys.machine.run (DeleteSys.initial ν) as = some s) :
    Guarded DeleteAllowed s.log := by
  have hinv : DeleteInv s := Machine.invariant_run (fun _ _ => True) DeleteInv
    (fun s a s' hs _ hstep => hs.step_action a hstep) .initial
    (Machine.along_of_mem (fun _ _ _ => trivial) _) h
  exact hinv.log

/-- A request runs, and again after a commit has advanced the generation and another request has
pruned. -/
def retriedDelete : List (DeleteAction Nat) :=
  [.request 1, .exec 1 [] (.ok 1 true), .script [] .none (.stage 5 100), .script [] .none
    (.commit 5 0 []), .request 2, .exec 1 [] (.ok 1 true), .tick 60000, .request 3, .exec 3 [1, 2]
    (.ok 0 true),
    .exec 1 [] (.ok 1 true)]

theorem delete_at_most_once_retried :
    ∃ s, DeleteSys.machine.run (DeleteSys.initial Nat) retriedDelete = some s ∧
    Guarded DeleteAllowed s.log ∧
    s.log = [.requested 1 0, .ran 1 0 1, .answered 1 (.reply 1), .requested 2 1,
      .answered 1 (.reply 1),
      .requested 3 1, .ran 3 1 0, .answered 3 (.reply 0), .answered 1 .expired] :=
  ⟨_, rfl, @delete_at_most_once Nat retriedDelete _ rfl, rfl⟩

end GoAtlas.RedisFilter
