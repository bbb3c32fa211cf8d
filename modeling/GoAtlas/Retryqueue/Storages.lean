import GoAtlas.Lib.Document
import Mathlib.Data.Option.Basic
import Mathlib.Tactic.SplitIfs

/-!
# The two storages of the retry queue

A storage holds at most one item under a key. The memory store keeps the item and branches on it;
the MongoDB store keeps a document and sends a filter with an update. Both are modelled for one key.
Instants are milliseconds from the zero `time.Time`, the precision of a stored date.
-/

namespace GoAtlas.Retryqueue

open Lib.Document

inductive State where
  | pending | expired | resolved
  deriving DecidableEq

def State.text : State → String
  | .pending => "pending"
  | .expired => "expired"
  | .resolved => "resolved"

/-- An item under its key. The payload is what its fields encode as: payloads are compared by their
encoding. -/
@[ext]
structure Item where
  generation : Int
  state : State
  since : Int
  attempts : Int64
  nextAttemptAt : Int
  expiredAt : Int
  resolvedAt : Int
  flagged : Bool
  flagReason : String
  payload : String → Option Value

inductive Op where
  | mark (item : Item)
  | reopen (item : Item)
  | reschedule (generation : Int) (next : Int)
  | expire (generation : Int) (since at_ : Int)
  | resolve (generation : Int) (at_ : Int)
  | flag (generation : Int) (reason : String)
  | clearFlag (generation : Int)
  | deleteObsolete (generation : Int)
  | wakeDue (now : Int)
  | requeue (now : Int) (keys : List String)

inductive Result where
  | item (item : Item)
  | done
  | reported (yes : Bool)
  | moved (yes : Bool)
  | failed

def fresh (item : Item) : Item :=
  ⟨item.generation, .pending, item.since, 0, item.nextAttemptAt, 0, 0, false, "", item.payload⟩

/-! ## The memory store -/

namespace Memory

def isAt (it : Item) (generation : Int) : Bool := it.generation == generation

/-- A transition that applies under a condition, and what it answers. -/
def transition (cur : Option Item) (applies : Item → Bool) (f : Item → Item)
    (reply : Bool → Result) : Option Item × Result :=
  cur.elim (none, reply false) fun it => if applies it then (some (f it), reply true)
    else (some it, reply false)

def step (key : String) (cur : Option Item) : Op → Option Item × Result
  | .mark item => cur.elim (some (fresh item), .item (fresh item)) fun it => (some it, .item it)
  | .reopen item =>
    cur.elim (some (fresh item), .item (fresh item)) fun it =>
      if item.generation < it.generation ∨
        (it.generation = item.generation ∧ it.state = .pending) then
        (some it, .item it)
      else (some (fresh item), .item (fresh item))
  | .reschedule generation next =>
    transition cur (fun it => isAt it generation && it.state == .pending)
      (fun it => { it with attempts := it.attempts + 1, nextAttemptAt := next }) fun _ => .done
  | .expire generation since at_ =>
    transition cur (fun it => isAt it generation && it.state == .pending && it.since == since)
      (fun it => { it with state := .expired, expiredAt := at_ }) .reported
  | .resolve generation at_ =>
    transition cur (fun it => isAt it generation && it.state != .resolved)
      (fun it => { it with
        state := .resolved, resolvedAt := at_, expiredAt := 0, flagged := false, flagReason := "" })
      fun _ => .done
  | .flag generation reason =>
    transition cur
      (fun it => isAt it generation && it.state == .pending &&
      !(it.flagged && it.flagReason == reason))
      (fun it => { it with flagged := true, flagReason := reason }) .reported
  | .clearFlag generation =>
    transition cur (fun it => isAt it generation && it.flagged)
      (fun it => { it with flagged := false, flagReason := "" }) fun _ => .done
  | .deleteObsolete generation =>
    cur.elim (none, .reported false) fun it =>
      if generation < it.generation then (some it, .reported true) else (none, .reported false)
  | .wakeDue now =>
    transition cur (fun it => it.state == .pending && decide (now < it.nextAttemptAt))
      (fun it => { it with nextAttemptAt := now }) fun _ => .done
  | .requeue now keys =>
    transition cur (fun it => it.state == .expired && (keys.isEmpty || keys.contains key))
      (fun it => { it with
        state := .pending, since := now, nextAttemptAt := now, attempts :=
          0, expiredAt := 0 }) .moved

end Memory

/-! ## The MongoDB store -/

namespace Mongo

/-- The fields of a document: those the store owns, the two flag fields and those of the payload.
`New` refuses names under which two of them would be one. -/
inductive Field where
  | id | since | attempts | nextAttemptAt | state | expiredAt | resolvedAt | generation
    | flag | reason
  | payload (name : String)
  deriving DecidableEq

def genEq (generation : Int) : Cond :=
  if generation = 0 then .isIn [.int 0, .null] else .eq (.int generation)

def freshDoc (key : String) (item : Item) : Doc Field
  | .id => some (.str key)
  | .since => some (.date item.since)
  | .attempts => some (.int 0)
  | .nextAttemptAt => some (.date item.nextAttemptAt)
  | .state => some (.str State.pending.text)
  | .generation => some (.int item.generation)
  | .payload name => item.payload name
  | .expiredAt | .resolvedAt | .flag | .reason => none

def dateOf (v : Option Value) : Int := v.elim 0 fun v => match v with | .date t => t | _ => 0
def intOf (v : Option Value) : Int := v.elim 0 fun v => match v with | .int n => n | _ => 0
def boolOf (v : Option Value) : Bool :=
  v.elim false fun v => match v with | .bool b => b | _ => false
def textOf (v : Option Value) : String := v.elim "" fun v => match v with | .str s => s | _ => ""

def stateOf (v : Option Value) : State :=
  if textOf v = State.expired.text then .expired else if textOf v =
    State.resolved.text then .resolved else .pending

/-- The item of a document: what is missing reads as its zero value. -/
def toItem (d : Doc Field) : Item :=
  ⟨intOf (d .generation), stateOf (d .state), dateOf (d .since), .ofInt (intOf (d .attempts)),
    dateOf (d .nextAttemptAt), dateOf (d .expiredAt), dateOf (d .resolvedAt), boolOf (d .flag),
    textOf (d .reason), fun name => d (.payload name)⟩

/-- `FindOneAndUpdate` with `$setOnInsert` and an upsert. -/
def mark (key : String) (cur : Option (Doc Field)) (item : Item) : Option (Doc Field) × Result :=
  cur.elim (some (freshDoc key item), .item (toItem (freshDoc key item))) fun d =>
    (some d, .item (toItem d))

def pendingAt (key : String) (generation : Int) : Fields Field :=
  [(.id, .eq (.str key)), (.state, .eq (.str State.pending.text)), (.generation, genEq generation)]

def reopenFilter (key : String) (generation : Int) : Query Field :=
  ⟨[(.id, .eq (.str key))],
    [[(.generation, .lt (.int generation))], [(.generation, .present false)],
      [(.generation, .eq (.int generation)), (.state, .ne (.str State.pending.text))]]⟩

def obsoleteFilter (key : String) (generation : Int) : Query Field :=
  ⟨[(.id, .eq (.str key))], [[(.generation, .lte (.int generation))],
    [(.generation, .present false)]]⟩

/-- An update of the document, and the answer from its modified count. -/
def send (cur : Option (Doc Field)) (q : Query Field) (u : Update Field) (reply : Bool → Result) :
    Option (Doc Field) × Result :=
  (updateOne q u cur).elim (cur, .failed) fun r => (r.1, reply r.2)

def step (key : String) (cur : Option (Doc Field)) : Op → Option (Doc Field) × Result
  | .mark item => mark key cur item
  | .reopen item =>
    if cur.any (reopenFilter key item.generation).holds then
      (some (freshDoc key item), .item (toItem (freshDoc key item)))
    else mark key cur item
  | .reschedule generation next =>
    send cur ⟨pendingAt key generation, []⟩ ⟨[(.nextAttemptAt, .date next)], [], [.attempts]⟩
      fun _ => .done
  | .expire generation since at_ =>
    send cur ⟨pendingAt key generation ++ [(.since, .eq (.date since))], []⟩
      ⟨[(.state, .str State.expired.text), (.expiredAt, .date at_)], [], []⟩ .reported
  | .resolve generation at_ =>
    send cur
      ⟨[(.id, .eq (.str key)), (.state, .ne (.str State.resolved.text)),
      (.generation, genEq generation)], []⟩
      ⟨[(.state, .str State.resolved.text), (.resolvedAt, .date at_)], [.expiredAt, .flag, .reason],
        []⟩ fun _ => .done
  | .flag generation reason =>
    send cur
      ⟨pendingAt key generation, [[(.flag, .ne (.bool true))], [(.reason, .ne (.str reason))]]⟩
      ⟨[(.flag, .bool true), (.reason, .str reason)], [], []⟩ .reported
  | .clearFlag generation =>
    send cur ⟨[(.id, .eq (.str key)), (.generation, genEq generation), (.flag, .eq (.bool true))],
      []⟩
      ⟨[], [.flag, .reason], []⟩ fun _ => .done
  | .deleteObsolete generation =>
    -- the delete, and if it deleted nothing the look-up of a newer item
    if cur.any (obsoleteFilter key generation).holds then (none, .reported false)
    else (cur, .reported (cur.any
      (Query.holds ⟨[(.id, .eq (.str key)), (.generation, .gt (.int generation))], []⟩)))
  | .wakeDue now =>
    send cur ⟨[(.state, .eq (.str State.pending.text)), (.nextAttemptAt, .gt (.date now))], []⟩
      ⟨[(.nextAttemptAt, .date now)], [], []⟩ fun _ => .done
  | .requeue now keys =>
    send cur
      ⟨(.state, .eq (.str State.expired.text)) :: if keys.isEmpty then []
      else [(.id, .isIn (keys.map .str))], []⟩
      ⟨[(.state, .str State.pending.text), (.since, .date now), (.nextAttemptAt, .date now),
        (.attempts, .int 0)], [.expiredAt], []⟩ .moved

end Mongo

/-! ## Documents in the store's format -/

open Mongo

/-- The format of a document. What may be missing: the optional dates, the generation of one written
before generations were used, and the flag fields unless the item is flagged. -/
structure WellFormed (key : String) (d : Doc Field) : Prop where
  id : d .id = some (.str key)
  since : ∃ t, d .since = some (.date t)
  attempts : ∃ n : Int64, d .attempts = some (.int n.toInt)
  nextAttemptAt : ∃ t, d .nextAttemptAt = some (.date t)
  state : ∃ s : State, d .state = some (.str s.text)
  expiredAt : d .expiredAt = none ∨ ∃ t, d .expiredAt = some (.date t)
  resolvedAt : d .resolvedAt = none ∨ ∃ t, d .resolvedAt = some (.date t)
  generation : d .generation = none ∨ ∃ n, d .generation = some (.int n)
  flag : d .flag = none ∨ ∃ b, d .flag = some (.bool b)
  reason : (d .reason = none ∧ d .flag ≠ some (.bool true)) ∨ ∃ s, d .reason = some (.str s)

section Read

variable {key : String} {d : Doc Field}

theorem State.text_inj {s t : State} : s.text = t.text ↔ s = t := by
  cases s <;> cases t <;> decide

theorem stateOf_text (s : State) : stateOf (some (.str s.text)) = s := by
  cases s <;> decide

theorem WellFormed.state_eq (h : WellFormed key d) :
    d .state = some (.str (toItem d).state.text) := by
  obtain ⟨s, hs⟩ := h.state
  rw [toItem, hs, stateOf_text]

theorem WellFormed.since_eq (h : WellFormed key d) : d .since = some (.date (toItem d).since) := by
  obtain ⟨t, ht⟩ := h.since
  rw [toItem, ht]
  rfl

theorem WellFormed.nextAttemptAt_eq (h : WellFormed key d) :
    d .nextAttemptAt = some (.date (toItem d).nextAttemptAt) := by
  obtain ⟨t, ht⟩ := h.nextAttemptAt
  rw [toItem, ht]
  rfl

theorem WellFormed.attempts_eq (h : WellFormed key d) :
    d .attempts = some (.int (toItem d).attempts.toInt) := by
  obtain ⟨n, hn⟩ := h.attempts
  have : intOf (d .attempts) = n.toInt := by
    rw [hn]
    rfl
  rw [toItem, this, Int64.ofInt_toInt, hn]

theorem generation_of_none (hnone : d .generation = none) : (toItem d).generation = 0 := by
  rw [toItem, hnone]
  rfl

variable (h : WellFormed key d)
include h

theorem WellFormed.generation_eq :
    (d .generation = none ∧ (toItem d).generation = 0) ∨ d .generation =
    some (.int (toItem d).generation) := by
  rcases h.generation with hnone | ⟨n, hn⟩
  · exact .inl ⟨hnone, generation_of_none hnone⟩
  · refine .inr ?_
    rw [toItem, hn]
    rfl

theorem WellFormed.flagged_iff :
    (toItem d).flagged = true ↔ d .flag = some (.bool true) := by
  rcases h.flag with hnone | ⟨b, hb⟩
  · simp [toItem, hnone, boolOf]
  · simp [toItem, hb, boolOf]

theorem WellFormed.reason_eq (hf : (toItem d).flagged = true) :
    d .reason = some (.str (toItem d).flagReason) := by
  rcases h.reason with ⟨_, hnot⟩ | ⟨s, hs⟩
  · exact absurd (h.flagged_iff.mp hf) hnot
  · rw [toItem, hs]
    rfl

/-! ### Conditions -/

theorem WellFormed.id_holds : (Cond.eq (.str key)).holds (d .id) = true := by
  simp [Cond.holds, h.id]

theorem WellFormed.state_holds (s : State) :
    (Cond.eq (.str s.text)).holds (d .state) = ((toItem d).state == s) := by
  rw [Bool.eq_iff_iff]
  simp [Cond.holds, h.state_eq, State.text_inj]

theorem WellFormed.state_ne_holds (s : State) :
    (Cond.ne (.str s.text)).holds (d .state) = ((toItem d).state != s) := by
  rw [Bool.eq_iff_iff]
  simp [Cond.holds, h.state_eq, State.text_inj]

theorem WellFormed.genEq_holds (generation : Int) :
    (genEq generation).holds (d .generation) = Memory.isAt (toItem d) generation := by
  rw [Bool.eq_iff_iff, genEq, Memory.isAt]
  rcases h.generation_eq with ⟨hnone, hzero⟩ | hsome
  · by_cases hg : generation = 0
    · simp [Cond.holds, hnone, hzero, hg]
    · simp [Cond.holds, hnone, hzero, hg, Ne.symm hg]
  · by_cases hg : generation = 0
    · simp [Cond.holds, hsome, hg]
    · simp [Cond.holds, hsome, hg]

theorem WellFormed.pendingAt_holds (generation : Int) :
    Fields.holds (pendingAt key generation) d =
      (Memory.isAt (toItem d) generation && (toItem d).state == .pending) := by
  simp [Fields.holds, pendingAt, h.id_holds, h.state_holds, h.genEq_holds, Bool.and_comm]

end Read

/-! ## One operation in both stores -/

/-- The same item is left, and the same is answered. -/
def Agrees (r : Option (Doc Field) × Result) (m : Option Item × Result) : Prop :=
  r.1.map toItem = m.1 ∧ r.2 = m.2

def Kept (key : String) (r : Option (Doc Field) × Result) : Prop := ∀ d ∈ r.1, WellFormed key d

section Step

variable {key : String} {d : Doc Field}

/-- A filter that holds exactly if the transition applies, with an update that makes it. -/
theorem send_agrees {q : Query Field} {u : Update Field} {applies : Item → Bool} {f : Item → Item}
    {reply : Bool → Result} (h : WellFormed key d) (hq : q.holds d = applies (toItem d))
    (hu : applies (toItem d) = true → ∃ d', u.apply d = some d' ∧ toItem d' = f (toItem d) ∧
    WellFormed key d' ∧
      reply (u.modifies d) = reply true) :
    Agrees (send (some d) q u reply) (Memory.transition (some (toItem d)) applies f reply) ∧
      Kept key (send (some d) q u reply) := by
  cases ha : applies (toItem d) with
  | false =>
    have hsend : send (some d) q u reply = (some d, reply false) := by
      rw [send, updateOne_of_not_holds (hq.trans ha)]
      rfl
    rw [hsend]
    refine ⟨⟨?_, ?_⟩, fun d' hd' => ?_⟩
    · simp [Memory.transition, ha]
    · simp [Memory.transition, ha]
    · cases hd'
      exact h
  | true =>
    obtain ⟨d', happly, hitem, hwf, hreply⟩ := hu ha
    have hsend : send (some d) q u reply = (some d', reply true) := by
      rw [send, updateOne_of_holds (hq.trans ha) happly, Option.elim_some, hreply]
    rw [hsend]
    refine ⟨⟨?_, ?_⟩, fun e he => ?_⟩
    · simp [Memory.transition, ha, hitem]
    · simp [Memory.transition, ha]
    · cases he
      exact hwf

theorem toItem_freshDoc (key : String) (item : Item) : toItem (freshDoc key item) = fresh item := by
  simp [toItem, freshDoc, fresh, intOf, dateOf, boolOf, textOf, stateOf_text]

theorem wellFormed_freshDoc (key : String) (item : Item) : WellFormed key (freshDoc key item) :=
  ⟨rfl, ⟨_, rfl⟩, ⟨0, rfl⟩, ⟨_, rfl⟩, ⟨.pending, rfl⟩, .inl rfl, .inl rfl, .inr ⟨_, rfl⟩, .inl rfl,
    .inl ⟨rfl, fun h => by cases h⟩⟩

theorem apply_eq {set : List (Field × Value)} {unset : List Field} :
    (⟨set, unset, []⟩ : Update Field).apply d =
      some fun f => if unset.contains f then none else (set.lookup f).or (d f) := by
  simp [Update.apply]

theorem date_beq (a b : Int) : (Value.date a == Value.date b) = (a == b) := by
  rw [Bool.eq_iff_iff]
  simp

variable (h : WellFormed key d)
include h

theorem reschedule_agrees (generation next : Int)
    (hmax : Memory.isAt (toItem d) generation = true → (toItem d).state = .pending →
      (toItem d).attempts ≠ Int64.maxValue) :
    Agrees (step key (some d) (.reschedule generation next))
      (Memory.step key (some (toItem d)) (.reschedule generation next)) ∧
    Kept key (step key (some d) (.reschedule generation next)) := by
  refine send_agrees h ?_ fun ha => ?_
  · rw [Query.holds, h.pendingAt_holds]
    simp
  · rw [Bool.and_eq_true, beq_iff_eq] at ha
    have hmaxValue : Int64.maxValue.toInt = 2 ^ 63 - 1 := by decide
    have hbound : (toItem d).attempts.toInt < Int64.maxValue.toInt := by
      have hne := hmax ha.1 ha.2
      have hlt := (toItem d).attempts.toInt_lt
      rw [ne_eq, ← Int64.toInt_inj] at hne
      omega
    have hinc : increment (d .attempts) = some (.int ((toItem d).attempts.toInt + 1)) := by
      rw [h.attempts_eq, increment, if_pos hbound]
    have hsucc : ((toItem d).attempts + 1).toInt = (toItem d).attempts.toInt + 1 := by
      have hge := (toItem d).attempts.le_toInt
      rw [Int64.toInt_add, show (1 : Int64).toInt = 1 from rfl]
      exact Int.bmod_eq_of_le (by omega) (by omega)
    refine ⟨_, if_pos (by simp [hinc]), ?_, ?_, rfl⟩
    · refine Item.ext rfl rfl rfl ?_ rfl rfl rfl rfl rfl rfl
      change Int64.ofInt (intOf (increment (d .attempts))) = (toItem d).attempts + 1
      rw [hinc, intOf, Option.elim_some, ← hsucc, Int64.ofInt_toInt]
    · exact ⟨h.id, h.since, ⟨(toItem d).attempts + 1, by rw [hsucc]; exact hinc⟩, ⟨next, rfl⟩,
        h.state, h.expiredAt, h.resolvedAt, h.generation, h.flag, h.reason⟩

theorem expire_agrees (generation since at_ : Int) :
    Agrees (step key (some d) (.expire generation since at_))
      (Memory.step key (some (toItem d)) (.expire generation since at_)) ∧
    Kept key (step key (some d) (.expire generation since at_)) := by
  refine send_agrees h ?_ fun ha => ⟨_, apply_eq, rfl, ?_, ?_⟩
  · rw [Query.holds, Fields.holds, List.all_append, ← Fields.holds, h.pendingAt_holds]
    simp [Cond.holds, h.since_eq, date_beq]
  · exact ⟨h.id, h.since, h.attempts, h.nextAttemptAt, ⟨.expired, rfl⟩, .inr ⟨at_, rfl⟩,
      h.resolvedAt, h.generation, h.flag, h.reason⟩
  · have hpending : (toItem d).state = .pending := by simp_all
    simp [Update.modifies, h.state_eq, hpending, State.text_inj]

theorem resolve_agrees (generation at_ : Int) :
    Agrees (step key (some d) (.resolve generation at_))
      (Memory.step key (some (toItem d)) (.resolve generation at_)) ∧
    Kept key (step key (some d) (.resolve generation at_)) := by
  refine send_agrees h ?_ fun _ => ⟨_, apply_eq, rfl, ?_, rfl⟩
  · simp [Query.holds, Fields.holds, h.id_holds, h.state_ne_holds, h.genEq_holds, Bool.and_comm]
  · exact ⟨h.id, h.since, h.attempts, h.nextAttemptAt, ⟨.resolved, rfl⟩, .inl rfl, .inr ⟨at_, rfl⟩,
      h.generation, .inl rfl, .inl ⟨rfl, fun hf => by cases hf⟩⟩

theorem flag_agrees (generation : Int) (reason : String) :
    Agrees (step key (some d) (.flag generation reason))
      (Memory.step key (some (toItem d)) (.flag generation reason)) ∧
    Kept key (step key (some d) (.flag generation reason)) := by
  have hnew : ((Cond.ne (.bool true)).holds (d .flag) || (Cond.ne (.str reason)).holds
    (d .reason)) =
      !((toItem d).flagged && (toItem d).flagReason == reason) := by
    by_cases hf : (toItem d).flagged = true
    · rw [Bool.eq_iff_iff]
      simp [Cond.holds, h.flagged_iff.mp hf, h.reason_eq hf, hf]
    · have hne : d .flag ≠ some (.bool true) := fun heq => hf (h.flagged_iff.mpr heq)
      rcases h.flag with hnone | ⟨b, hb⟩
      · simp [Cond.holds, hnone, hf]
      · cases b with
        | false => simp [Cond.holds, hb, hf]
        | true => exact absurd hb hne
  refine send_agrees h ?_ fun ha => ⟨_, apply_eq, rfl, ?_, ?_⟩
  · rw [Query.holds, h.pendingAt_holds, ← hnew]
    simp [Fields.holds]
  · exact ⟨h.id, h.since, h.attempts, h.nextAttemptAt, h.state, h.expiredAt, h.resolvedAt,
      h.generation, .inr ⟨true, rfl⟩, .inr ⟨reason, rfl⟩⟩
  · rw [← hnew, Bool.and_eq_true, Bool.or_eq_true] at ha
    have hmod : (⟨[(.flag, .bool true), (.reason, .str reason)], [], []⟩ : Update Field).modifies
        d = true := by
      rcases ha.2 with hflag | hreason
      · have : d .flag ≠ some (.bool true) := fun heq => by simp [Cond.holds, heq] at hflag
        simp [Update.modifies, this]
      · have : d .reason ≠ some (.str reason) := fun heq => by simp [Cond.holds, heq] at hreason
        simp [Update.modifies, this]
    rw [hmod]

theorem clearFlag_agrees (generation : Int) :
    Agrees (step key (some d) (.clearFlag generation))
      (Memory.step key (some (toItem d)) (.clearFlag generation)) ∧
    Kept key (step key (some d) (.clearFlag generation)) := by
  refine send_agrees h ?_ fun _ => ⟨_, apply_eq, rfl, ?_, rfl⟩
  · have hflag : (Cond.eq (.bool true)).holds (d .flag) = (toItem d).flagged := by
      rcases h.flag with hnone | ⟨b, hb⟩
      · simp [Cond.holds, toItem, hnone, boolOf]
      · cases b <;> simp [Cond.holds, toItem, hb, boolOf]
    simp [Query.holds, Fields.holds, h.id_holds, h.genEq_holds, hflag]
  · exact ⟨h.id, h.since, h.attempts, h.nextAttemptAt, h.state, h.expiredAt, h.resolvedAt,
      h.generation, .inl rfl, .inl ⟨rfl, fun hf => by cases hf⟩⟩

theorem wakeDue_agrees (now : Int) :
    Agrees (step key (some d) (.wakeDue now)) (Memory.step key (some (toItem d)) (.wakeDue now)) ∧
    Kept key (step key (some d) (.wakeDue now)) := by
  refine send_agrees h ?_ fun _ => ⟨_, apply_eq, rfl, ?_, rfl⟩
  · have hnext : (Cond.gt (.date now)).holds (d .nextAttemptAt) =
        decide (now < (toItem d).nextAttemptAt) := by
      simp [Cond.holds, h.nextAttemptAt_eq, Value.below]
    simp [Query.holds, Fields.holds, h.state_holds, hnext]
  · exact ⟨h.id, h.since, h.attempts, ⟨now, rfl⟩, h.state, h.expiredAt, h.resolvedAt, h.generation,
      h.flag, h.reason⟩

theorem requeue_agrees (now : Int) (keys : List String) :
    Agrees (step key (some d) (.requeue now keys))
      (Memory.step key (some (toItem d)) (.requeue now keys)) ∧
    Kept key (step key (some d) (.requeue now keys)) := by
  refine send_agrees h ?_ fun ha => ⟨_, apply_eq, rfl, ?_, ?_⟩
  · have hkey : (Cond.isIn (keys.map .str)).holds (d .id) = keys.contains key := by
      rw [Bool.eq_iff_iff]
      simp [Cond.holds, h.id]
    cases hempty : keys.isEmpty
    · simp [Query.holds, Fields.holds, h.state_holds, hkey]
    · simp [Query.holds, Fields.holds, h.state_holds]
  · exact ⟨h.id, ⟨now, rfl⟩, ⟨0, rfl⟩, ⟨now, rfl⟩, ⟨.pending, rfl⟩, .inl rfl, h.resolvedAt,
      h.generation, h.flag, h.reason⟩
  · have hexpired : (toItem d).state = .expired := by simp_all
    simp [Update.modifies, h.state_eq, hexpired, State.text_inj]

/-- At the largest count MongoDB refuses the increment, and nothing changes. -/
theorem reschedule_fails {generation next : Int}
    (hat : Memory.isAt (toItem d) generation = true) (hpending : (toItem d).state = .pending)
    (hmax : (toItem d).attempts = Int64.maxValue) :
    step key (some d) (.reschedule generation next) = (some d, .failed) := by
  have hq : (⟨pendingAt key generation, []⟩ : Query Field).holds d = true := by
    rw [Query.holds, h.pendingAt_holds, hat, hpending]
    rfl
  have hinc : increment (d .attempts) = none := by
    rw [h.attempts_eq, hmax]
    rfl
  have happly : (⟨[(.nextAttemptAt, .date next)], [], [.attempts]⟩ : Update Field).apply d = none :=
    if_neg (by simp [hinc])
  rw [step, send, updateOne, Option.elim_some, if_pos hq, happly]
  rfl

/-- Without the field every document is replaced, with it those that are older or no longer
pending. -/
theorem WellFormed.reopenFilter_holds (generation : Int) :
    (reopenFilter key generation).holds d = true ↔
      d .generation = none ∨ ¬ (generation < (toItem d).generation ∨
        ((toItem d).generation = generation ∧ (toItem d).state = .pending)) := by
  have hstate := h.state_ne_holds .pending
  rcases h.generation_eq with ⟨hnone, _⟩ | hsome
  · simp [reopenFilter, Query.holds, Fields.holds, Cond.holds, h.id, hnone]
  · have hlt : (Cond.lt (.int generation)).holds (d .generation) =
        decide ((toItem d).generation < generation) := by
      simp [Cond.holds, hsome, Value.below]
    have heq : (Cond.eq (.int generation)).holds (d .generation) =
        decide ((toItem d).generation = generation) := by
      rw [Bool.eq_iff_iff]
      simp [Cond.holds, hsome]
    have hpresent : (Cond.present false).holds (d .generation) =
        false := by simp [Cond.holds, hsome]
    have hne : d .generation ≠ none := by simp [hsome]
    simp only [reopenFilter, Query.holds, Fields.holds, List.all_cons, List.all_nil, h.id_holds,
      List.any_cons, List.any_nil, hlt, heq, hpresent, hstate, List.isEmpty_cons, Bool.and_true,
      Bool.true_and, Bool.false_or,
      Bool.or_false, Bool.or_eq_true, Bool.and_eq_true, decide_eq_true_eq, bne_iff_ne,
        hne, false_or]
    by_cases hp : (toItem d).state = .pending
    · simp only [hp, ne_eq, not_true_eq_false, and_false, or_false, and_true]
      omega
    · simp only [hp, ne_eq, not_false_eq_true, and_true, and_false, or_false]
      omega

theorem WellFormed.obsoleteFilter_holds (generation : Int) :
    (obsoleteFilter key generation).holds d = true ↔ d .generation = none ∨
    (toItem d).generation ≤ generation := by
  rcases h.generation_eq with ⟨hnone, _⟩ | hsome
  · simp [obsoleteFilter, Query.holds, Fields.holds, Cond.holds, h.id, hnone]
  · simp [obsoleteFilter, Query.holds, Fields.holds, Cond.holds, h.id, hsome, Value.below,
      Int.le_iff_lt_or_eq]

end Step

/-! ## The operations the stores differ in -/

/-- Where the two stores part: a document without a generation is replaced, or deleted, whatever
generation the caller names, and a count of attempts at its largest value wraps around only in
memory. -/
def Op.Apart (d : Doc Field) : Op → Prop
  | .reopen item =>
    d .generation = none ∧
      (item.generation < 0 ∨ (item.generation = 0 ∧ (toItem d).state = .pending)) ∧
      toItem d ≠ fresh item
  | .deleteObsolete generation => d .generation = none ∧ generation < 0
  | .reschedule generation _ =>
    Memory.isAt (toItem d) generation = true ∧ (toItem d).state = .pending ∧
      (toItem d).attempts = Int64.maxValue
  | _ => False

/-- The generation a transition is fenced by. -/
def Op.fence : Op → Option Int
  | .reschedule generation _ | .expire generation _ _ | .resolve generation _ | .flag generation _
  | .clearFlag generation => some generation
  | _ => none

section Agree

variable {key : String} {d : Doc Field} {generation : Int}

theorem mark_agrees (h : WellFormed key d) (item : Item) :
    Agrees (step key (some d) (.mark item)) (Memory.step key (some (toItem d)) (.mark item)) ∧
    Kept key (step key (some d) (.mark item)) := by
  refine ⟨⟨rfl, rfl⟩, fun e he => ?_⟩
  cases he
  exact h

theorem reopen_agrees_iff (h : WellFormed key d) (item : Item) :
    (Agrees (step key (some d) (.reopen item)) (Memory.step key (some (toItem d)) (.reopen item)) ↔
      ¬ (Op.reopen item).Apart d) ∧
    Kept key (step key (some d) (.reopen item)) := by
  have hfilter := h.reopenFilter_holds item.generation
  by_cases hq : (reopenFilter key item.generation).holds d = true
  · have hstep : step key (some d) (.reopen item) =
        (some (freshDoc key item), .item (fresh item)) := by
      rw [step, if_pos (by simpa using hq), toItem_freshDoc]
    refine ⟨?_, fun e he => ?_⟩
    · rw [hstep, Agrees, Memory.step, Option.elim_some, Option.map_some, toItem_freshDoc]
      split_ifs with hkeep
      · -- only a document without the field is replaced where memory keeps the item
        have hnone := (hfilter.mp hq).resolve_right (not_not_intro hkeep)
        rw [generation_of_none hnone] at hkeep
        simp only [Op.Apart, Option.some.injEq, Result.item.injEq, and_self, not_and, not_not]
        refine ⟨fun heq _ _ => heq.symm, fun hsame => (hsame hnone ?_).symm⟩
        rcases hkeep with hlt | ⟨heq, hp⟩
        · exact .inl hlt
        · exact .inr ⟨heq.symm, hp⟩
      · refine iff_of_true ⟨rfl, rfl⟩ fun hapart => hkeep ?_
        obtain ⟨hnone, hgen, _⟩ := hapart
        rw [generation_of_none hnone]
        rcases hgen with hlt | ⟨heq, hp⟩
        · exact .inl hlt
        · exact .inr ⟨heq.symm, hp⟩
    · rw [hstep] at he
      cases he
      exact wellFormed_freshDoc key item
  · rw [hfilter, not_or, not_not] at hq
    have hstep : step key (some d) (.reopen item) = (some d, .item (toItem d)) := by
      rw [step, if_neg (by simpa using fun hh => (hfilter.mp hh).elim hq.1 (fun hn => hn hq.2))]
      rfl
    refine ⟨iff_of_true ?_ fun hapart => hq.1 hapart.1, fun e he => ?_⟩
    · rw [hstep, Agrees, Memory.step, Option.elim_some, if_pos hq.2]
      exact ⟨rfl, rfl⟩
    · rw [hstep] at he
      cases he
      exact h

theorem deleteObsolete_agrees_iff (h : WellFormed key d) (generation : Int) :
    (Agrees (step key (some d) (.deleteObsolete generation))
      (Memory.step key (some (toItem d)) (.deleteObsolete generation)) ↔
      ¬ (Op.deleteObsolete generation).Apart d) ∧
    Kept key (step key (some d) (.deleteObsolete generation)) := by
  have hfilter := h.obsoleteFilter_holds generation
  by_cases hq : (obsoleteFilter key generation).holds d = true
  · have hstep : step key (some d) (.deleteObsolete generation) = (none, .reported false) := by
      rw [step, if_pos (by simpa using hq)]
    refine ⟨?_, fun e he => by rw [hstep] at he; cases he⟩
    rw [hstep, Agrees, Memory.step, Option.elim_some, Op.Apart]
    split_ifs with hnewer
    · have hnone := (hfilter.mp hq).resolve_right (by omega)
      rw [generation_of_none hnone] at hnewer
      exact iff_of_false (fun hagree => by cases hagree.1) (not_not_intro ⟨hnone, hnewer⟩)
    · refine iff_of_true ⟨rfl, rfl⟩ fun hapart => hnewer ?_
      rw [generation_of_none hapart.1]
      exact hapart.2
  · rw [hfilter, not_or] at hq
    have hsome := h.generation_eq.resolve_left fun hg => hq.1 hg.1
    have hstep : step key (some d) (.deleteObsolete generation) = (some d, .reported true) := by
      rw [step, if_neg (by simpa using fun hh => (hfilter.mp hh).elim hq.1 hq.2)]
      have hgt : (Cond.gt (.int generation)).holds (d .generation) = true := by
        simp only [Cond.holds, hsome, Option.any_some, Value.below, decide_eq_true_eq]
        omega
      simp [Query.holds, Fields.holds, h.id_holds, hgt]
    refine ⟨iff_of_true ?_ fun hapart => hq.1 hapart.1, fun e he => ?_⟩
    · rw [hstep, Agrees, Memory.step, Option.elim_some, if_pos (by omega)]
      exact ⟨rfl, rfl⟩
    · rw [hstep] at he
      cases he
      exact h

theorem reschedule_agrees_iff (h : WellFormed key d) (generation next : Int) :
    (Agrees (step key (some d) (.reschedule generation next))
      (Memory.step key (some (toItem d)) (.reschedule generation next)) ↔
      ¬ (Op.reschedule generation next).Apart d) ∧
    Kept key (step key (some d) (.reschedule generation next)) := by
  by_cases hapart : (Op.reschedule generation next).Apart d
  · obtain ⟨hat, hpending, hmax⟩ := hapart
    rw [reschedule_fails h hat hpending hmax]
    refine ⟨iff_of_false (fun hagree => ?_) (not_not_intro ⟨hat, hpending, hmax⟩), fun e he => ?_⟩
    · have hreply := hagree.2
      rw [Memory.step, Memory.transition, Option.elim_some, hat, hpending] at hreply
      cases hreply
    · cases he
      exact h
  · have hagree := reschedule_agrees h generation next fun hat hpending hmax =>
      hapart ⟨hat, hpending, hmax⟩
    exact ⟨iff_of_true hagree.1 hapart, hagree.2⟩

/-! ### Fencing -/

theorem holds_of_mem {q : Query Field} {p : Field × Cond} (hp : p ∈ q.fields)
    (hno : p.2.holds (d p.1) = false) :
    q.holds d = false := by
  have hfields : Fields.holds q.fields d = false := by
    rw [Bool.eq_false_iff, ne_eq, Fields.holds, List.all_eq_true]
    intro hall
    rw [hall p hp] at hno
    cases hno
  rw [Query.holds, hfields]
  rfl

/-- A filter with the fence in it leaves the document alone at another generation. -/
theorem send_fenced (h : WellFormed key d)
    (hne : generation ≠ (toItem d).generation) {q : Query Field}
    (hmem : (Field.generation, genEq generation) ∈ q.fields) (u : Update Field)
    (reply : Bool → Result) : (send (some d) q u reply).1 = some d := by
  have hno : (genEq generation).holds (d .generation) = false := by
    rw [h.genEq_holds, Memory.isAt]
    exact beq_false_of_ne (Ne.symm hne)
  rw [send, updateOne_of_not_holds (holds_of_mem hmem hno)]
  rfl

theorem transition_fenced {it : Item} (hne : generation ≠ it.generation)
    {more : Bool} {applies : Item → Bool} (ha : applies it = (Memory.isAt it generation && more))
    (f : Item → Item) (reply : Bool → Result) :
    (Memory.transition (some it) applies f reply).1 = some it := by
  rw [Memory.isAt, beq_false_of_ne (Ne.symm hne), Bool.false_and] at ha
  simp [Memory.transition, ha]

theorem step_fenced (h : WellFormed key d) {op : Op}
    (hop : op.fence = some generation) (hne : generation ≠ (toItem d).generation) :
    (step key (some d) op).1 = some d ∧ (Memory.step key (some (toItem d)) op).1 =
    some (toItem d) := by
  cases op with
  | reschedule g next =>
    cases hop
    exact ⟨send_fenced h hne (by simp [pendingAt]) _ _, transition_fenced hne rfl _ _⟩
  | expire g since at_ =>
    cases hop
    exact ⟨send_fenced h hne (by simp [pendingAt]) _ _, transition_fenced hne
      (Bool.and_assoc _ _ _) _ _⟩
  | resolve g at_ =>
    cases hop
    exact ⟨send_fenced h hne (by simp) _ _, transition_fenced hne rfl _ _⟩
  | flag g reason =>
    cases hop
    exact ⟨send_fenced h hne (by simp [pendingAt]) _ _, transition_fenced hne
      (Bool.and_assoc _ _ _) _ _⟩
  | clearFlag g =>
    cases hop
    exact ⟨send_fenced h hne (by simp) _ _, transition_fenced hne rfl _ _⟩
  | mark item => cases hop
  | reopen item => cases hop
  | deleteObsolete g => cases hop
  | wakeDue now => cases hop
  | requeue now keys => cases hop

theorem step_agrees_iff (h : WellFormed key d) (op : Op) :
    (Agrees (step key (some d) op) (Memory.step key (some (toItem d)) op) ↔ ¬ op.Apart d) ∧
    Kept key (step key (some d) op) := by
  cases op with
  | mark item => exact ⟨iff_of_true (mark_agrees h item).1 fun hno => hno, (mark_agrees h item).2⟩
  | reopen item => exact reopen_agrees_iff h item
  | reschedule g next => exact reschedule_agrees_iff h g next
  | expire g since at_ =>
    exact ⟨iff_of_true (expire_agrees h g since at_).1 fun hno => hno,
      (expire_agrees h g since at_).2⟩
  | resolve g at_ =>
    exact ⟨iff_of_true (resolve_agrees h g at_).1 fun hno => hno, (resolve_agrees h g at_).2⟩
  | flag g reason =>
    exact ⟨iff_of_true (flag_agrees h g reason).1 fun hno => hno, (flag_agrees h g reason).2⟩
  | clearFlag g =>
    exact ⟨iff_of_true (clearFlag_agrees h g).1 fun hno => hno, (clearFlag_agrees h g).2⟩
  | deleteObsolete g => exact deleteObsolete_agrees_iff h g
  | wakeDue now =>
    exact ⟨iff_of_true (wakeDue_agrees h now).1 fun hno => hno, (wakeDue_agrees h now).2⟩
  | requeue now keys =>
    exact ⟨iff_of_true (requeue_agrees h now keys).1 fun hno => hno, (requeue_agrees h now keys).2⟩

theorem step_none (key : String) (op : Op) :
    Agrees (step key none op) (Memory.step key none op) ∧ Kept key (step key none op) := by
  cases op with
  | mark item =>
    exact ⟨⟨congrArg some (toItem_freshDoc key item), congrArg Result.item
      (toItem_freshDoc key item)⟩, fun e he => by cases he; exact wellFormed_freshDoc key item⟩
  | reopen item =>
    exact ⟨⟨congrArg some (toItem_freshDoc key item), congrArg Result.item
      (toItem_freshDoc key item)⟩, fun e he => by cases he; exact wellFormed_freshDoc key item⟩
  | reschedule g next => exact ⟨⟨rfl, rfl⟩, fun e he => by cases he⟩
  | expire g since at_ => exact ⟨⟨rfl, rfl⟩, fun e he => by cases he⟩
  | resolve g at_ => exact ⟨⟨rfl, rfl⟩, fun e he => by cases he⟩
  | flag g reason => exact ⟨⟨rfl, rfl⟩, fun e he => by cases he⟩
  | clearFlag g => exact ⟨⟨rfl, rfl⟩, fun e he => by cases he⟩
  | deleteObsolete g => exact ⟨⟨rfl, rfl⟩, fun e he => by cases he⟩
  | wakeDue now => exact ⟨⟨rfl, rfl⟩, fun e he => by cases he⟩
  | requeue now keys => exact ⟨⟨rfl, rfl⟩, fun e he => by cases he⟩

/-- For every document in the format, or none, and every operation with any arguments: the stores
leave the same item and answer the same exactly unless `Apart`, the document stays in the format,
and at another generation than the stored one a fenced operation changes nothing in either. -/
theorem storages_agree_iff (key : String) (cur : Option (Doc Field))
    (hcur : ∀ d ∈ cur, WellFormed key d) (op : Op) :
    (Agrees (step key cur op) (Memory.step key (cur.map toItem) op) ↔ ∀ d ∈ cur, ¬ op.Apart d) ∧
    Kept key (step key cur op) ∧
    ∀ d ∈ cur, ∀ generation, op.fence = some generation → generation ≠ (toItem d).generation →
      (step key cur op).1 = cur ∧ (Memory.step key (cur.map toItem) op).1 = cur.map toItem := by
  cases cur with
  | none =>
    obtain ⟨hagree, hkept⟩ := step_none key op
    exact ⟨iff_of_true hagree (fun d hd => by cases hd), hkept, fun d hd => by cases hd⟩
  | some d =>
    have h := hcur d rfl
    obtain ⟨hagree, hkept⟩ := step_agrees_iff h op
    refine ⟨hagree.trans ⟨fun hno e he => by cases he; exact hno, fun hall => hall d rfl⟩, hkept,
      ?_⟩
    intro e he generation hop hne
    cases he
    exact step_fenced h hop hne

end Agree

/-- A pending document written before generations were used, after three failed attempts. -/
def legacy : Doc Field
  | .id => some (.str "k")
  | .since => some (.date 1000)
  | .attempts => some (.int 3)
  | .nextAttemptAt => some (.date 5000)
  | .state => some (.str "pending")
  | _ => none

theorem wellFormed_legacy : WellFormed "k" legacy :=
  ⟨rfl, ⟨1000, rfl⟩, ⟨3, rfl⟩, ⟨5000, rfl⟩, ⟨.pending, rfl⟩, .inl rfl, .inl rfl, .inl rfl, .inl rfl,
    .inl ⟨rfl, fun h => by cases h⟩⟩

theorem storages_agree_iff_legacy :
    Agrees (step "k" (some legacy) (.expire 0 1000 9000))
      (Memory.step "k" (some (toItem legacy)) (.expire 0 1000 9000)) ∧
    (step "k" (some legacy) (.resolve 1 9000)).1 = some legacy := by
  have hcur : ∀ d ∈ some legacy, WellFormed "k" d := fun d hd => by
    cases hd
    exact wellFormed_legacy
  exact ⟨(storages_agree_iff "k" (some legacy) hcur (.expire 0 1000 9000)).1.mpr fun _ _ hno => hno,
    ((storages_agree_iff "k" (some legacy) hcur (.resolve 1 9000)).2.2 legacy rfl 1 rfl
    (by decide)).1⟩

/-- Reopening it at generation 0, which it reads as, is to return it unchanged: MongoDB replaces it
and the attempts are gone. -/
theorem legacy_replaced :
    let item : Item := ⟨0, .pending, 7000, 0, 7000, 0, 0, false, "", fun _ => none⟩
    WellFormed "k" legacy ∧ (toItem legacy).generation = 0 ∧ (toItem legacy).state = .pending ∧
    (Memory.step "k" (some (toItem legacy)) (.reopen item)).1.map Item.attempts = some 3 ∧
    ((step "k" (some legacy) (.reopen item)).1.map toItem).map Item.attempts = some 0 :=
  ⟨wellFormed_legacy, rfl, rfl, rfl, rfl⟩

/-! ## Runs from the empty store -/

/-- What is stored after the calls, the last of them first, and their answers. -/
def runs {σ : Type} (step : Option σ → Op → Option σ × Result) (ops : List Op) :
    Option σ × List Result :=
  ops.foldr (fun op r => ((step r.1 op).1, (step r.1 op).2 :: r.2)) (none, [])

section Runs

variable {key : String} {n : Nat} {cur : Option (Doc Field)}

/-- The store itself wrote the document, in at most so many calls. -/
def Written (n : Nat) (d : Doc Field) : Prop :=
  d .generation ≠ none ∧ ∀ k, d .attempts = some (.int k) → k ≤ n

theorem Written.send {q : Query Field} {u : Update Field} {reply : Bool → Result}
    (h : ∀ d ∈ cur, Written n d) (hgen : (u.unset ++ u.inc).contains Field.generation = false)
    (hset : u.set.lookup .attempts = none ∨ u.set.lookup .attempts = some (.int 0)) :
    ∀ d ∈ (send cur q u reply).1, Written (n + 1) d := by
  cases cur with
  | none => exact fun d hd => by cases hd
  | some d =>
    obtain ⟨hgeneration, hattempts⟩ := h d rfl
    have hinc (k : Int) (hk : increment (d .attempts) = some (.int k)) : k ≤ n + 1 := by
      unfold increment at hk
      split at hk <;> grind
    unfold Mongo.send updateOne Update.apply Written
    grind

theorem Written.step (h : ∀ d ∈ cur, Written n d) (op : Op) :
    ∀ d ∈ (step key cur op).1, Written (n + 1) d := by
  have hfresh (item : Item) : Written (n + 1) (freshDoc key item) :=
    ⟨by simp [freshDoc], by simp [freshDoc]; omega⟩
  have hkept : ∀ d ∈ cur, Written (n + 1) d := by grind [Written]
  cases op with
  | mark item | reopen item | deleteObsolete generation =>
    cases cur <;> grind [Mongo.step, mark]
  | requeue now keys => exact Written.send h rfl (.inr rfl)
  | _ => exact Written.send h rfl (.inl rfl)

theorem Written.not_apart {d : Doc Field} (h : Written n d) (hd : WellFormed key d)
    (hn : n < Int64.maxValue.toInt) (op : Op) : ¬ op.Apart d := by
  cases op with
  | reopen item | deleteObsolete generation => exact fun hapart => h.1 hapart.1
  | reschedule generation next =>
    rintro ⟨-, -, hmax⟩
    have hle := h.2 _ (hmax ▸ hd.attempts_eq)
    omega
  | _ => exact id

end Runs

/-- From an empty collection, both stores hold the same item and gave the same answers after every
sequence of calls that an `int64` can count. -/
theorem storages_agree_run (key : String) (ops : List Op)
    (hlen : ops.length ≤ Int64.maxValue.toInt) :
    (runs (step key) ops).1.map toItem = (runs (Memory.step key) ops).1 ∧
      (runs (step key) ops).2 = (runs (Memory.step key) ops).2 ∧
      ∀ d ∈ (runs (step key) ops).1, WellFormed key d ∧ Written ops.length d := by
  induction ops with
  | nil => exact ⟨rfl, rfl, fun d hd => by cases hd⟩
  | cons op ops ih =>
    rw [List.length_cons] at hlen
    obtain ⟨hitem, hanswers, hdocs⟩ := ih (by omega)
    have hstep : Agrees (step key (runs (step key) ops).1 op)
      (Memory.step key (runs (Memory.step key) ops).1 op) ∧
        Kept key (step key (runs (step key) ops).1 op) := by
      rw [← hitem]
      cases hcur : (runs (step key) ops).1 with
      | none => exact step_none key op
      | some d =>
        obtain ⟨hd, hwritten⟩ := hdocs d hcur
        have h := step_agrees_iff hd op
        exact ⟨h.1.mpr (hwritten.not_apart hd (by omega) op), h.2⟩
    exact ⟨hstep.1.1, congrArg₂ List.cons hstep.1.2 hanswers,
      fun d hd => ⟨hstep.2 d hd, Written.step (fun d hd => (hdocs d hd).2) op d hd⟩⟩

/-- The last call comes first. -/
def rescheduled : List Op :=
  [.requeue 9000 ["k"], .expire 0 1000 8000, .clearFlag 0, .flag 0 "late", .reschedule 0 6000,
    .mark (toItem legacy), .resolve 0 900]

theorem storages_agree_run_rescheduled :
    (runs (step "k") rescheduled).1.map toItem = (runs (Memory.step "k") rescheduled).1 ∧
      (runs (step "k") rescheduled).2 = (runs (Memory.step "k") rescheduled).2 :=
  have h := storages_agree_run "k" rescheduled (by decide)
  ⟨h.1, h.2.1⟩

end GoAtlas.Retryqueue
