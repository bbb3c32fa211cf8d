import GoAtlas.Lib.Assoc
import GoAtlas.Lib.Bytes
import GoAtlas.Lib.Deadlines

/-!
# The denylist

Revocations of tokens by key, permanent or up to an instant: the store in memory, which sweeps what
has expired whenever it is written to, and the store in Redis, which leaves that to the server. Both
write one expiry for each key: the last revocation since the last `Restore` is the one that counts.
Instants are nanoseconds since the zero instant, those of the server whole milliseconds.
-/

namespace GoAtlas.Auth

open Lib

structure Key where
  bytes : Bytes
  deriving DecidableEq

/-! ## In memory -/

/-- The expiry by key; the zero instant means permanent. -/
structure Denylist where
  entries : List (Key × Int)
  nodup : (entries.map Prod.fst).Nodup

namespace Denylist

def new : Denylist := ⟨[], List.nodup_nil⟩

def expired (now expiry : Int) : Bool := expiry ≠ 0 && !decide (now < expiry)

def sweepLocked (d : Denylist) (now : Int) : Denylist where
  entries := d.entries.filter fun e => !expired now e.2
  nodup := d.nodup.sublist (List.filter_sublist.map _)

def put (d : Denylist) (key : Key) (expiry : Int) : Denylist where
  entries := Assoc.put d.entries key expiry
  nodup := Assoc.nodup_put d.nodup key expiry

def revoke (d : Denylist) (key : Key) (now : Int) : Denylist := (d.sweepLocked now).put key 0

/-- The clock is read twice: before the lock is taken and by the sweep. -/
def revokeUntil (d : Denylist) (key : Key) (expiry checked now : Int) : Denylist :=
  if !decide (checked < expiry) then d else (d.sweepLocked now).put key expiry

def restore (d : Denylist) (key : Key) : Denylist where
  entries := Assoc.remove d.entries key
  nodup := Assoc.nodup_remove d.nodup key

def isRevoked (d : Denylist) (key : Key) (now : Int) : Bool :=
  match d.entries.lookup key with
  | none => false
  | some expiry => expiry = 0 || now < expiry

end Denylist

inductive Call where
  | revoke (key : Key)
  | revokeUntil (key : Key) (expiry checked : Int)
  | restore (key : Key)
  | sweep

structure Event where
  call : Call
  now : Int

def Denylist.step (d : Denylist) (e : Event) : Denylist :=
  match e.call with
  | .revoke key => d.revoke key e.now
  | .revokeUntil key expiry checked => d.revokeUntil key expiry checked e.now
  | .restore key => d.restore key
  | .sweep => d.sweepLocked e.now

def Denylist.run : List Event → Denylist
  | [] => .new
  | e :: es => (run es).step e

def Event.start (e : Event) : Int :=
  match e.call with
  | .revokeUntil _ _ checked => checked
  | _ => e.now

def clock (start : Int) : List Event → Int
  | [] => start
  | e :: _ => e.now

/-- The clock does not go back. -/
def Ordered (start : Int) : List Event → Prop
  | [] => True
  | e :: es => Ordered start es ∧ clock start es ≤ e.start ∧ e.start ≤ e.now

/-- What a call means for its key. An expiry at the zero instant is kept as permanent. -/
def Event.mark (e : Event) : Option (Mark Key Int) :=
  match e.call with
  | .revoke key => some (.set key ⟨⊤, ⊤⟩)
  | .revokeUntil key expiry checked =>
    if checked < expiry then some (.set key ⟨expiry, if expiry = 0 then ⊤ else expiry⟩) else none
  | .restore key => some (.clear key)
  | .sweep => none

def marks (es : List Event) : List (Mark Key Int) := es.filterMap Event.mark

/-! ## In Redis -/

def millisecond : Int := 1000000

/-- The time to live that the client sends for a positive duration: whole milliseconds, at least
one. -/
def ttlMillis (d : Int) : Int := max 1 (d / millisecond)

/-- The commands of the client on the state of the server, and what is assumed of them. A key is
gone after its expiry; whether it is still there in the millisecond itself is left open. -/
structure Redis (σ : Type) where
  empty : σ
  /-- `Set` with an expiration, 0 for none, at an instant of the server. -/
  set : σ → Key → Int → Int → σ
  del : σ → Key → σ
  /-- `Exists`: how many of the keys there are. -/
  count : σ → Key → Int → Nat
  count_empty : ∀ k t, count empty k t = 0
  count_set_other : ∀ s key d now k t, k ≠ key → count (set s key d now) k t = count s k t
  count_set_forever : ∀ s key now t, 0 < count (set s key 0 now) key t
  count_set_before : ∀ s key d now t, 0 < d → t < now + ttlMillis d →
    0 < count (set s key d now) key t
  count_set_after : ∀ s key d now t, 0 < d → now + ttlMillis d < t →
    count (set s key d now) key t = 0
  count_del : ∀ s key k t, count (del s key) k t = if k = key then 0 else count s k t

structure Store (σ : Type) where
  keyPrefix : Bytes
  server : σ

section Redis

variable {σ : Type} (redis : Redis σ)

namespace Store

def redisKey (s : Store σ) (key : Key) : Key := ⟨s.keyPrefix ++ key.bytes⟩

def isRevoked (s : Store σ) (key : Key) (now : Int) : Bool :=
  0 < redis.count s.server (s.redisKey key) now

def revoke (s : Store σ) (key : Key) (now : Int) : Store σ :=
  { s with server := redis.set s.server (s.redisKey key) 0 now }

def revokeUntil (s : Store σ) (key : Key) (ttl now : Int) : Store σ :=
  if ttl ≤ 0 then s else { s with server := redis.set s.server (s.redisKey key) ttl now }

def restore (s : Store σ) (key : Key) : Store σ :=
  { s with server := redis.del s.server (s.redisKey key) }

end Store

inductive StoreCall where
  | revoke (key : Key)
  | revokeUntil (key : Key) (ttl : Int)
  | restore (key : Key)

structure StoreEvent where
  call : StoreCall
  now : Int

def Store.step (s : Store σ) (e : StoreEvent) : Store σ :=
  match e.call with
  | .revoke key => s.revoke redis key e.now
  | .revokeUntil key ttl => s.revokeUntil redis key ttl e.now
  | .restore key => s.restore redis key

def Store.run (keyPrefix : Bytes) : List StoreEvent → Store σ
  | [] => ⟨keyPrefix, redis.empty⟩
  | e :: es => (run keyPrefix es).step redis e

end Redis

def StoreEvent.mark (e : StoreEvent) : Option (Mark Key Int) :=
  match e.call with
  | .revoke key => some (.set key ⟨⊤, ⊤⟩)
  | .revokeUntil key ttl =>
    if 0 < ttl then some (.set key ⟨(e.now + ttlMillis ttl : Int), (e.now + ttlMillis ttl : Int)⟩)
    else none
  | .restore key => some (.clear key)

def storeMarks (es : List StoreEvent) : List (Mark Key Int) := es.filterMap StoreEvent.mark

/-! ## The memory store keeps the last expiry -/

variable {d : Denylist} {key k : Key} {expiry now t start : Int} {es : List Event}

theorem lookup_filter {α : Type} {l : List (Key × α)} (hnodup : (l.map Prod.fst).Nodup)
    (p : α → Bool) (k : Key) :
    (l.filter fun e => p e.2).lookup k = (l.lookup k).filter p := by
  have hnodup' : ((l.filter fun e => p e.2).map Prod.fst).Nodup :=
    hnodup.sublist (List.filter_sublist.map _)
  refine Option.ext fun v => ?_
  rw [Assoc.lookup_eq_some_iff_mem hnodup', List.mem_filter, Option.filter_eq_some_iff,
    Assoc.lookup_eq_some_iff_mem hnodup]

theorem isRevoked_sweepLocked (h : now ≤ t) :
    (d.sweepLocked now).isRevoked k t = d.isRevoked k t := by
  unfold Denylist.isRevoked Denylist.sweepLocked
  dsimp only
  rw [lookup_filter d.nodup (fun e => !Denylist.expired now e)]
  cases d.entries.lookup k with
  | none => rfl
  | some expiry =>
    by_cases hexp : Denylist.expired now expiry = true
    · have hkeep : Option.filter (fun e => !Denylist.expired now e) (some expiry) =
          none := by simp [hexp]
      rw [hkeep]
      simp only [Denylist.expired, Bool.and_eq_true, decide_eq_true_eq, Bool.not_eq_true',
        decide_eq_false_iff_not] at hexp
      have hlt : ¬ t < expiry := by omega
      simp [hexp.1, hlt]
    · have hkeep : Option.filter (fun e => !Denylist.expired now e) (some expiry) =
          some expiry := by simp [hexp]
      rw [hkeep]

theorem isRevoked_put (d : Denylist) (key : Key) (expiry : Int) (k : Key) (t : Int) :
    (d.put key expiry).isRevoked k t = if k = key then (expiry = 0 || t < expiry : Bool)
    else d.isRevoked k t := by
  unfold Denylist.isRevoked Denylist.put
  dsimp only
  rw [Assoc.lookup_put]
  by_cases hk : k = key <;> simp [hk]

theorem isRevoked_restore (d : Denylist) (key k : Key) (t : Int) :
    (d.restore key).isRevoked k t = (!decide (k = key) && d.isRevoked k t) := by
  unfold Denylist.isRevoked Denylist.restore
  dsimp only
  rw [Assoc.lookup_remove]
  by_cases hk : k = key <;> simp [hk]

theorem isRevoked_step {ms : List (Mark Key Int)} (e : Event)
    (h : ∀ t, now ≤ t → (d.isRevoked k t = true ↔ Mark.KeptDue k ms t)) (hstart : now ≤ e.start)
    (hnow : e.start ≤ e.now) (ht : e.now ≤ t) :
    (d.step e).isRevoked k t = true ↔ Mark.KeptDue k (e.mark.toList ++ ms) t := by
  have hold := h t (by omega)
  obtain ⟨call, now'⟩ := e
  cases call with
  | revoke key =>
    show ((d.sweepLocked now').put key 0).isRevoked k t = true ↔
      Mark.KeptDue k (.set key ⟨⊤, ⊤⟩ :: ms) t
    rw [isRevoked_put, isRevoked_sweepLocked ht, Mark.keptDue_set]
    by_cases hk : k = key
    · simp [hk]
    · simp [hk, Ne.symm hk, hold]
  | revokeUntil key expiry checked =>
    unfold Denylist.step Denylist.revokeUntil Event.mark
    dsimp only
    by_cases hc : checked < expiry
    · rw [if_pos hc, if_neg (by simp [hc]), Option.toList_some, List.singleton_append,
        isRevoked_put, isRevoked_sweepLocked ht, Mark.keptDue_set]
      by_cases hk : k = key
      · by_cases hzero : expiry = 0
        · simp [hk, hzero]
        · simp [hk, hzero]
      · simp [hk, Ne.symm hk, hold]
    · rw [if_neg hc, if_pos (by simp [hc])]
      exact hold
  | restore key =>
    show (d.restore key).isRevoked k t = true ↔ Mark.KeptDue k (.clear key :: ms) t
    rw [isRevoked_restore, Mark.keptDue_clear, ← hold, Bool.and_eq_true, Bool.not_eq_true',
      decide_eq_false_iff_not, ne_comm]
  | sweep =>
    show (d.sweepLocked now').isRevoked k t = true ↔ Mark.KeptDue k ms t
    rw [isRevoked_sweepLocked ht, hold]

theorem isRevoked_run (h : Ordered start es) (k : Key) :
    ∀ t, clock start es ≤ t →
      ((Denylist.run es).isRevoked k t = true ↔ Mark.KeptDue k (marks es) t) := by
  induction es with
  | nil =>
    intro t _
    simp [Denylist.run, Denylist.new, Denylist.isRevoked, marks, Mark.KeptDue, Mark.standing]
  | cons e es ih =>
    intro t ht
    have hmarks : marks (e :: es) = e.mark.toList ++ marks es := by
      unfold marks
      rw [List.filterMap_cons]
      cases e.mark <;> rfl
    rw [hmarks]
    exact isRevoked_step e (ih h.1) h.2.1 h.2.2 ht

/-! ## So does the store in Redis -/

section Redis

variable {σ : Type} (redis : Redis σ)

theorem redisKey_inj (s : Store σ) {key k : Key} : s.redisKey k = s.redisKey key ↔ k = key := by
  cases k
  cases key
  simp [Store.redisKey]

/-- Before its last deadline a key is revoked, after it not. -/
structure Store.Answers (s : Store σ) (k : Key) (ms : List (Mark Key Int)) (t : Int) : Prop where
  revoked : Mark.KeptDue k ms t → s.isRevoked redis k t = true
  due : s.isRevoked redis k t = true → Mark.KeptDue k ms (t - 1)

variable {redis} {s : Store σ} {ms : List (Mark Key Int)}

theorem Store.Answers.congr {s' : Store σ} {ms' : List (Mark Key Int)} (h : s.Answers redis k ms t)
    (hanswer : s'.isRevoked redis k t = s.isRevoked redis k t)
    (hmarks : ∀ u, Mark.KeptDue k ms' u ↔ Mark.KeptDue k ms u) : s'.Answers redis k ms' t where
  revoked hdue := hanswer.trans (h.revoked ((hmarks t).mp hdue))
  due hrevoked := (hmarks _).mpr (h.due (hanswer.symm.trans hrevoked))

theorem isRevoked_set_other (h : k ≠ key) (d : Int) :
    ({ s with server := redis.set s.server (s.redisKey key) d now } : Store σ).isRevoked redis k t =
      s.isRevoked redis k t := by
  have hkey : s.redisKey k ≠ s.redisKey key := fun heq => h ((redisKey_inj s).mp heq)
  show decide (0 < redis.count _ (s.redisKey k) t) = _
  rw [redis.count_set_other _ _ _ _ _ _ hkey]
  rfl

theorem answers_revoke (h : s.Answers redis k ms t) :
    (s.revoke redis key now).Answers redis k (.set key ⟨⊤, ⊤⟩ :: ms) t := by
  by_cases hk : k = key
  · subst hk
    refine ⟨fun _ => decide_eq_true (redis.count_set_forever _ _ _ _), fun _ => ?_⟩
    rw [Mark.keptDue_set, if_pos rfl]
    exact WithTop.coe_lt_top _
  · refine h.congr (isRevoked_set_other hk 0) fun u => ?_
    rw [Mark.keptDue_set, if_neg (Ne.symm hk)]

theorem answers_revokeUntil {ttl : Int} (h : s.Answers redis k ms t) (hpos : 0 < ttl) :
    (s.revokeUntil redis key ttl now).Answers redis k
      (.set key ⟨(now + ttlMillis ttl : Int), (now + ttlMillis ttl : Int)⟩ :: ms) t := by
  rw [Store.revokeUntil, if_neg (by omega)]
  by_cases hk : k = key
  · subst hk
    refine ⟨fun hdue => ?_, fun hrevoked => ?_⟩
    · rw [Mark.keptDue_set, if_pos rfl, WithTop.coe_lt_coe] at hdue
      exact decide_eq_true (redis.count_set_before _ _ _ _ _ hpos hdue)
    · rw [Mark.keptDue_set, if_pos rfl, WithTop.coe_lt_coe]
      by_contra hafter
      have hgone := redis.count_set_after s.server (s.redisKey k) ttl now t hpos (by omega)
      have hthere := of_decide_eq_true hrevoked
      exact absurd hgone hthere.ne'
  · refine h.congr (isRevoked_set_other hk ttl) fun u => ?_
    rw [Mark.keptDue_set, if_neg (Ne.symm hk)]

theorem answers_restore (h : s.Answers redis k ms t) :
    (s.restore redis key).Answers redis k (.clear key :: ms) t := by
  have hanswer : (s.restore redis key).isRevoked redis k t =
      (!decide (k = key) && s.isRevoked redis k t) := by
    show decide (0 < redis.count (redis.del s.server (s.redisKey key)) (s.redisKey k) t) = _
    rw [redis.count_del]
    by_cases hk : k = key
    · simp [hk]
    · rw [if_neg (fun heq => hk ((redisKey_inj s).mp heq))]
      simp [hk, Store.isRevoked]
  refine ⟨fun hdue => ?_, fun hrevoked => ?_⟩
  · obtain ⟨hk, hdue⟩ := (Mark.keptDue_clear t).mp hdue
    rw [hanswer, h.revoked hdue]
    simp [Ne.symm hk]
  · rw [hanswer, Bool.and_eq_true, Bool.not_eq_true', decide_eq_false_iff_not] at hrevoked
    exact (Mark.keptDue_clear _).mpr ⟨Ne.symm hrevoked.1, h.due hrevoked.2⟩

theorem store_answers_run (redis : Redis σ) (keyPrefix : Bytes) (es : List StoreEvent) (k : Key)
    (t : Int) : (Store.run redis keyPrefix es).Answers redis k (storeMarks es) t := by
  induction es with
  | nil =>
    refine ⟨fun h => absurd h (Mark.not_keptDue_nil t), fun h => ?_⟩
    rw [Store.run, Store.isRevoked, redis.count_empty] at h
    cases h
  | cons e es ih =>
    obtain ⟨call, now⟩ := e
    cases call with
    | revoke key => exact answers_revoke ih
    | revokeUntil key ttl =>
      by_cases hpos : 0 < ttl
      · have hmarks : storeMarks (⟨.revokeUntil key ttl, now⟩ :: es) =
            .set key ⟨(now + ttlMillis ttl : Int), (now + ttlMillis ttl : Int)⟩ ::
              storeMarks es := by
          simp [storeMarks, StoreEvent.mark, hpos]
        rw [hmarks]
        exact answers_revokeUntil ih hpos
      · have hmarks : storeMarks (⟨.revokeUntil key ttl, now⟩ :: es) = storeMarks es := by
          simp [storeMarks, StoreEvent.mark, hpos]
        have hrun : Store.run redis keyPrefix (⟨.revokeUntil key ttl, now⟩ :: es) =
            Store.run redis keyPrefix es := if_pos (by omega)
        rw [hmarks, hrun]
        exact ih
    | restore key => exact answers_restore ih

end Redis

/-! ## The law -/

/-- The last revocation of a key since its last `Restore` is what counts, in both stores: the key is
revoked as long as that one lasts. In Redis it lasts whole milliseconds, and the last one is
open. -/
theorem revoked_iff_last (start : Int) (es : List Event) (h : Ordered start es) {σ : Type}
    (redis : Redis σ) (keyPrefix : Bytes) (events : List StoreEvent) (k : Key) :
    (∀ t, clock start es ≤ t →
      ((Denylist.run es).isRevoked k t = true ↔ Mark.KeptDue k (marks es) t)) ∧
    ∀ t, (Mark.KeptDue k (storeMarks events) t →
        (Store.run redis keyPrefix events).isRevoked redis k t = true) ∧
      ((Store.run redis keyPrefix events).isRevoked redis k t = true →
        Mark.KeptDue k (storeMarks events) (t - 1)) := by
  refine ⟨isRevoked_run h k, fun t => ?_⟩
  have hanswers := store_answers_run redis keyPrefix events k t
  exact ⟨hanswers.revoked, hanswers.due⟩

def upToExpiry : Redis (List (Key × Option Int)) where
  empty := []
  set s key d now := Assoc.put s key (if d = 0 then none else some (now + ttlMillis d))
  del s key := Assoc.remove s key
  count s key t := if (s.lookup key).any (·.all (t < ·)) then 1 else 0
  count_empty k t := rfl
  count_set_other s key d now k t hk := by rw [Assoc.lookup_put, if_neg hk]
  count_set_forever s key now t := by
    rw [Assoc.lookup_put, if_pos rfl]
    simp
  count_set_before s key d now t hd ht := by
    rw [Assoc.lookup_put, if_pos rfl, if_neg hd.ne']
    simp [ht]
  count_set_after s key d now t hd ht := by
    rw [Assoc.lookup_put, if_pos rfl, if_neg hd.ne']
    simp [ht.le]
  count_del s key k t := by
    rw [Assoc.lookup_remove]
    split <;> rfl

def bounded (k : Key) : List Event := [⟨.revokeUntil k 10 1, 1⟩, ⟨.revoke k, 0⟩]

def storeBounded (k : Key) : List StoreEvent :=
  [⟨.revokeUntil k (9 * millisecond), 1⟩, ⟨.revoke k, 0⟩]

/-- The bounded revocation ends the permanent one, in both stores. -/
theorem permanent_shortened :
    Ordered 0 (bounded ⟨[]⟩) ∧ clock 0 (bounded ⟨[]⟩) ≤ 10 ∧
    (Denylist.run (bounded ⟨[]⟩)).isRevoked ⟨[]⟩ 10 = false ∧
    Mark.Due ⟨[]⟩ (marks (bounded ⟨[]⟩)) 10 ∧
    Mark.Due ⟨[]⟩ (storeMarks (storeBounded ⟨[]⟩)) 11 ∧
    ∀ (σ : Type) (redis : Redis σ),
      (Store.run redis [] (storeBounded ⟨[]⟩)).isRevoked redis ⟨[]⟩ 11 = false := by
  refine ⟨?_, by decide, by decide, by decide, by decide, fun σ redis => ?_⟩
  · simp [Ordered, bounded, clock, Event.start]
  · exact decide_eq_false fun h =>
      absurd (redis.count_set_after _ _ _ _ _ (by decide) (by decide)) h.ne'

def extended : List Event :=
  [⟨.revoke ⟨[]⟩, 5000000⟩, ⟨.revokeUntil ⟨[]⟩ 10000000 1000000, 1000000⟩]

theorem ordered_extended : Ordered 0 extended := by
  simp [extended, Ordered, clock, Event.start]

/-- The permanent one stays. -/
theorem revoked_iff_last_extended :
    Ordered 0 extended ∧ (Denylist.run extended).isRevoked ⟨[]⟩ 11000000 = true := by
  refine ⟨ordered_extended, ((revoked_iff_last 0 extended ordered_extended upToExpiry [] [] ⟨[]⟩).1
    11000000 (by decide)).mpr ?_⟩
  exact ⟨⟨⊤, ⊤⟩, rfl, WithTop.coe_lt_top _⟩

/-! ## The stores agree -/

/-- The same call on the store in Redis, which gets the time that is left; its clock is read in
milliseconds. -/
def Event.onRedis (e : Event) : Option StoreEvent :=
  match e.call with
  | .revoke key => some ⟨.revoke key, e.now / millisecond⟩
  | .revokeUntil key expiry checked =>
    some ⟨.revokeUntil key (expiry - checked), e.now / millisecond⟩
  | .restore key => some ⟨.restore key, e.now / millisecond⟩
  | .sweep => none

/-- The call takes no time, after the zero instant, and its instants are whole milliseconds. -/
structure Event.Whole (e : Event) : Prop where
  once : e.start = e.now
  nonneg : 0 ≤ e.now
  now : millisecond ∣ e.now
  expiry : ∀ key expiry checked, e.call = .revokeUntil key expiry checked → millisecond ∣ expiry

theorem add_ttlMillis {now expiry : Int} (hnow : millisecond ∣ now) (hexpiry : millisecond ∣ expiry)
    (hlt : now < expiry) : now / millisecond + ttlMillis (expiry - now) = expiry / millisecond := by
  obtain ⟨a, rfl⟩ := hnow
  obtain ⟨b, rfl⟩ := hexpiry
  simp only [ttlMillis, millisecond] at *
  omega

/-- The marks of both stores are due alike, where the server's instant `u` tells the deadlines apart
as the instant `t` does. -/
theorem keptDue_onRedis {u : Int} (hwhole : ∀ e ∈ es, e.Whole)
    (hu : ∀ e ∈ es, ∀ key expiry checked, e.call = .revokeUntil key expiry checked →
      (t < expiry ↔ u < expiry / millisecond)) :
    Mark.KeptDue k (storeMarks (es.filterMap Event.onRedis)) u ↔ Mark.KeptDue k (marks es) t := by
  induction es with
  | nil => exact iff_of_false (Mark.not_keptDue_nil u) (Mark.not_keptDue_nil t)
  | cons e es ih =>
    have hrest := ih (fun e he => hwhole e (List.mem_cons_of_mem _ he))
      fun e he => hu e (List.mem_cons_of_mem _ he)
    have he := hwhole e List.mem_cons_self
    have hue := hu e List.mem_cons_self
    obtain ⟨call, now⟩ := e
    cases call with
    | revoke key =>
      show Mark.KeptDue k (.set key ⟨⊤, ⊤⟩ :: _) u ↔ Mark.KeptDue k (.set key ⟨⊤, ⊤⟩ :: _) t
      rw [Mark.keptDue_set, Mark.keptDue_set]
      split
      · exact iff_of_true (WithTop.coe_lt_top _) (WithTop.coe_lt_top _)
      · exact hrest
    | revokeUntil key expiry checked =>
      obtain rfl : checked = now := he.once
      have hnonneg : 0 ≤ checked := he.nonneg
      by_cases hc : checked < expiry
      · have hmarks : marks (⟨.revokeUntil key expiry checked, checked⟩ :: es) =
            .set key ⟨expiry, expiry⟩ :: marks es := by
          simp [marks, Event.mark, hc, show expiry ≠ 0 by omega]
        have hstore : storeMarks ((⟨.revokeUntil key expiry checked, checked⟩ :: es).filterMap
            Event.onRedis) = .set key ⟨(expiry / millisecond : Int),
            (expiry / millisecond : Int)⟩ ::
              storeMarks (es.filterMap Event.onRedis) := by
          have hpos : 0 < expiry - checked := by omega
          simp only [storeMarks, Event.onRedis, StoreEvent.mark, List.filterMap_cons, hpos, if_true,
            add_ttlMillis he.now (he.expiry _ _ _ rfl) hc]
        rw [hmarks, hstore, Mark.keptDue_set, Mark.keptDue_set]
        split
        · rw [WithTop.coe_lt_coe, WithTop.coe_lt_coe]
          exact (hue _ _ _ rfl).symm
        · exact hrest
      · have hneg : ¬ 0 < expiry - checked := by omega
        simpa [marks, storeMarks, Event.mark, Event.onRedis, StoreEvent.mark, hc, hneg] using hrest
    | restore key =>
      show Mark.KeptDue k (.clear key :: _) u ↔ Mark.KeptDue k (.clear key :: _) t
      rw [Mark.keptDue_clear, Mark.keptDue_clear]
      exact and_congr_right fun _ => hrest
    | sweep => exact hrest

/-- After the same calls, none of which takes time, both stores give the same answer for every key
in every later millisecond but that of an expiry, though only the one in memory sweeps. -/
theorem denylists_agree {start : Int} {es : List Event} (h : Ordered start es)
    (hwhole : ∀ e ∈ es, e.Whole) {σ : Type} (redis : Redis σ) (keyPrefix : Bytes)
    (k : Key) {t : Int} (ht : clock start es ≤ t) (hmillis : millisecond ∣ t)
    (hother : ∀ e ∈ es, ∀ key checked, e.call ≠ .revokeUntil key t checked) :
    (Store.run redis keyPrefix (es.filterMap Event.onRedis)).isRevoked redis k (t / millisecond) =
      (Denylist.run es).isRevoked k t := by
  -- before and in the millisecond `t` the server's deadlines are to come as those in memory
  have hdue : ∀ u, u = t / millisecond ∨ u = t / millisecond - 1 →
      (Mark.KeptDue k (storeMarks (es.filterMap Event.onRedis)) u ↔
        Mark.KeptDue k (marks es) t) := by
    refine fun u hu => keptDue_onRedis hwhole fun e he key expiry checked hcall => ?_
    have hexpiry := (hwhole e he).expiry key expiry checked hcall
    have hne : expiry ≠ t := by
      rintro rfl
      exact hother e he key checked hcall
    simp only [millisecond] at *
    omega
  have hanswers :=
    store_answers_run redis keyPrefix (es.filterMap Event.onRedis) k (t / millisecond)
  rw [Bool.eq_iff_iff, isRevoked_run h k t ht]
  constructor
  · exact fun hrevoked => (hdue _ (.inr rfl)).mp (hanswers.due hrevoked)
  · exact fun hkept => hanswers.revoked ((hdue _ (.inl rfl)).mpr hkept)

theorem denylists_agree_extended :
    (Store.run upToExpiry [] (extended.filterMap Event.onRedis)).isRevoked upToExpiry ⟨[]⟩ 11 =
      (Denylist.run extended).isRevoked ⟨[]⟩ 11000000 := by
  have hwhole : ∀ e ∈ extended, e.Whole := by
    intro e he
    simp only [extended, List.mem_cons, List.not_mem_nil, or_false] at he
    rcases he with rfl | rfl
    · exact ⟨rfl, by decide, by decide, by simp⟩
    · refine ⟨rfl, by decide, by decide, ?_⟩
      rintro _ _ _ ⟨⟩
      decide
  exact denylists_agree ordered_extended hwhole upToExpiry [] ⟨[]⟩ (by decide) (by decide)
    (by simp [extended])

end GoAtlas.Auth
