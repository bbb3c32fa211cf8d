import GoAtlas.Dlock.Engine
import Mathlib.Data.Int.Order.Basic
import Mathlib.Data.List.Basic

/-!
# What the lease engine guarantees

The local deadline of a lock is never later than the deadline in the row: it counts from an instant
before the request was sent, and the row's counts from one after that. So a lock that is still
regarded as held is the one in the row, which nobody else can take over.
-/

namespace GoAtlas.Dlock

open Lib

variable {ttl : Nat → Int} {s s' : Sys}

/-! ## Transactions -/

def leaseOf (row : Option Row) (db : Int) : Option (Lease (Nat × Nat)) :=
  row.bind fun r => r.owner.map fun c => ⟨(c, r.fencing), r.expiresAt - db⟩

theorem leaseOf_eq_some {row : Option Row} {db left : Int} {c f : Nat}
    (h : leaseOf row db = some ⟨(c, f), left⟩) : row = some ⟨some c, f, left + db⟩ := by
  simp only [leaseOf, Option.bind_eq_some_iff, Option.map_eq_some_iff, Lease.mk.injEq,
    Prod.mk.injEq] at h
  obtain ⟨⟨owner, fencing, expiresAt⟩, rfl, a, ha, ⟨rfl, rfl⟩, rfl⟩ := h
  simp only at ha
  rw [ha]
  simp

theorem leaseOf_row (c f : Nat) (expiresAt db : Int) :
    leaseOf (some ⟨some c, f, expiresAt⟩) db = some ⟨(c, f), expiresAt - db⟩ := rfl

section Exec

variable {row : Option Row} {db t : Int} {cmd : Command} {c f : Nat}

theorem exec_backed {rem : Int} (h : Backed (leaseOf row db) (c, f) rem) (hrem : rem ≤ ttl c)
    (ht : t ≤ db) (hrel : ∀ f', cmd ≠ .release c f') :
    Backed (leaseOf (cmd.exec ttl row db t).1 db) (c, f) rem := by
  refine h.change fun left hl hle hpos => ?_
  have hrow := leaseOf_eq_some hl
  subst hrow
  cases cmd with
  | ensure => exact ⟨left, hl, hle⟩
  | acquire c' =>
    simp only [Command.exec]
    rw [if_neg (by omega)]
    exact ⟨left, hl, hle⟩
  | renew c' f' =>
    simp only [Command.exec, Option.some.injEq]
    split
    · rename_i hmatch
      obtain ⟨rfl, rfl, -⟩ := hmatch
      rw [leaseOf_row]
      exact ⟨_, rfl, by omega⟩
    · exact ⟨left, hl, hle⟩
  | release c' f' =>
    simp only [Command.exec, Option.some.injEq]
    rw [if_neg fun hmatch => hrel f' (by rw [hmatch.1])]
    exact ⟨left, hl, hle⟩

theorem exec_acquired (h : (cmd.exec ttl row db t).2 = .acquired c f) :
    cmd = .acquire c ∧ (cmd.exec ttl row db t).1 = some ⟨some c, f, t + ttl c⟩ ∧
      f = (row.elim 0 Row.fencing) + 1 := by
  cases cmd with
  | ensure => cases h
  | acquire c' =>
    cases row with
    | none =>
      cases h
      exact ⟨rfl, rfl, rfl⟩
    | some r =>
      simp only [Command.exec] at h ⊢
      split at h <;> cases h
      rename_i hexpired
      exact ⟨rfl, by rw [if_pos hexpired], rfl⟩
  | renew c' f' =>
    cases row with
    | none => cases h
    | some r =>
      simp only [Command.exec] at h
      split at h <;> cases h
  | release c' f' =>
    cases row with
    | none => cases h
    | some r =>
      simp only [Command.exec] at h
      split at h <;> cases h

theorem exec_renewed (h : (cmd.exec ttl row db t).2 = .renewed c true) :
    ∃ f, cmd = .renew c f ∧ (cmd.exec ttl row db t).1 = some ⟨some c, f, db + ttl c⟩ := by
  cases cmd with
  | ensure => cases h
  | acquire c' =>
    cases row with
    | none => cases h
    | some r =>
      simp only [Command.exec] at h
      split at h <;> cases h
  | renew c' f' =>
    cases row with
    | none => cases h
    | some r =>
      simp only [Command.exec] at h ⊢
      split at h
      · rename_i hmatch
        cases h
        refine ⟨f', rfl, ?_⟩
        rw [if_pos hmatch]
        obtain ⟨owner, fencing, expiresAt⟩ := r
        obtain ⟨rfl, rfl, -⟩ := hmatch
        rfl
      · cases h
  | release c' f' =>
    cases row with
    | none => cases h
    | some r =>
      simp only [Command.exec] at h
      split at h <;> cases h

theorem exec_fencing : (cmd.exec ttl row db t).1.elim 0 Row.fencing =
    ((cmd.exec ttl row db t).2.token?).getD (row.elim 0 Row.fencing) := by
  cases cmd with
  | ensure => cases row <;> rfl
  | acquire c' =>
    cases row with
    | none => rfl
    | some r =>
      simp only [Command.exec]
      split <;> rfl
  | renew c' f' =>
    cases row with
    | none => rfl
    | some r =>
      simp only [Command.exec]
      split <;> rfl
  | release c' f' =>
    cases row with
    | none => rfl
    | some r =>
      simp only [Command.exec]
      split <;> rfl

/-- The lease with the token `f` has expired, or another has taken its place. -/
def Lapsed (row : Option Row) (db : Int) (f : Nat) : Prop :=
  ∃ r, row = some r ∧ (f < r.fencing ∨ r.fencing = f ∧ r.expiresAt ≤ db)

theorem exec_lapsed (h : Lapsed row db f) (ht : t ≤ db) :
    Lapsed (cmd.exec ttl row db t).1 db f := by
  obtain ⟨r, rfl, hr⟩ := h
  cases cmd with
  | ensure => exact ⟨r, rfl, hr⟩
  | acquire c' =>
    simp only [Command.exec]
    split
    · exact ⟨_, rfl, .inl (by simp only; omega)⟩
    · exact ⟨r, rfl, hr⟩
  | renew c' f' =>
    simp only [Command.exec]
    split
    · -- the lease that is renewed has not expired, so it is a later one
      exact ⟨_, rfl, .inl (by simp only; omega)⟩
    · exact ⟨r, rfl, hr⟩
  | release c' f' =>
    simp only [Command.exec]
    split
    · exact ⟨_, rfl, by simp only; omega⟩
    · exact ⟨r, rfl, hr⟩

end Exec

/-! ## The invariant -/

def Stage.Released : Stage → Prop
  | .held _ _ _ releasing ended => releasing = true ∨ ended = true
  | .unusable _ | .notHeld => True
  | _ => False

def Sys.lease (s : Sys) : Option (Lease (Nat × Nat)) := leaseOf s.row s.db

/-- The lease counts for the call `c` from the instant `start`, as far as its local clock goes. -/
def Covered (ttl : Nat → Int) (s : Sys) (c f : Nat) (start : Int) : Prop :=
  Backed s.lease (c, f) (start + ttl c - s.now)

def StageOk (ttl : Nat → Int) (s : Sys) (c : Nat) : Stage → Prop
  | .acquiring id start => start ≤ s.now ∧ id < s.nextId
  | .held f leaseStart renewing releasing ended =>
    leaseStart ≤ s.now ∧ (∀ id attempt, renewing = some (id, attempt) → attempt ≤ s.now ∧
      id < s.nextId) ∧
      (releasing = false → ended = false → Covered ttl s c f leaseStart)
  | _ => True

def RequestOk (s : Sys) (id : Nat) (sent : Int) : Command → Prop
  | .ensure => True
  | .acquire c => ∀ start, s.locks c = .acquiring id start → s.db - sent ≤ s.now - start
  | .renew c f => ∀ f' leaseStart attempt releasing ended,
    s.locks c = .held f' leaseStart (some (id, attempt)) releasing ended → f' = f
  | .release c _ => (s.locks c).Released

def ReplyOk (ttl : Nat → Int) (s : Sys) (id : Nat) : Reply → Prop
  | .acquired c f => ∀ start, s.locks c = .acquiring id start → Covered ttl s c f start
  | .renewed c true =>
    ∀ f leaseStart attempt, s.locks c = .held f leaseStart (some (id, attempt)) false false →
    Covered ttl s c f attempt
  | _ => True

structure Follows (n : Nat) (old x : Stage) : Prop where
  released : old.Released → x.Released
  acquiring : ∀ id start, x = .acquiring id start → old = .acquiring id start ∨ n ≤ id
  renewing : ∀ f ls id attempt releasing ended, x = .held f ls (some (id, attempt))
    releasing ended →
    (∃ ls' releasing' ended', old = .held f ls' (some (id, attempt)) releasing' ended' ∧
      (releasing = false → releasing' = false) ∧ (ended = false → ended' = false)) ∨ n ≤ id

theorem Follows.refl (n : Nat) (x : Stage) : Follows n x x where
  released := id
  acquiring _ _ h := .inl h
  renewing _ ls _ _ releasing ended h := .inl ⟨ls, releasing, ended, h, id, id⟩

theorem ReplyOk.mono {id : Nat} {reply : Reply} (h : ReplyOk ttl s id reply)
    (hacquiring : ∀ c f start, s'.locks c = .acquiring id start →
      s.locks c = .acquiring id start ∧ (Covered ttl s c f start → Covered ttl s' c f start))
    (hrenewing : ∀ c f ls attempt, s'.locks c = .held f ls (some (id, attempt)) false false →
      ∃ ls', s.locks c = .held f ls' (some (id, attempt)) false false ∧
        (Covered ttl s c f attempt → Covered ttl s' c f attempt)) : ReplyOk ttl s' id reply := by
  cases reply with
  | acquired c f =>
    intro start hstage
    obtain ⟨hstage, hcov⟩ := hacquiring c f start hstage
    exact hcov (h start hstage)
  | renewed c ok =>
    cases ok with
    | false => trivial
    | true =>
      intro f ls attempt hstage
      obtain ⟨ls', hstage, hcov⟩ := hrenewing c f ls attempt hstage
      exact hcov (h f ls' attempt hstage)
  | _ => trivial

structure Inv (ttl : Nat → Int) (s : Sys) : Prop where
  requests : ∀ q ∈ s.requests, q.id < s.nextId ∧ q.sent ≤ s.db ∧ RequestOk s q.id q.sent q.cmd
  replies : ∀ p ∈ s.replies, p.1 < s.nextId ∧ ReplyOk ttl s p.1 p.2
  locks : ∀ c, StageOk ttl s c (s.locks c)

namespace Inv

variable {s s' : Sys}

theorem initial : Inv ttl Sys.initial where
  requests _ h := by cases h
  replies _ h := by cases h
  locks _ := trivial

theorem covered_elapse {c f : Nat} {start : Int} {d e : Nat} (h : Covered ttl s c f start)
    (hed : e ≤ d) :
    Covered ttl { s with now := s.now + d, db := s.db + e } c f start := by
  have helapse := Backed.elapse (d := (d : Int)) (e := (e : Int)) h (by omega) (by omega)
  have hlease : (s.lease.map fun x => { x with left := x.left - (e : Int) }) =
      leaseOf s.row (s.db + e) := by
    cases hrow : s.row with
    | none => simp [Sys.lease, leaseOf, hrow]
    | some r => cases ho : r.owner <;> simp [Sys.lease, leaseOf, hrow, ho]; omega
  rw [hlease] at helapse
  unfold Covered
  rw [show start + ttl c - (s.now + d) = start + ttl c - s.now - d by omega]
  exact helapse

theorem tick (h : Inv ttl s) {d e : Nat} (hed : e ≤ d) :
    Inv ttl { s with now := s.now + d, db := s.db + e } where
  requests q hq := by
    obtain ⟨hid, hsent, hok⟩ := h.requests q hq
    refine ⟨hid, by simp only; omega, ?_⟩
    cases hcmd : q.cmd with
    | ensure => trivial
    | acquire c =>
      rw [hcmd] at hok
      intro start hstage
      have := hok start hstage
      simp only
      omega
    | renew c f =>
      rw [hcmd] at hok
      exact hok
    | release c f =>
      rw [hcmd] at hok
      exact hok
  replies p hp := by
    obtain ⟨hid, hok⟩ := h.replies p hp
    exact ⟨hid, hok.mono (fun c f start hstage => ⟨hstage, fun hcov => covered_elapse hcov hed⟩)
      fun c f ls attempt hstage => ⟨ls, hstage, fun hcov => covered_elapse hcov hed⟩⟩
  locks c := by
    have hok := h.locks c
    simp only
    cases hstage : s.locks c with
    | acquiring id start =>
      rw [hstage] at hok
      exact ⟨by have := hok.1; simp only; omega, hok.2⟩
    | held f ls rn rel ended =>
      rw [hstage] at hok
      obtain ⟨hls, hrn, hcov⟩ := hok
      refine ⟨by simp only; omega, fun id at_ heq => ?_,
        fun hrel hended => covered_elapse (hcov hrel hended) hed⟩
      obtain ⟨hle, hlt⟩ := hrn id at_ heq
      exact ⟨by simp only; omega, hlt⟩
    | _ => trivial

end Inv

namespace Inv

variable {s s' : Sys}

theorem stageOk_transfer {c : Nat} {x : Stage} (hnow : s'.now = s.now) (hdb : s'.db = s.db)
    (hrow : s'.row = s.row) (hid : s.nextId ≤ s'.nextId) (h : StageOk ttl s c x) :
    StageOk ttl s' c x := by
  cases x with
  | acquiring id start => exact ⟨hnow ▸ h.1, Nat.lt_of_lt_of_le h.2 hid⟩
  | held f ls rn rel ended =>
    obtain ⟨hls, hrn, hcov⟩ := h
    refine ⟨hnow ▸ hls, fun id attempt heq => ?_, fun hrel hended => ?_⟩
    · obtain ⟨hle, hlt⟩ := hrn id attempt heq
      exact ⟨hnow ▸ hle, Nat.lt_of_lt_of_le hlt hid⟩
    · have := hcov hrel hended
      rwa [Covered, Sys.lease, hnow, hdb, hrow]
  | _ => trivial

structure Moved (s s' : Sys) (c : Nat) (x : Stage) : Prop where
  now : s'.now = s.now
  db : s'.db = s.db
  row : s'.row = s.row
  nextId : s.nextId ≤ s'.nextId
  locks : s'.locks = Function.update s.locks c x
  follows : Follows s.nextId (s.locks c) x

namespace Moved

variable {c : Nat} {x : Stage}

variable (hm : Moved s s' c x)
include hm

theorem self : s'.locks c = x := by rw [hm.locks, Function.update_self]

theorem other {c' : Nat} (hc : c' ≠ c) : s'.locks c' = s.locks c' := by
  rw [hm.locks, Function.update_of_ne hc]

theorem covered {c' f : Nat} {start : Int} (h : Covered ttl s c' f start) :
    Covered ttl s' c' f start := by
  rwa [Covered, Sys.lease, hm.now, hm.db, hm.row]

theorem acquiring {c' id : Nat} {start : Int} (hid : id < s.nextId)
    (hstage : s'.locks c' = .acquiring id start) : s.locks c' = .acquiring id start := by
  by_cases hc : c' = c
  · subst hc
    obtain hsame | hfresh := hm.follows.acquiring id start (hm.self.symm.trans hstage)
    · exact hsame
    · omega
  · exact (hm.other hc).symm.trans hstage

theorem renewing {c' f id : Nat} {ls attempt : Int} {releasing ended : Bool}
    (hid : id < s.nextId) (hstage : s'.locks c' = .held f ls (some (id, attempt)) releasing ended) :
    ∃ ls' releasing' ended', s.locks c' = .held f ls' (some (id, attempt)) releasing' ended' ∧
      (releasing = false → releasing' = false) ∧ (ended = false → ended' = false) := by
  by_cases hc : c' = c
  · subst hc
    obtain hsame | hfresh :=
      hm.follows.renewing f ls id attempt releasing ended (hm.self.symm.trans hstage)
    · exact hsame
    · omega
  · exact ⟨ls, releasing, ended, (hm.other hc).symm.trans hstage, fun h => h, fun h => h⟩

theorem requestOk {id : Nat} {sent : Int} {cmd : Command}
    (hid : id < s.nextId) (h : RequestOk s id sent cmd) : RequestOk s' id sent cmd := by
  cases cmd with
  | ensure => trivial
  | acquire c' =>
    intro start hstage
    rw [hm.now, hm.db]
    exact h start (hm.acquiring hid hstage)
  | renew c' f =>
    intro f' ls attempt releasing ended hstage
    obtain ⟨ls', releasing', ended', hsame, -, -⟩ := hm.renewing hid hstage
    exact h f' ls' attempt releasing' ended' hsame
  | release c' f =>
    by_cases hc : c' = c
    · subst hc
      rw [RequestOk, hm.self]
      exact hm.follows.released h
    · rw [RequestOk, hm.other hc]
      exact h

theorem replyOk {id : Nat} {reply : Reply} (hid : id < s.nextId) (h : ReplyOk ttl s id reply) :
    ReplyOk ttl s' id reply := by
  refine h.mono (fun c' f start hstage => ⟨hm.acquiring hid hstage, hm.covered⟩)
    fun c' f ls attempt hstage => ?_
  obtain ⟨ls', releasing', ended', hsame, hreleasing, hended⟩ := hm.renewing hid hstage
  rw [hreleasing rfl, hended rfl] at hsame
  exact ⟨ls', hsame, hm.covered⟩

end Moved

theorem update (h : Inv ttl s) (c : Nat) (x : Stage) (sent : List Request)
    (hnow : s'.now = s.now) (hdb : s'.db = s.db) (hrow : s'.row = s.row)
    (hreplies : s'.replies = s.replies) (hid : s.nextId ≤ s'.nextId)
    (hrequests : s'.requests = s.requests ++ sent) (hlocks : s'.locks = Function.update s.locks c x)
    (hsent : ∀ q ∈ sent, q.id < s'.nextId ∧ q.sent ≤ s'.db ∧ RequestOk s' q.id q.sent q.cmd)
    (hx : StageOk ttl s' c x) (hfollows : Follows s.nextId (s.locks c) x) : Inv ttl s' := by
  have hm : Moved s s' c x := ⟨hnow, hdb, hrow, hid, hlocks, hfollows⟩
  constructor
  case requests =>
    intro q hq
    rw [hrequests] at hq
    obtain hold | hnew := List.mem_append.mp hq
    · obtain ⟨hlt, hle, hok⟩ := h.requests q hold
      exact ⟨Nat.lt_of_lt_of_le hlt hid, hdb ▸ hle, hm.requestOk hlt hok⟩
    · exact hsent q hnew
  case replies =>
    intro p hp
    rw [hreplies] at hp
    obtain ⟨hlt, hok⟩ := h.replies p hp
    exact ⟨Nat.lt_of_lt_of_le hlt hid, hm.replyOk hlt hok⟩
  case locks =>
    intro c'
    by_cases hc : c' = c
    · subst hc
      rw [hm.self]
      exact hx
    · rw [hm.other hc]
      exact stageOk_transfer hnow hdb hrow hid (h.locks c')

/-- A transaction of a request that was sent. -/
theorem exec (h : Inv ttl s) {i : Nat} {t : Int} {q : Request} (hq : s.requests[i]? = some q)
    (hsent : q.sent ≤ t) (ht : t ≤ s.db) :
    Inv ttl { s with
      row := (q.cmd.exec ttl s.row s.db t).1
      requests := s.requests.eraseIdx i
      replies := s.replies ++ [(q.id, (q.cmd.exec ttl s.row s.db t).2)]
      granted := s.granted ++ (q.cmd.exec ttl s.row s.db t).2.token?.toList } := by
  obtain ⟨hid, -, hreq⟩ := h.requests q (List.mem_of_getElem? hq)
  -- a lock that was covered is covered after the transaction
  have hcov : ∀ c f start, Covered ttl s c f start → start ≤ s.now → ¬ (s.locks c).Released →
      Backed (leaseOf (q.cmd.exec ttl s.row s.db t).1 s.db) (c, f) (start + ttl c - s.now) := by
    intro c f start hcov hstart hactive
    refine exec_backed hcov (by omega) ht fun f' hcmd => hactive ?_
    rw [hcmd] at hreq
    exact hreq
  constructor
  case requests =>
    intro q' hq'
    exact h.requests q' (List.mem_of_mem_eraseIdx hq')
  case replies =>
    intro p hp
    obtain hold | hnew := List.mem_append.mp hp
    · obtain ⟨hlt, hok⟩ := h.replies p hold
      refine ⟨hlt, hok.mono (fun c f start hstage => ⟨hstage, fun hcovered => ?_⟩)
        fun c f ls attempt hstage => ⟨ls, hstage, fun hcovered => ?_⟩⟩
      · have hstageOk := h.locks c
        simp only at hstage
        rw [hstage] at hstageOk
        exact hcov c f start hcovered hstageOk.1 (by rw [hstage]; exact not_false)
      · have hstageOk := h.locks c
        simp only at hstage
        rw [hstage] at hstageOk
        refine hcov c f attempt hcovered (hstageOk.2.1 _ attempt rfl).1 ?_
        rw [hstage]
        simp [Stage.Released]
    · rw [List.mem_singleton.mp hnew]
      refine ⟨hid, ?_⟩
      cases hreply : (q.cmd.exec ttl s.row s.db t).2 with
      | acquired c f =>
        obtain ⟨hcmd, hrow, -⟩ := exec_acquired hreply
        intro start hstage
        rw [hcmd] at hreq
        have hdelay := hreq start hstage
        show Backed (leaseOf (q.cmd.exec ttl s.row s.db t).1 s.db) (c, f) (start + ttl c - s.now)
        rw [hrow, leaseOf_row]
        exact .granted (by omega)
      | renewed c ok =>
        cases ok with
        | false => trivial
        | true =>
          obtain ⟨f, hcmd, hrow⟩ := exec_renewed hreply
          intro f' ls attempt hstage
          rw [hcmd] at hreq
          have hf := hreq f' ls attempt false false hstage
          subst hf
          have hstageOk := h.locks c
          simp only at hstage
          rw [hstage] at hstageOk
          have hattempt := (hstageOk.2.1 q.id attempt rfl).1
          show Backed (leaseOf (q.cmd.exec ttl s.row s.db t).1 s.db) (c, f')
            (attempt + ttl c - s.now)
          rw [hrow, leaseOf_row]
          exact .granted (by omega)
      | _ => trivial
  case locks =>
    intro c
    have hok := h.locks c
    simp only
    cases hstage : s.locks c with
    | acquiring id start =>
      rw [hstage] at hok
      exact hok
    | held f ls rn rel ended =>
      rw [hstage] at hok
      refine ⟨hok.1, hok.2.1, fun hrel hended => hcov c f ls (hok.2.2 hrel hended) hok.1 ?_⟩
      rw [hstage, hrel, hended]
      simp [Stage.Released]
    | _ => trivial

end Inv

/-- The clock of the database does not run faster than the local ones. -/
def Action.SameRate : Action → Prop
  | .tick d e => e ≤ d
  | _ => True

namespace Inv

variable {s s' : Sys} {x : Stage}

theorem send (h : Inv ttl s) {cmd : Command} (hcmd : RequestOk (s.send cmd) s.nextId s.db cmd) :
    Inv ttl (s.send cmd) := by
  refine h.update 0 (s.locks 0) [⟨s.nextId, cmd, s.db⟩] rfl rfl rfl rfl (Nat.le_succ _) rfl
    (Function.update_eq_self 0 s.locks).symm (fun q hq => ?_)
    (stageOk_transfer (s := s) rfl rfl rfl (Nat.le_succ _) (h.locks 0)) (.refl _ _)
  rw [List.mem_singleton.mp hq]
  exact ⟨Nat.lt_succ_self _, le_rfl, hcmd⟩

theorem sendSet (h : Inv ttl s) {cmd : Command} {c : Nat}
    (hcmd : RequestOk ((s.send cmd).set c x) s.nextId s.db cmd)
    (hx : StageOk ttl ((s.send cmd).set c x) c x) (hfollows : Follows s.nextId (s.locks c) x) :
    Inv ttl ((s.send cmd).set c x) := by
  refine h.update c x [⟨s.nextId, cmd, s.db⟩] rfl rfl rfl rfl (Nat.le_succ _) rfl rfl
    (fun q hq => ?_) hx hfollows
  rw [List.mem_singleton.mp hq]
  exact ⟨Nat.lt_succ_self _, le_rfl, hcmd⟩

theorem set (h : Inv ttl s) {c : Nat} (hx : StageOk ttl s c x)
    (hfollows : Follows s.nextId (s.locks c) x) : Inv ttl (s.set c x) :=
  h.update c x [] rfl rfl rfl rfl (Nat.le_refl _) (List.append_nil _).symm rfl (by simp)
    (stageOk_transfer (s := s) rfl rfl rfl (Nat.le_refl _) hx) hfollows

variable {c f id : Nat} {ls attempt start : Int} {renewing : Option (Nat × Int)}
    {releasing ended : Bool}

variable (h : Inv ttl s)
include h

theorem stageOk (hstage : s.locks c = x) : StageOk ttl s c x :=
  hstage ▸ h.locks c

theorem giveUp (hx : x = .notHeld ∨ ∃ f, x = .unusable f) :
    Inv ttl (s.set c x) := by
  rcases hx with rfl | ⟨f, rfl⟩
  · exact h.set trivial ⟨fun _ => trivial, by simp, by simp⟩
  · exact h.set trivial ⟨fun _ => trivial, by simp, by simp⟩

theorem lock (hidle : s.locks c = .idle) :
    Inv ttl ((s.send (.acquire c)).set c (.acquiring s.nextId s.now)) := by
  refine h.sendSet (fun start hstage => ?_) ⟨le_rfl, Nat.lt_succ_self _⟩ ⟨?_, ?_, ?_⟩
  · simp only [Sys.set, Function.update_self, Stage.acquiring.injEq] at hstage
    simp only [Sys.set, Sys.send]
    omega
  · rw [hidle]
    exact False.elim
  · intro id start heq
    cases heq
    exact .inr (Nat.le_refl _)
  · intro f ls id attempt releasing ended heq
    cases heq

theorem receive (hstage : s.locks c = .acquiring id start)
    (hreply : (id, .acquired c f) ∈ s.replies) :
    Inv ttl (s.set c (.held f start none false false)) := by
  refine h.set ⟨(h.stageOk hstage).1, by simp, fun _ _ => (h.replies _ hreply).2 start hstage⟩
    ⟨?_, by simp, by simp⟩
  rw [hstage]
  exact False.elim

theorem renew (hstage : s.locks c = .held f ls none false false) :
    Inv ttl ((s.send (.renew c f)).set c (.held f ls (some (s.nextId, s.now)) false false)) := by
  obtain ⟨hls, -, hcov⟩ := h.stageOk hstage
  refine h.sendSet ?_ ⟨hls, ?_, hcov⟩ ⟨?_, by simp, ?_⟩
  · intro f' ls' attempt releasing ended heq
    simp only [Sys.set, Function.update_self, Stage.held.injEq] at heq
    exact heq.1.symm
  · intro id attempt heq
    cases heq
    exact ⟨le_rfl, Nat.lt_succ_self _⟩
  · rw [hstage]
    exact id
  · intro f ls' id attempt releasing ended heq
    cases heq
    exact .inr (Nat.le_refl _)

theorem renewed (hstage : s.locks c = .held f ls (some (id, attempt)) releasing ended) {ls' : Int}
    {ended' : Bool} (hls : ls' ≤ s.now) (hended : ended = true → ended' = true)
    (hcov : releasing = false → ended' = false → Covered ttl s c f ls') :
    Inv ttl (s.set c (.held f ls' none releasing ended')) := by
  refine h.set ⟨hls, by simp, hcov⟩ ⟨fun hreleased => ?_, by simp, by simp⟩
  rw [hstage] at hreleased
  exact hreleased.imp_right hended

theorem release (hstage : s.locks c = .held f ls renewing releasing false) :
    Inv ttl ((s.send (.release c f)).set c (.held f ls renewing true false)) := by
  obtain ⟨hls, hrenewing, -⟩ := h.stageOk hstage
  refine h.sendSet ?_ ⟨hls, ?_, by simp⟩ ⟨fun _ => .inl rfl, by simp, ?_⟩
  · simp [RequestOk, Sys.set, Stage.Released]
  · intro id attempt heq
    obtain ⟨hle, hlt⟩ := hrenewing id attempt heq
    exact ⟨hle, Nat.lt_succ_of_lt hlt⟩
  · intro f ls' id attempt rel ended heq
    cases heq
    exact .inl ⟨ls, releasing, false, hstage, by simp, by simp⟩

theorem endLock (hstage : s.locks c = .held f ls renewing releasing ended) :
    Inv ttl (s.set c (.held f ls renewing releasing true)) := by
  obtain ⟨hls, hrenewing, -⟩ := h.stageOk hstage
  refine h.set ⟨hls, hrenewing, by simp⟩ ⟨fun _ => .inr rfl, by simp, ?_⟩
  intro f ls' id attempt rel ended' heq
  cases heq
  exact .inl ⟨ls, releasing, ended, hstage, by simp, by simp⟩

theorem step_action (a : Action) (hrate : a.SameRate) (hstep : s.step ttl a = some s') :
    Inv ttl s' := by
  cases a with
  | tick d e =>
    cases hstep
    exact h.tick hrate
  | exec i t =>
    simp only [Sys.step] at hstep
    split at hstep <;> try cases hstep
    rename_i q hq
    split at hstep <;> cases hstep
    rename_i ht
    exact h.exec hq ht.1 ht.2
  | ensure =>
    cases hstep
    exact h.send trivial
  | lock c =>
    simp only [Sys.step] at hstep
    split at hstep <;> cases hstep
    exact h.lock ‹_›
  | acquireFailed c =>
    simp only [Sys.step] at hstep
    split at hstep <;> cases hstep
    exact h.giveUp (.inr ⟨0, rfl⟩)
  | receive c reply closed =>
    simp only [Sys.step] at hstep
    split at hstep <;> try cases hstep
    rename_i id start hstage
    split at hstep <;> try cases hstep
    rename_i hreply
    split at hstep
    · rename_i c' fencing
      split at hstep <;> try cases hstep
      rename_i hc
      have hc : c' = c := not_not.mp hc
      subst hc
      split at hstep <;> cases hstep
      · exact h.giveUp (.inr ⟨fencing, rfl⟩)
      · exact h.receive hstage hreply
    · cases hstep
      exact h.giveUp (.inl rfl)
    · cases hstep
  | renew c =>
    simp only [Sys.step] at hstep
    split at hstep <;> try cases hstep
    split at hstep <;> cases hstep
    exact h.renew ‹_›
  | renewFailed c =>
    simp only [Sys.step] at hstep
    split at hstep <;> cases hstep
    rename_i fencing ls renewing releasing ended hstage
    obtain ⟨hls, -, hcov⟩ := h.stageOk hstage
    exact h.renewed hstage hls id hcov
  | receiveRenewed c ok =>
    simp only [Sys.step] at hstep
    split at hstep <;> try cases hstep
    rename_i fencing ls id attempt releasing ended hstage
    obtain ⟨hls, hrenewing, -⟩ := h.stageOk hstage
    split at hstep <;> try cases hstep
    rename_i hreply
    split at hstep <;> cases hstep
    · rename_i htrue
      subst htrue
      refine h.renewed hstage (hrenewing id attempt rfl).1 (fun h => h) fun hrel hended => ?_
      subst hrel hended
      exact (h.replies _ hreply).2 fencing ls attempt hstage
    · exact h.renewed hstage hls (fun _ => rfl) (by simp)
  | release c =>
    simp only [Sys.step] at hstep
    split at hstep <;> cases hstep
    · exact h.release ‹_›
    · rename_i fencing hstage
      refine h.send ?_
      simp [RequestOk, Sys.send, hstage, Stage.Released]
  | receiveReleased c id =>
    simp only [Sys.step] at hstep
    split at hstep <;> try cases hstep
    split at hstep <;> cases hstep
    · exact h.endLock ‹_›
    · exact h
  | expire c =>
    simp only [Sys.step] at hstep
    split at hstep <;> try cases hstep
    split at hstep <;> cases hstep
    exact h.endLock ‹_›

end Inv

/-! ## The guarantees -/

/-- The row changes only by the transaction of a request. -/
theorem step_row {a : Action} (h : s.step ttl a = some s') :
    (∃ (q : Request) (t : Int), t ≤ s.db ∧ s'.db = s.db ∧ s'.row = (q.cmd.exec ttl s.row s.db t).1 ∧
      s'.granted = s.granted ++ (q.cmd.exec ttl s.row s.db t).2.token?.toList) ∨
    (s.db ≤ s'.db ∧ s'.row = s.row ∧ s'.granted = s.granted) := by
  cases a with
  | tick d e =>
    cases h
    exact .inr ⟨by simp only; omega, rfl, rfl⟩
  | exec i t =>
    simp only [Sys.step] at h
    split at h <;> try cases h
    rename_i q hq
    split at h <;> cases h
    rename_i ht
    exact .inl ⟨q, t, ht.2, rfl, rfl, rfl⟩
  | ensure =>
    cases h
    exact .inr ⟨Int.le_refl _, rfl, rfl⟩
  | _ =>
    -- the other steps are of a call: they send requests and change its stage
    simp only [Sys.step] at h
    repeat' split at h
    all_goals cases h
    all_goals exact .inr ⟨Int.le_refl _, rfl, rfl⟩

/-- The engine of the call regards its lock as held: it has not ended, its release has not begun,
and less than the time to live has passed since the start of the last confirmed acquisition or
renewal. -/
def Held (ttl : Nat → Int) (s : Sys) (c : Nat) : Prop :=
  ∃ f leaseStart renewing, s.locks c = .held f leaseStart renewing false false ∧
    s.now - leaseStart < ttl c

structure Guarantees (ttl : Nat → Int) (s : Sys) : Prop where
  tokens : s.granted.Pairwise (· < ·)
  /-- A lease that has expired is not extended any more. -/
  expired : ∀ r, s.row = some r → r.expiresAt ≤ s.db →
    ∀ as s', (Sys.machine ttl).run s as = some s' →
    Lapsed s'.row s'.db r.fencing
  /-- A release of another owner, or with another token, changes nothing. -/
  stale : ∀ c f r db t, s.row = some r → (r.owner ≠ some c ∨ (f ≠ 0 ∧ r.fencing ≠ f)) →
    ((Command.release c f).exec ttl s.row db t).1 = s.row
  exclusive : ∀ c c', Held ttl s c → Held ttl s c' → c = c'

theorem Reply.token?_eq_some {r : Reply} {f : Nat} (h : r.token? = some f) :
    ∃ c, r = .acquired c f := by
  cases r <;> cases h
  exact ⟨_, rfl⟩

/-- The row has the last token that was granted. -/
structure Tokens (s : Sys) : Prop where
  increasing : s.granted.Pairwise (· < ·)
  bounded : ∀ f ∈ s.granted, f ≤ s.row.elim 0 Row.fencing

theorem Tokens.step {a : Action} (h : Tokens s) (hstep : s.step ttl a = some s') :
    Tokens s' := by
  obtain ⟨q, t, -, -, hrow, hgranted⟩ | ⟨-, hrow, hgranted⟩ := step_row hstep
  · have hfencing : s'.row.elim 0 Row.fencing =
        ((q.cmd.exec ttl s.row s.db t).2.token?).getD (s.row.elim 0 Row.fencing) := by
      rw [hrow]
      exact exec_fencing
    cases htoken : (q.cmd.exec ttl s.row s.db t).2.token? with
    | none =>
      rw [htoken] at hfencing hgranted
      rw [Option.toList_none, List.append_nil] at hgranted
      refine ⟨by rw [hgranted]; exact h.increasing, fun f hf => ?_⟩
      rw [hgranted] at hf
      rw [hfencing]
      exact h.bounded f hf
    | some f =>
      rw [htoken] at hfencing hgranted
      obtain ⟨c, hreply⟩ := Reply.token?_eq_some htoken
      obtain ⟨-, -, hf⟩ := exec_acquired hreply
      constructor
      · rw [hgranted, List.pairwise_append]
        refine ⟨h.increasing, List.pairwise_singleton _ _, fun f' hf' g hg => ?_⟩
        have hle := h.bounded f' hf'
        rw [Option.toList_some, List.mem_singleton] at hg
        omega
      · intro g hg
        rw [hgranted] at hg
        rw [hfencing, Option.getD_some]
        obtain hold | hnew := List.mem_append.mp hg
        · have hle := h.bounded g hold
          omega
        · rw [Option.toList_some, List.mem_singleton] at hnew
          omega
  · exact ⟨by rw [hgranted]; exact h.increasing, by rw [hgranted, hrow]; exact h.bounded⟩

theorem lapsed_run {f : Nat} {as : List Action} (h : Lapsed s.row s.db f)
    (hrun : (Sys.machine ttl).run s as = some s') : Lapsed s'.row s'.db f := by
  refine Machine.invariant_run (fun _ _ => True) (fun s => Lapsed s.row s.db f) ?_ h
    (Machine.along_of_mem (fun _ _ _ => trivial) _) hrun
  intro s a s' hs _ hstep
  obtain ⟨q, t, ht, hdb, hrow, -⟩ | ⟨hdb, hrow, -⟩ := step_row hstep
  · rw [hrow, hdb]
    exact exec_lapsed hs ht
  · obtain ⟨r, hr, hlapsed⟩ := hs
    rw [hrow]
    exact ⟨r, hr, by omega⟩

theorem Inv.exclusive {s : Sys} (h : Inv ttl s) {c c' : Nat} (hc : Held ttl s c)
    (hc' : Held ttl s c') :
    c = c' := by
  obtain ⟨f, ls, rn, hstage, hlt⟩ := hc
  obtain ⟨f', ls', rn', hstage', hlt'⟩ := hc'
  have hcov := h.locks c
  have hcov' := h.locks c'
  rw [hstage] at hcov
  rw [hstage'] at hcov'
  have heq := Backed.eq (hcov.2.2 rfl rfl) (hcov'.2.2 rfl rfl) (by omega) (by omega)
  exact congrArg Prod.fst heq

/-- The tokens granted for a key are strictly increasing, an expired lease is never extended, a
stale release changes nothing, and no two engines regard a lock on the key as held. -/
theorem lease_guarantees (ttl : Nat → Int) {as : List Action} {s : Sys}
    (h : (Sys.machine ttl).run .initial as = some s) (hrate : ∀ a ∈ as, a.SameRate) :
    Guarantees ttl s := by
  have hinv : Inv ttl s ∧ Tokens s := by
    refine Machine.invariant_run (fun _ a => a.SameRate) (fun s => Inv ttl s ∧ Tokens s)
      (fun s a s' hs hr hstep => ⟨hs.1.step_action a hr hstep, hs.2.step hstep⟩)
      ⟨.initial, List.Pairwise.nil, by simp [Sys.initial]⟩
        (Machine.along_of_mem (fun a ha _ => hrate a ha) _) h
  refine ⟨hinv.2.increasing, fun r hr hexpired as s' hrun => ?_, fun c f r db t hr hstale => ?_,
    fun c c' => hinv.1.exclusive⟩
  · exact lapsed_run ⟨r, hr, .inr ⟨rfl, hexpired⟩⟩ hrun
  · rw [hr]
    simp only [Command.exec]
    rw [if_neg]
    rintro ⟨howner, hf⟩
    obtain hne | ⟨hzero, hne⟩ := hstale
    · exact hne howner
    · exact hf.elim hzero hne

def takeoverActions : List Action :=
  [.lock 0, .tick 1 1, .exec 0 1, .receive 0 (.acquired 0 1) false, .tick 3 3, .renew 0, .exec 0 4,
    .receiveRenewed 0 true, .tick 10 10, .lock 1, .exec 0 14, .receive 1 (.acquired 1 2) false]

theorem lease_guarantees_takeover :
    ∃ s, (Sys.machine fun _ => 10).run .initial takeoverActions = some s ∧
    Guarantees (fun _ => 10) s ∧ Held (fun _ => 10) s 1 := by
  have hrate : ∀ a ∈ takeoverActions, a.SameRate := by simp [takeoverActions, Action.SameRate]
  exact ⟨_, rfl, @lease_guarantees (fun _ => 10) takeoverActions _ rfl hrate, 2, 14, none,
    rfl, by decide⟩

/-- The release has run at the database, and its reply is not back, or lost: the lock has not ended,
and another engine holds the next one. -/
theorem released_not_ended : ∃ s, (Sys.machine fun _ => 10).run .initial
    [.lock 0, .exec 0 0, .receive 0 (.acquired 0 1) false, .release 0, .exec 0 0,
    .lock 1, .exec 0 0,
      .receive 1 (.acquired 1 2) false] = some s ∧
    (∃ releasing, s.locks 0 = .held 1 s.now none releasing false) ∧
    (∃ releasing, s.locks 1 = .held 2 s.now none releasing false) :=
  ⟨_, rfl, ⟨true, rfl⟩, ⟨false, rfl⟩⟩

end GoAtlas.Dlock
