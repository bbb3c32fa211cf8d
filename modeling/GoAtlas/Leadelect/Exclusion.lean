import GoAtlas.Lib.Moves
import GoAtlas.Leadelect.Provider
import Mathlib.Data.List.Basic

/-!
# One leader

A provider relies on a write of its own from the reply on: as long as its clock says so, the key is
its own, and every write since is its own too. That is kept by every request the store runs: while
the key is there nobody creates it, an update names a revision its sender wrote, and so does a
deletion, which moreover comes from a provider that has stopped. A provider counts its lease from
the instant it recorded the reply, so this needs that the reply is recorded soon enough after the
write.
-/

namespace GoAtlas.Leadelect

open Lib

/-! ## What a provider relies on -/

/-- Until then the key is the provider's, with this revision or a later one. -/
def Holds (s : Sys) (p revision : Nat) (until_ : Int) : Prop :=
  s.now < until_ → ∃ e, s.store.entry = some e ∧ e.node = p ∧ revision ≤ e.revision ∧
    until_ ≤ e.written + defaultBucketKeysTTL ∧ ∀ q r, (q, r) ∈ s.writes → revision < r → q = p

/-- The writes a provider counts on, and until when. -/
inductive Relies (replies : List (Nat × Nat × Reply)) (p : Nat) (x : Provider) : Nat → Int → Prop
  | reply {task : Task} {id : Nat} {cmd : Command} {revision : Nat} {written : Int}
      (hstage : x.stage = .calling task id cmd)
      (hreply : (p, id, .wrote revision written) ∈ replies) :
      Relies replies p x revision (written + defaultBucketKeysTTL)
  | confirmed {revision : Nat} {written : Int} (hstage : x.stage = .confirmed revision written) :
      Relies replies p x revision (written + defaultBucketKeysTTL)
  | stamped {revision : Nat} {at_ : Int} (hstage : x.stage = .stamped revision at_) :
      Relies replies p x revision (at_ + x.lease)
  | stored {revision : Nat} {at_ : Int} (hstage : x.stage = .stored revision at_) :
      Relies replies p x revision (at_ + x.lease)
  | leader {last : Int} (hleader : x.isLeader = true ∨ x.stage = .setting true)
    (hlast : x.lastRenewOK = some last) :
      Relies replies p x x.fenceToken (last + x.lease)

theorem Relies.recorded {replies : List (Nat × Nat × Reply)} {p revision : Nat} {x : Provider}
    {until_ : Int} (h : Relies replies p x revision until_)
    (hstage : x.stage = .idle ∨ ∃ leader, x.stage = .setting leader) :
    revision = x.fenceToken ∧ (x.isLeader = true ∨ x.stage = .setting true) ∧
      ∃ last, x.lastRenewOK = some last ∧ until_ = last + x.lease := by
  cases h with
  | leader hleader hlast => exact ⟨rfl, hleader, _, hlast, rfl⟩
  | reply hs => rcases hstage with heq | ⟨leader, heq⟩ <;> rw [hs] at heq <;> cases heq
  | confirmed hs => rcases hstage with heq | ⟨leader, heq⟩ <;> rw [hs] at heq <;> cases heq
  | stamped hs => rcases hstage with heq | ⟨leader, heq⟩ <;> rw [hs] at heq <;> cases heq
  | stored hs => rcases hstage with heq | ⟨leader, heq⟩ <;> rw [hs] at heq <;> cases heq

structure Good (s : Sys) (p revision : Nat) (until_ : Int) : Prop where
  holds : Holds s p revision until_
  deletes : ∀ id d, (p, id, .delete d) ∈ s.requests → d < revision

def Own (writes : List (Nat × Nat)) (p : Nat) : Command → Prop
  | .update r | .delete r => (p, r) ∈ writes
  | _ => True

structure ProviderOk (s : Sys) (p : Nat) (x : Provider) : Prop where
  good : x.isRunning = true → ∀ revision until_, Relies s.replies p x revision until_ →
    Good s p revision until_
  own : ∀ task id cmd, x.stage = .calling task id cmd → Own s.writes p cmd
  resign : ∀ id cmd, x.stage = .calling .resign id cmd → x.isRunning = false
  delete : ∀ task id d, x.stage = .calling task id (.delete d) → x.isRunning = false
  canceled : x.canceled = true → x.isRunning = false
  stopped : x.isRunning = false → x.stopping = false → x.stage = .off ∧ x.isLeader = false
  last : ∀ t, x.lastRenewOK = some t → t ≤ s.now
  stage : ∀ revision at_, x.stage = .stamped revision at_ ∨ x.stage = .stored revision at_ →
    at_ ≤ s.now ∧ ∀ t, x.lastRenewOK = some t → t ≤ at_
  token : ∀ revision at_, x.stage = .stored revision at_ → x.fenceToken = revision

structure Inv (s : Sys) : Prop where
  requests : ∀ p id cmd, (p, id, cmd) ∈ s.requests → id < s.nextId ∧ Own s.writes p cmd
  replies : ∀ p id reply, (p, id, reply) ∈ s.replies → id < s.nextId
  found : ∀ p id node r, (p, id, .found node r) ∈ s.replies → (node, r) ∈ s.writes
  entry : ∀ e, s.store.entry = some e → (e.node, e.revision) ∈ s.writes ∧ e.written ≤ s.now
  bound : ∀ q r, (q, r) ∈ s.writes → r ≤ s.store.revision
  unique : ∀ q q' r, (q, r) ∈ s.writes → (q', r) ∈ s.writes → q = q'
  provider : ∀ p, ProviderOk s p (s.providers p)

variable {s s' : Sys} {p revision : Nat} {until_ : Int} {x : Provider}

theorem Holds.mono (h : Holds s p revision until_) {u : Int} (hu : u ≤ until_) :
    Holds s p revision u := by
  intro hnow
  obtain ⟨e, he, hnode, hrev, huntil, hwrites⟩ := h (by omega)
  exact ⟨e, he, hnode, hrev, by omega, hwrites⟩

theorem Good.mono (h : Good s p revision until_) {u : Int} (hu : u ≤ until_) :
    Good s p revision u :=
  ⟨h.holds.mono hu, h.deletes⟩

/-! ## The store runs a request -/

theorem current_eq_some {st : Store} {now : Int} {e : Entry} (he : st.entry = some e)
    (halive : now < e.written + defaultBucketKeysTTL) : st.current now = some e := by
  simp [Store.current, he, Option.filter_some, halive]

theorem entry_of_current {st : Store} {now : Int} {e : Entry} (h : st.current now = some e) :
    st.entry = some e := by
  simp only [Store.current, Option.filter_eq_some_iff] at h
  exact h.1

/-- What a request does at the store: nothing, a write, or a deletion. -/
theorem exec_cases (st : Store) (now : Int) (p : Nat) (cmd : Command) :
    ((st.exec now p cmd).1 = st ∧ Sys.wrote p (st.exec now p cmd).2 = [] ∧
      ∀ node r, (st.exec now p cmd).2 = .found node r → ∃ e, st.entry = some e ∧ e.node = node ∧
        e.revision = r) ∨
    (st.exec now p cmd = st.write p now ∧ ((cmd = .create ∧ st.current now = none) ∨
      ∃ e, st.current now = some e ∧ cmd = .update e.revision)) ∨
    (∃ e, st.current now = some e ∧ cmd = .delete e.revision ∧
      st.exec now p cmd = (⟨none, st.revision + 1⟩, .deleted)) := by
  cases cmd with
  | create =>
    simp only [Store.exec]
    split
    · exact .inr (.inl ⟨rfl, .inl ⟨trivial, ‹_›⟩⟩)
    · exact .inl ⟨rfl, rfl, nofun⟩
  | get =>
    simp only [Store.exec]
    split
    · exact .inl ⟨rfl, rfl, nofun⟩
    · rename_i e he
      refine .inl ⟨rfl, rfl, fun node r heq => ?_⟩
      cases heq
      exact ⟨e, entry_of_current he, rfl, rfl⟩
  | update r =>
    simp only [Store.exec]
    split
    · exact .inl ⟨rfl, rfl, nofun⟩
    · rename_i e he
      split
      · rename_i hr
        subst hr
        exact .inr (.inl ⟨rfl, .inr ⟨e, he, rfl⟩⟩)
      · exact .inl ⟨rfl, rfl, nofun⟩
  | delete r =>
    simp only [Store.exec]
    split
    · exact .inl ⟨rfl, rfl, nofun⟩
    · rename_i e he
      split
      · rename_i hr
        subst hr
        exact .inr (.inr ⟨e, he, rfl, rfl⟩)
      · exact .inl ⟨rfl, rfl, nofun⟩

def Sys.ran (s : Sys) (i q id : Nat) (store : Store) (reply : Reply) : Sys :=
  { s with
    store := store
    requests := s.requests.eraseIdx i
    replies := s.replies ++ [(q, id, reply)]
    writes := s.writes ++ Sys.wrote q reply }

section Exec

variable {i q id : Nat} {cmd : Command}

/-- A request takes the key from nobody who relies on it. -/
theorem Holds.exec (h : Inv s) (hreq : (q, id, cmd) ∈ s.requests)
    (hholds : Holds s p revision until_) (hdelete : ∀ d, cmd = .delete d → q = p → d < revision) :
    Holds (s.ran i q id (s.store.exec s.now q cmd).1 (s.store.exec s.now q cmd).2)
      p revision until_ := by
  intro hnow
  obtain ⟨e, he, rfl, hrev, huntil, hwrites⟩ := hholds hnow
  have hcurrent : s.store.current s.now = some e :=
    current_eq_some he (Int.lt_of_lt_of_le hnow huntil)
  have hentry := h.entry e he
  have howner : ∀ r, (q, r) ∈ s.writes → r = e.revision → q = e.node := by
    rintro r hr rfl
    exact h.unique q e.node _ hr hentry.1
  obtain ⟨hstore, hwrote, -⟩ | ⟨hwrite, hcmd⟩ | ⟨e', he', rfl, -⟩ := exec_cases s.store s.now q cmd
  · refine ⟨e, ?_, rfl, hrev, huntil, ?_⟩
    · simpa only [Sys.ran, hstore] using he
    · simpa only [Sys.ran, hwrote, List.append_nil] using hwrites
  · -- a write over a key that is there is an update by the one who wrote it
    obtain ⟨-, hnone⟩ | ⟨e', he', rfl⟩ := hcmd
    · rw [hcurrent] at hnone
      cases hnone
    · rw [hcurrent] at he'
      cases he'
      have hq : q = e.node := howner _ (h.requests q id _ hreq).2 rfl
      subst hq
      have hbound := h.bound _ _ hentry.1
      refine ⟨⟨e.node, s.store.revision + 1, s.now⟩, by simp only [Sys.ran, hwrite, Store.write],
        rfl, by simp only; omega, by have := hentry.2; simp only; omega, fun q' r hr hlt => ?_⟩
      simp only [Sys.ran, hwrite, Store.write, Sys.wrote, List.mem_append, List.mem_singleton,
        Prod.mk.injEq] at hr
      rcases hr with hold | ⟨hnode, -⟩
      · exact hwrites q' r hold hlt
      · exact hnode
  · rw [hcurrent] at he'
    cases he'
    have hq : q = e.node := howner _ (h.requests q id _ hreq).2 rfl
    have hlt := hdelete e.revision rfl hq
    omega

theorem holds_write (h : Inv s) (hwrite : s.store.exec s.now q cmd = s.store.write q s.now) :
    Holds (s.ran i q id (s.store.exec s.now q cmd).1 (s.store.exec s.now q cmd).2) q
      (s.store.revision + 1)
      (s.now + defaultBucketKeysTTL) := by
  intro _
  refine ⟨⟨q, s.store.revision + 1, s.now⟩, by simp only [Sys.ran, hwrite, Store.write], rfl,
    Nat.le_refl _, Int.le_refl _, fun q' r hr hlt => ?_⟩
  simp only [Sys.ran, hwrite, Store.write, Sys.wrote, List.mem_append, List.mem_singleton,
    Prod.mk.injEq] at hr
  rcases hr with hold | ⟨hnode, -⟩
  · have := h.bound q' r hold
    omega
  · exact hnode

theorem exec_wrote {r : Nat} {w : Int} (hreply : (s.store.exec s.now q cmd).2 = .wrote r w) :
    s.store.exec s.now q cmd = s.store.write q s.now ∧ r = s.store.revision + 1 ∧ w = s.now := by
  obtain ⟨-, hwrote, -⟩ | ⟨hwrite, -⟩ | ⟨-, -, -, hexec⟩ := exec_cases s.store s.now q cmd
  · rw [hreply] at hwrote
    cases hwrote
  · rw [hwrite] at hreply
    cases hreply
    exact ⟨hwrite, rfl, rfl⟩
  · rw [hexec] at hreply
    cases hreply

theorem own_append {writes more : List (Nat × Nat)} (h : Own writes p cmd) :
    Own (writes ++ more) p cmd := by
  cases cmd with
  | update r => exact List.mem_append_left more h
  | delete r => exact List.mem_append_left more h
  | _ => trivial

theorem Good.exec (h : Inv s) (hreq : (q, id, cmd) ∈ s.requests)
    (hgood : Good s p revision until_) :
    Good (s.ran i q id (s.store.exec s.now q cmd).1 (s.store.exec s.now q cmd).2)
      p revision until_ where
  holds := hgood.holds.exec h hreq fun d hd hq => by
    subst hd hq
    exact hgood.deletes id d hreq
  deletes id' d hd := hgood.deletes id' d (List.mem_of_mem_eraseIdx hd)

theorem relies_exec {reply : Reply}
    (h : Relies (s.replies ++ [(q, id, reply)]) p x revision until_) :
    Relies s.replies p x revision until_ ∨
    ∃ written, q = p ∧ reply = .wrote revision written ∧
      until_ = written + defaultBucketKeysTTL := by
  cases h with
  | reply hstage hreply =>
    rcases List.mem_append.mp hreply with hold | hnew
    · exact .inl (.reply hstage hold)
    · cases List.mem_singleton.mp hnew
      exact .inr ⟨_, rfl, rfl, rfl⟩
  | confirmed hstage => exact .inl (.confirmed hstage)
  | stamped hstage => exact .inl (.stamped hstage)
  | stored hstage => exact .inl (.stored hstage)
  | leader hleader hlast => exact .inl (.leader hleader hlast)

theorem writes_exec {q' r : Nat}
    (hr : (q', r) ∈ s.writes ++ Sys.wrote q (s.store.exec s.now q cmd).2) :
    (q', r) ∈ s.writes ∨
    (q' = q ∧ r = s.store.revision + 1 ∧ s.store.exec s.now q cmd = s.store.write q s.now) := by
  rcases List.mem_append.mp hr with hold | hnew
  · exact .inl hold
  · cases hreply : (s.store.exec s.now q cmd).2 with
    | wrote r' w =>
      obtain ⟨hwrite, rfl, -⟩ := exec_wrote hreply
      rw [hreply] at hnew
      cases List.mem_singleton.mp hnew
      exact .inr ⟨rfl, rfl, hwrite⟩
    | _ =>
      rw [hreply] at hnew
      cases hnew

theorem revision_exec_le : s.store.revision ≤ (s.store.exec s.now q cmd).1.revision := by
  obtain ⟨hstore, -, -⟩ | ⟨hwrite, -⟩ | ⟨-, -, -, hexec⟩ := exec_cases s.store s.now q cmd
  · exact Nat.le_of_eq (congrArg Store.revision hstore).symm
  · rw [hwrite]
    exact Nat.le_succ _
  · rw [hexec]
    exact Nat.le_succ _

theorem Inv.found_exec (h : Inv s) {node r : Nat}
    (hreply : (s.store.exec s.now q cmd).2 = .found node r) :
    (node, r) ∈ s.writes := by
  obtain ⟨-, -, hfound⟩ | ⟨hwrite, -⟩ | ⟨-, -, -, hexec⟩ := exec_cases s.store s.now q cmd
  · obtain ⟨e, he, rfl, rfl⟩ := hfound node r hreply
    exact (h.entry e he).1
  · rw [hwrite] at hreply
    cases hreply
  · rw [hexec] at hreply
    cases hreply

theorem Inv.exec (h : Inv s) (hreq : (q, id, cmd) ∈ s.requests) :
    Inv (s.ran i q id (s.store.exec s.now q cmd).1 (s.store.exec s.now q cmd).2) where
  requests p id' cmd' hmem := by
    obtain ⟨hlt, hown⟩ := h.requests p id' cmd' (List.mem_of_mem_eraseIdx hmem)
    exact ⟨hlt, own_append hown⟩
  replies p id' reply hmem := by
    rcases List.mem_append.mp hmem with hold | hnew
    · exact h.replies p id' reply hold
    · cases List.mem_singleton.mp hnew
      exact (h.requests q id cmd hreq).1
  found p id' node r hmem := by
    rcases List.mem_append.mp hmem with hold | hnew
    · exact List.mem_append_left _ (h.found p id' node r hold)
    · have heq := List.mem_singleton.mp hnew
      simp only [Prod.mk.injEq] at heq
      exact List.mem_append_left _ (h.found_exec heq.2.2.symm)
  entry e he := by
    obtain ⟨hstore, -, -⟩ | ⟨hwrite, -⟩ | ⟨-, -, -, hexec⟩ := exec_cases s.store s.now q cmd
    · rw [Sys.ran, hstore] at he
      exact ⟨List.mem_append_left _ (h.entry e he).1, (h.entry e he).2⟩
    · simp only [Sys.ran, hwrite, Store.write, Option.some.injEq] at he
      subst he
      exact ⟨List.mem_append_right _ (by rw [hwrite]; exact List.mem_singleton_self _),
        Int.le_refl _⟩
    · rw [Sys.ran, hexec] at he
      cases he
  bound q' r hr := by
    rcases writes_exec hr with hold | ⟨-, rfl, hwrite⟩
    · exact Nat.le_trans (h.bound q' r hold) revision_exec_le
    · simp only [Sys.ran, hwrite, Store.write]
      exact Nat.le_refl _
  unique q₁ q₂ r h₁ h₂ := by
    rcases writes_exec h₁ with hold₁ | ⟨rfl, hr₁, -⟩
    · rcases writes_exec h₂ with hold₂ | ⟨rfl, hr₂, -⟩
      · exact h.unique q₁ q₂ r hold₁ hold₂
      · have := h.bound q₁ r hold₁
        omega
    · rcases writes_exec h₂ with hold₂ | ⟨rfl, -, -⟩
      · have := h.bound q₂ r hold₂
        omega
      · rfl
  provider p := by
    have hok := h.provider p
    refine ⟨fun hrun rev until_ hrel => ?_,
      fun task id' cmd' hstage => own_append (hok.own task id' cmd' hstage), hok.resign, hok.delete,
        hok.canceled, hok.stopped, hok.last, hok.stage, hok.token⟩
    rcases relies_exec hrel with hold | ⟨written, rfl, hreply, rfl⟩
    · exact (hok.good hrun rev until_ hold).exec h hreq
    · obtain ⟨hwrite, rfl, rfl⟩ := exec_wrote hreply
      refine ⟨holds_write h hwrite, fun id' d hd => ?_⟩
      have := h.bound q d (h.requests q id' _ (List.mem_of_mem_eraseIdx hd)).2
      omega

end Exec

/-! ## A provider moves -/

theorem Inv.move (h : Inv s) (sent : List (Nat × Nat × Command)) {nextId : Nat}
    (hid : s.nextId ≤ nextId) (hsent : ∀ q id cmd, (q, id, cmd) ∈ sent → q = p ∧ id < nextId ∧
    Own s.writes p cmd ∧
      ∀ d, cmd = .delete d → x.isRunning = false)
    (hok : ProviderOk s p x) :
    Inv { s.set p x with
      nextId := nextId
      requests := s.requests ++ sent } := by
  have hgood : ∀ q rev until_, (q = p → x.isRunning = true) → Good s q rev until_ →
      Good { s.set p x with
        nextId := nextId
        requests := s.requests ++ sent } q rev until_ := by
    intro q rev until_ hrun hg
    refine ⟨hg.holds, fun id d hd => ?_⟩
    rcases List.mem_append.mp hd with hold | hnew
    · exact hg.deletes id d hold
    · obtain ⟨rfl, -, -, hdel⟩ := hsent q id _ hnew
      have := hdel d rfl
      rw [hrun rfl] at this
      cases this
  refine { h with
    requests := fun q id cmd hmem => ?_
    replies := fun q id reply hmem => Nat.lt_of_lt_of_le (h.replies q id reply hmem) hid
    provider := forall_update (Q := fun q (y : Provider) => ProviderOk _ q y) ?_ fun q hq => ?_ }
  · rcases List.mem_append.mp hmem with hold | hnew
    · exact ⟨Nat.lt_of_lt_of_le (h.requests q id cmd hold).1 hid, (h.requests q id cmd hold).2⟩
    · obtain ⟨rfl, hlt, hown, -⟩ := hsent q id cmd hnew
      exact ⟨hlt, hown⟩
  · exact { hok with
      good := fun hrun rev until_ hrel => hgood p rev until_ (fun _ => hrun)
        (hok.good hrun rev until_ hrel) }
  · have hq' := h.provider q
    exact { hq' with
      good := fun hrun rev until_ hrel => hgood q rev until_ (fun heq => absurd heq hq)
        (hq'.good hrun rev until_ hrel) }

theorem Inv.set (h : Inv s) (hok : ProviderOk s p x) : Inv (s.set p x) := by
  have hmove := h.move [] (Nat.le_refl s.nextId) (by simp) hok
  rw [List.append_nil] at hmove
  exact hmove

theorem ProviderOk.goto (h : ProviderOk s p x) {stage : Stage}
    (hcall : ∀ task id cmd, stage = .calling task id cmd →
      Own s.writes p cmd ∧ (task = .resign → x.isRunning = false) ∧
        (∀ d, cmd = .delete d → x.isRunning = false) ∧
      ∀ reply, (p, id, reply) ∉ s.replies)
    (hconfirmed : ∀ revision written, stage = .confirmed revision written → x.isRunning = true →
      Good s p revision (written + defaultBucketKeysTTL))
    (hstamped : ∀ revision at_, stage = .stamped revision at_ →
      (x.isRunning = true → Good s p revision (at_ + x.lease)) ∧ at_ ≤ s.now ∧
        ∀ t, x.lastRenewOK = some t → t ≤ at_)
    (hsetting : stage ≠ .setting true) (hstored : ∀ revision at_, stage ≠ .stored revision at_)
    (hstopped : x.isRunning = false → x.stopping = false → stage = .off) :
    ProviderOk s p { x with stage := stage } where
  good hrun rev until_ hrel := by
    cases hrel with
    | reply hstage hreply => exact absurd hreply ((hcall _ _ _ hstage).2.2.2 _)
    | confirmed hstage => exact hconfirmed _ _ hstage hrun
    | stamped hstage => exact (hstamped _ _ hstage).1 hrun
    | stored hstage => exact absurd hstage (hstored _ _)
    | leader hleader hlast =>
      exact h.good hrun _ _ (.leader (.inl (hleader.resolve_right hsetting)) hlast)
  own task id cmd hstage := (hcall task id cmd hstage).1
  resign id cmd hstage := (hcall _ id cmd hstage).2.1 rfl
  delete task id d hstage := (hcall task id _ hstage).2.2.1 d rfl
  canceled := h.canceled
  stopped hrun hstop := ⟨hstopped hrun hstop, (h.stopped hrun hstop).2⟩
  last := h.last
  stage rev at_ hstage := (hstamped rev at_ (hstage.resolve_right (hstored rev at_))).2
  token rev at_ hstage := absurd hstage (hstored rev at_)

theorem ProviderOk.alive (h : ProviderOk s p x) (hstage : x.stage ≠ .off)
    (hrun : x.isRunning = false) :
    x.stopping ≠ false := fun hstop => hstage (h.stopped hrun hstop).1

theorem Inv.call (h : Inv s) {task : Task} {cmd : Command} (hstage : (s.providers p).stage ≠ .off)
    (hown : Own s.writes p cmd) (hresign : task = .resign → (s.providers p).isRunning = false)
    (hdelete : ∀ d, cmd = .delete d → (s.providers p).isRunning = false) :
    Inv (s.call p task cmd) := by
  have hok := h.provider p
  refine h.move [(p, s.nextId, cmd)] (Nat.le_succ _) (fun q id cmd' hmem => ?_)
    (hok.goto (fun task' id cmd' heq => ?_)
    nofun nofun nofun nofun fun hrun hstop => absurd hstop (hok.alive hstage hrun))
  · cases List.mem_singleton.mp hmem
    exact ⟨rfl, Nat.lt_succ_self _, hown, hdelete⟩
  · cases heq
    exact ⟨hown, hresign, hdelete, fun reply hmem => Nat.lt_irrefl _ (h.replies p _ reply hmem)⟩

theorem Inv.plain (h : Inv s) {stage : Stage}
    (hplain : stage = .off ∨ (stage = .idle ∨ stage = .setting false) ∧
    (s.providers p).stage ≠ .off) :
    Inv (s.goto p stage) := by
  have hok := h.provider p
  refine h.set (hok.goto ?_ ?_ ?_ ?_ ?_ fun hrun hstop => ?_)
  iterate 5 rcases hplain with rfl | ⟨rfl | rfl, -⟩ <;> exact nofun
  · rcases hplain with rfl | ⟨-, hne⟩
    · rfl
    · exact absurd hstop (hok.alive hne hrun)

theorem Inv.receive (h : Inv s) {task : Task} {id : Nat} {cmd : Command} {reply : Reply}
    {next : Next} (hstage : (s.providers p).stage = .calling task id cmd)
    (hreply : (p, id, reply) ∈ s.replies) (hnext : onReply p task cmd reply = some next) :
    Inv (s.follow p next) := by
  have hok := h.provider p
  have hne : (s.providers p).stage ≠ .off := by
    rw [hstage]
    exact nofun
  have hfound : ∀ node r, reply = .found node r → (node, r) ∈ s.writes := by
    rintro node r rfl
    exact h.found p id node r hreply
  have hconfirmed : ∀ r w, reply = .wrote r w → Inv (s.goto p (.confirmed r w)) := by
    rintro r w rfl
    refine h.set (hok.goto nofun (fun rev written heq hrun => ?_) nofun nofun nofun
      fun hrun hstop => absurd hstop (hok.alive hne hrun))
    cases heq
    exact hok.good hrun _ _ (.reply hstage hreply)
  have hset : Inv (s.goto p (.setting false)) := h.plain (.inr ⟨.inr rfl, hne⟩)
  have hoff : Inv (s.goto p .off) := h.plain (.inl rfl)
  have hcreate : Inv (s.call p .acquire .create) := h.call hne trivial nofun nofun
  unfold onReply at hnext
  split at hnext
  · cases hnext
    exact hconfirmed _ _ rfl
  · cases hnext
    exact h.call hne trivial nofun nofun
  · split at hnext <;> cases hnext
    · rename_i heq
      subst heq
      exact h.call hne (hfound _ _ rfl) nofun nofun
    · exact hset
  · cases hnext
    exact hset
  · cases hnext
    exact hconfirmed _ _ rfl
  · cases hnext
    exact hset
  · split at hnext <;> cases hnext
    · rename_i heq
      subst heq
      exact h.call hne (hfound _ _ rfl) nofun nofun
    · exact hset
  · cases hnext
    exact hcreate
  · cases hnext
    exact hconfirmed _ _ rfl
  · cases hnext
    exact hcreate
  · have hrun := hok.resign id _ hstage
    split at hnext <;> cases hnext
    · rename_i heq
      subst heq
      exact h.call hne (hfound _ _ rfl) (fun _ => hrun) fun _ _ => hrun
    · exact hoff
  · cases hnext
    exact hoff
  · cases hnext
    exact hoff
  · cases hnext

theorem Inv.fail (h : Inv s) {task : Task} {id : Nat} {cmd : Command} (canceled : Bool)
    (hstage : (s.providers p).stage = .calling task id cmd) :
    Inv (s.follow p (onError canceled task)) := by
  have hne : (s.providers p).stage ≠ .off := by
    rw [hstage]
    exact nofun
  cases task with
  | acquire => exact h.plain (.inr ⟨.inr rfl, hne⟩)
  | renew =>
    cases canceled with
    | true => exact h.plain (.inr ⟨.inl rfl, hne⟩)
    | false => exact h.call hne trivial nofun nofun
  | resign => exact h.plain (.inl rfl)

/-! ## Steps -/

/-- The lease, counted from now, ends before the key whose write is confirmed. -/
def Sys.inTime (s : Sys) (p : Nat) : Bool :=
  match (s.providers p).stage with
  | .confirmed _ written => s.now + (s.providers p).lease ≤ written + defaultBucketKeysTTL
  | _ => true

/-- The condition on a step: a confirmation is recorded while enough of the key's lifetime is left
for the lease, and the context of a running election is not canceled except by `Stop`. -/
def Prompt (s : Sys) : Action → Prop
  | .stamp p => s.inTime p = true
  | .cancel _ => False
  | _ => True

instance (s : Sys) (a : Action) : Decidable (Prompt s a) :=
  match a with
  | .stamp p => inferInstanceAs (Decidable (s.inTime p = true))
  | .cancel _ => .isFalse id
  | .elapse _ | .exec _ | .start _ _ | .stop _ | .stopped _ | .watchFails _ | .acquire _
  | .renew _ | .resign _ | .resend _ | .receive _ _ | .fail _ _ | .storeToken _ | .storeTime _ | .setLeader _ =>
    .isTrue trivial

section

variable (h : Inv s)
include h

theorem Inv.elapse (d : Nat) : Inv { s with now := s.now + d } := { h with
  entry := fun e he => ⟨(h.entry e he).1, by have := (h.entry e he).2; simp only; omega⟩
  provider := fun p => { h.provider p with
    good := fun hrun rev until_ hrel => by
      have hgood := (h.provider p).good hrun rev until_ hrel
      exact ⟨fun hnow => hgood.holds (by simp only at hnow; omega), hgood.deletes⟩
    last := fun t ht => by have := (h.provider p).last t ht; simp only; omega
    stage := fun rev at_ hstage => by
      have := (h.provider p).stage rev at_ hstage
      exact ⟨by simp only; omega, this.2⟩ } }

theorem Inv.stamp {written : Int} (hstage : (s.providers p).stage = .confirmed revision written)
    (hprompt : s.now + (s.providers p).lease ≤ written + defaultBucketKeysTTL) :
    Inv (s.goto p (.stamped revision s.now)) := by
  have hok := h.provider p
  have hne : (s.providers p).stage ≠ .off := by
    rw [hstage]
    exact nofun
  refine h.set (hok.goto nofun nofun (fun rev at_ heq => ?_) nofun nofun
    fun hrun hstop => absurd hstop (hok.alive hne hrun))
  cases heq
  exact ⟨fun hrun => (hok.good hrun _ _ (.confirmed hstage)).mono hprompt, Int.le_refl _, hok.last⟩

theorem Inv.storeToken {at_ : Int} (hstage : (s.providers p).stage = .stamped revision at_) :
    Inv (s.set p { s.providers p with
      fenceToken := revision
      stage := .stored revision at_ }) := by
  have hok := h.provider p
  obtain ⟨hnow, hlast⟩ := hok.stage revision at_ (.inl hstage)
  refine h.set ⟨fun hrun rev until_ hrel => ?_, nofun, nofun, nofun, hok.canceled,
    fun hrun hstop => ?_, hok.last, fun rev at' heq => ?_, fun rev at' heq => by cases heq; rfl⟩
  · have hgood := hok.good hrun _ _ (.stamped hstage)
    cases hrel with
    | reply hs => cases hs
    | confirmed hs => cases hs
    | stamped hs => cases hs
    | stored hs =>
      cases hs
      exact hgood
    | leader hleader ht =>
      -- the lease still counts from the time before
      have hle := hlast _ ht
      exact hgood.mono (by simp only [Provider.lease]; omega)
  · exact absurd hstop (hok.alive (by rw [hstage]; exact nofun) hrun)
  · rcases heq with heq | heq <;> cases heq
    exact ⟨hnow, hlast⟩

theorem Inv.storeTime {at_ : Int} (hstage : (s.providers p).stage = .stored revision at_) :
    Inv (s.set p { s.providers p with
      lastRenewOK := some at_
      stage := .setting true }) := by
  have hok := h.provider p
  obtain ⟨hnow, -⟩ := hok.stage revision at_ (.inr hstage)
  refine h.set ⟨fun hrun rev until_ hrel => ?_, nofun, nofun, nofun, hok.canceled,
    fun hrun hstop => ?_, fun t ht => ?_, fun rev at' heq => ?_, nofun⟩
  · obtain ⟨rfl, -, last, ht, rfl⟩ := hrel.recorded (.inr ⟨true, rfl⟩)
    cases ht
    simp only [hok.token revision at_ hstage]
    exact hok.good hrun _ _ (.stored hstage)
  · exact absurd hstop (hok.alive (by rw [hstage]; exact nofun) hrun)
  · cases ht
    exact hnow
  · rcases heq with heq | heq <;> cases heq

theorem Inv.setLeader {leader : Bool} (hstage : (s.providers p).stage = .setting leader) :
    Inv (s.set p { s.providers p with
      isLeader := leader
      stage := .idle }) := by
  have hok := h.provider p
  refine h.set ⟨fun hrun rev until_ hrel => ?_, nofun, nofun, nofun, hok.canceled,
    fun hrun hstop => ?_, hok.last, fun rev at' heq => ?_, nofun⟩
  · obtain ⟨rfl, hleader, last, ht, rfl⟩ := hrel.recorded (.inl rfl)
    have hset : leader = true := hleader.resolve_right nofun
    rw [hset] at hstage
    exact hok.good hrun _ _ (.leader (.inr hstage) ht)
  · exact absurd hstop (hok.alive (by rw [hstage]; exact nofun) hrun)
  · rcases heq with heq | heq <;> cases heq

/-! ### Start and Stop -/

theorem Inv.start (hrun : (s.providers p).isRunning = false)
    (hstop : (s.providers p).stopping = false) (ttl : Int) : Inv (s.set p { s.providers p with
      ttl := ttl
      isRunning := true
      canceled := false
      stage := .idle }) := by
  have hok := h.provider p
  have hleader := (hok.stopped hrun hstop).2
  refine h.set ⟨fun _ rev until_ hrel => ?_, nofun, nofun, nofun, nofun, nofun, hok.last,
    fun rev at' heq => ?_, nofun⟩
  · obtain ⟨-, hl, -⟩ := hrel.recorded (.inl rfl)
    have hl := hl.resolve_right nofun
    simp only [hleader] at hl
    cases hl
  · rcases heq with heq | heq <;> cases heq

theorem Inv.stop : Inv (s.set p { s.providers p with
    isRunning := false
    canceled := true
    stopping := true }) :=
  h.set { h.provider p with
    good := nofun
    resign := fun _ _ _ => rfl
    delete := fun _ _ _ _ => rfl
    canceled := fun _ => rfl
    stopped := nofun }

theorem Inv.stopped (hstage : (s.providers p).stage = .off) :
    Inv (s.set p { s.providers p with
    isLeader := false
    stopping := false }) := by
  have hok := h.provider p
  refine h.set { hok with
    good := fun hrun rev until_ hrel => ?_
    stopped := fun _ _ => ⟨hstage, rfl⟩ }
  cases hrel with
  | reply hs => exact hok.good hrun _ _ (.reply hs ‹_›)
  | confirmed hs => exact hok.good hrun _ _ (.confirmed hs)
  | stamped hs => exact hok.good hrun _ _ (.stamped hs)
  | stored hs => exact hok.good hrun _ _ (.stored hs)
  | leader hl ht =>
    rcases hl with hl | hl
    · cases hl
    · rw [hstage] at hl
      cases hl

theorem inv_step {a : Action} (hprompt : Prompt s a) (hstep : s.step a = some s') :
    Inv s' := by
  cases a with
  | elapse d =>
    cases hstep
    exact h.elapse d
  | exec i =>
    simp only [Sys.step] at hstep
    split at hstep <;> cases hstep
    rename_i hreq
    exact h.exec (List.mem_of_getElem? hreq)
  | start p ttl =>
    simp only [Sys.step] at hstep
    split at hstep <;> cases hstep
    rename_i hcond
    simp only [Bool.and_eq_true, Bool.not_eq_true', decide_eq_true_eq] at hcond
    exact h.start hcond.1.1 hcond.1.2 ttl
  | stop p =>
    simp only [Sys.step] at hstep
    split at hstep <;> cases hstep
    exact h.stop
  | stopped p =>
    simp only [Sys.step] at hstep
    split at hstep <;> cases hstep
    rename_i hcond
    simp only [Bool.and_eq_true, decide_eq_true_eq] at hcond
    exact h.stopped hcond.2
  | cancel p => exact absurd hprompt id
  | watchFails p =>
    simp only [Sys.step] at hstep
    split at hstep <;> cases hstep
    exact h.plain (.inl rfl)
  | acquire p =>
    simp only [Sys.step] at hstep
    split at hstep <;> cases hstep
    rename_i hstage
    exact h.call (by rw [hstage]; exact nofun) trivial nofun nofun
  | renew p =>
    simp only [Sys.step] at hstep
    split at hstep <;> cases hstep
    rename_i hcond
    exact h.call (by rw [hcond.1]; exact nofun) trivial nofun nofun
  | resign p =>
    simp only [Sys.step] at hstep
    split at hstep <;> cases hstep
    rename_i hcond
    exact h.call (by rw [hcond.1]; exact nofun) trivial
      (fun _ => (h.provider p).canceled hcond.2) nofun
  | resend p =>
    simp only [Sys.step] at hstep
    split at hstep <;> cases hstep
    rename_i task id cmd hstage
    have hok := h.provider p
    refine h.call (by rw [hstage]; exact nofun) (hok.own task id cmd hstage) (fun htask => ?_)
      fun d hd => ?_
    · subst htask
      exact hok.resign id cmd hstage
    · subst hd
      exact hok.delete task id d hstage
  | receive p reply =>
    simp only [Sys.step] at hstep
    split at hstep
    · split at hstep
      · rename_i task id cmd hstage hreply
        obtain ⟨next, hnext, rfl⟩ := Option.map_eq_some_iff.mp hstep
        exact h.receive hstage hreply hnext
      · cases hstep
    · cases hstep
  | fail p canceled =>
    simp only [Sys.step] at hstep
    split at hstep
    · split at hstep <;> cases hstep
      exact h.fail canceled ‹_›
    · cases hstep
  | stamp p =>
    simp only [Sys.step] at hstep
    split at hstep <;> cases hstep
    rename_i hstage
    refine h.stamp hstage ?_
    simpa [Prompt, Sys.inTime, hstage] using hprompt
  | storeToken p =>
    simp only [Sys.step] at hstep
    split at hstep <;> cases hstep
    exact h.storeToken ‹_›
  | storeTime p =>
    simp only [Sys.step] at hstep
    split at hstep <;> cases hstep
    exact h.storeTime ‹_›
  | setLeader p =>
    simp only [Sys.step] at hstep
    split at hstep <;> cases hstep
    exact h.setLeader ‹_›

end

theorem inv_initial : Inv Sys.initial where
  requests _ _ _ hmem := absurd hmem List.not_mem_nil
  replies _ _ _ hmem := absurd hmem List.not_mem_nil
  found _ _ _ _ hmem := absurd hmem List.not_mem_nil
  entry _ he := by cases he
  bound _ _ hmem := absurd hmem List.not_mem_nil
  unique _ _ _ hmem := absurd hmem List.not_mem_nil
  provider _ := ⟨nofun, nofun, nofun, nofun, nofun, fun _ _ => ⟨rfl, rfl⟩, nofun,
    fun _ _ heq => (by rcases heq with heq | heq <;> cases heq), nofun⟩

/-! ## The result -/

/-- A provider that would say it is the leader holds the key. -/
theorem Inv.leader (h : Inv s) (hleader : s.isLeader p = true) :
    ∃ e, s.store.entry = some e ∧ e.node = p ∧
      ∀ q r, (q, r) ∈ s.writes → (s.providers p).fenceToken < r → q = p := by
  simp only [Sys.isLeader, Provider.isLeaderAt, Bool.and_eq_true] at hleader
  obtain ⟨⟨hrun, hl⟩, htime⟩ := hleader
  split at htime
  · cases htime
  · rename_i last hlast
    have hgood := (h.provider p).good hrun _ _ (.leader (.inl hl) hlast)
    simp only [decide_eq_true_eq] at htime
    obtain ⟨e, he, hnode, -, -, hwrites⟩ := hgood.holds (by omega)
    exact ⟨e, he, hnode, hwrites⟩

/-- In every run whose steps are prompt, at every instant: two providers are not both leaders, and
no provider's fencing token is older than a write by another. -/
theorem leader_unique (as : List Action) (hprompt : Sys.machine.Along Prompt Sys.initial as)
    (hrun : Sys.machine.run Sys.initial as = some s) :
    (∀ p q, s.isLeader p = true → s.isLeader q = true → p = q) ∧
    ∀ p r q, (p, r) ∈ s.writes → q ≠ p → s.fence q ≠ 0 → r ≤ s.fence q := by
  have hinv : Inv s :=
    Machine.invariant_run Prompt Inv (fun _ _ _ hi hok hstep => inv_step hi hok hstep) inv_initial
    hprompt hrun
  refine ⟨fun p q hp hq => ?_, fun p r q hmem hne hfence => ?_⟩
  · obtain ⟨e, he, rfl, -⟩ := hinv.leader hp
    obtain ⟨e', he', rfl, -⟩ := hinv.leader hq
    rw [he] at he'
    cases he'
    rfl
  · simp only [Sys.fence, Provider.fenceAt] at hfence ⊢
    split at hfence
    · rename_i hleader
      obtain ⟨e, -, -, hwrites⟩ := hinv.leader (p := q) hleader
      rw [if_pos hleader]
      by_contra hlt
      exact hne (hwrites p r hmem (Nat.lt_of_not_le hlt)).symm
    · exact absurd rfl hfence

def acquireNow (p revision : Nat) (written : Int) (d : Nat) : List Action :=
  [.acquire p, .exec 0, .elapse d, .receive p (.wrote revision written), .stamp p, .storeToken p,
    .storeTime p, .setLeader p]

/-- A lease of 5 s is recorded 2 s after its write; it ends before the key, which the next provider
then creates. -/
def takenOver : List Action :=
  [.start 0 5000000000, .start 1 5000000000] ++ acquireNow 0 1 0 2000000000 ++
    [.elapse 8000000000] ++
    acquireNow 1 2 10000000000 0

theorem leader_unique_takenOver : ∃ s, Sys.machine.run Sys.initial takenOver = some s ∧
    (∀ p q, s.isLeader p = true → s.isLeader q = true → p = q) ∧
    (∀ p r q, (p, r) ∈ s.writes → q ≠ p → s.fence q ≠ 0 → r ≤ s.fence q) ∧
    s.isLeader 0 = false ∧ s.fence 1 = 2 := by
  have hrun : (Sys.machine.run Sys.initial takenOver).map (fun s => (s.isLeader 0, s.fence 1)) =
      some (false, 2) := by
    decide +kernel
  obtain ⟨s, hs, hvalues⟩ := Option.map_eq_some_iff.mp hrun
  obtain ⟨hunique, hfence⟩ := leader_unique takenOver (by decide +kernel) hs
  exact ⟨s, hs, hunique, hfence, (Prod.mk.inj hvalues).1, (Prod.mk.inj hvalues).2⟩

def lateRecord : List Action :=
  [.start 0 10000000000, .start 1 10000000000] ++ acquireNow 0 1 0 1000000000 ++
    [.elapse 9000000000] ++
    acquireNow 1 2 10000000000 0

/-- The context of the leader is canceled without `Stop`: it deletes the key, and still counts as
the leader. -/
def canceledLeader : List Action :=
  [.start 0 5000000000, .start 1 5000000000] ++ acquireNow 0 1 0 0 ++
    [.cancel 0, .resign 0, .exec 0, .receive 0 (.found 0 1), .exec 0, .receive 0 .deleted] ++
    acquireNow 1 3 0 0

theorem two_leaders :
    (∃ s, Sys.machine.run Sys.initial lateRecord = some s ∧ s.isLeader 0 = true ∧
    s.isLeader 1 = true ∧
      s.writes = [(0, 1), (1, 2)] ∧ s.fence 0 = 1) ∧
    ∃ s, Sys.machine.run Sys.initial canceledLeader = some s ∧ s.isLeader 0 = true ∧
      s.isLeader 1 = true ∧
      s.writes = [(0, 1), (1, 3)] ∧ s.fence 0 = 1 := by
  have hlate : (Sys.machine.run Sys.initial lateRecord).map
      (fun s => (s.isLeader 0, s.isLeader 1, s.writes, s.fence 0)) =
        some (true, true, [(0, 1), (1, 2)], 1) := by
    decide +kernel
  have hcanceled : (Sys.machine.run Sys.initial canceledLeader).map
      (fun s => (s.isLeader 0, s.isLeader 1, s.writes, s.fence 0)) =
        some (true, true, [(0, 1), (1, 3)], 1) := by
    decide +kernel
  obtain ⟨s, hs, hvalues⟩ := Option.map_eq_some_iff.mp hlate
  obtain ⟨s', hs', hvalues'⟩ := Option.map_eq_some_iff.mp hcanceled
  simp only [Prod.mk.injEq] at hvalues hvalues'
  exact ⟨⟨s, hs, hvalues⟩, s', hs', hvalues'⟩

end GoAtlas.Leadelect
