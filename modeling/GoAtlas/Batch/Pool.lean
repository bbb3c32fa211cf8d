import GoAtlas.Batch.Process

/-!
# Runs of the pool

Where the items and the errors of a pool are, whatever its workers have done so far, and that its
runs end: every item is with one worker at most until it is back, and the first error that is
recorded stays.
-/

namespace GoAtlas.Batch

open Lib Function

variable {ε ρ : Type}

/-! ## The items of a pool -/

structure Items (n next : Nat) (workers : Nat → Pc ε) (l : Ledger ε ρ) : Prop where
  sound : l.Sound
  held : ∀ {w i}, (workers w).holds = some i → i < next ∧ i < n ∧ l.returned i = none
  unique : ∀ {w w' i}, (workers w).holds = some i → (workers w').holds = some i → w = w'
  claimed : ∀ {w i}, workers w = .claimed i → i ∉ l.passed
  running : ∀ {w i}, workers w = .running i → i ∈ l.passed
  passed : ∀ {i}, i ∈ l.passed → i < next ∧ i < n
  settled : ∀ {i}, i < next → i < n → (l.returned i).isSome ∨ ∃ w, (workers w).holds = some i

section Items

variable {n next : Nat} {workers : Nat → Pc ε} {l : Ledger ε ρ} {w i : Nat} {pc : Pc ε}

theorem holds_update {w' j : Nat} (h : (update workers w pc w').holds = some j) :
    (w' = w ∧ pc.holds = some j) ∨ (w' ≠ w ∧ (workers w').holds = some j) := by
  by_cases hw : w' = w
  · subst hw
    rw [update_self] at h
    exact .inl ⟨rfl, h⟩
  · rw [update_of_ne hw] at h
    exact .inr ⟨hw, h⟩

theorem exists_holds_update {j : Nat} (h : ∃ w', (workers w').holds = some j)
    (hw : (workers w).holds ≠ some j) :
    ∃ w', (update workers w pc w').holds = some j := by
  obtain ⟨w', hw'⟩ := h
  have hne : w' ≠ w := by
    rintro rfl
    exact hw hw'
  exact ⟨w', by rwa [update_of_ne hne]⟩

variable (h : Items n next workers l)
include h

theorem Items.idle (hw : (workers w).holds = none) (hpc : pc.holds = none) :
    Items n next (update workers w pc) l := by
  have hkeeps : ∀ {w' j}, (update workers w pc w').holds = some j →
      (workers w').holds = some j := by
    intro w' j hj
    rcases holds_update hj with ⟨-, hj⟩ | ⟨-, hj⟩
    · rw [hpc] at hj
      cases hj
    · exact hj
  have hsame : ∀ {w' pc'}, update workers w pc w' = pc' → pc'.holds.isSome →
      workers w' = pc' := by
    intro w' pc' hw' hsome
    by_cases hww : w' = w
    · subst hww
      rw [update_self] at hw'
      rw [← hw', hpc] at hsome
      cases hsome
    · rwa [update_of_ne hww] at hw'
  refine ⟨h.sound, fun hj => h.held (hkeeps hj), fun hj hj' => h.unique (hkeeps hj) (hkeeps hj'),
    fun hj => h.claimed (hsame hj rfl), fun hj => h.running (hsame hj rfl), h.passed, ?_⟩
  intro j hnext hn
  rcases h.settled hnext hn with hret | hheld
  · exact .inl hret
  · exact .inr (exists_holds_update hheld (by simp [hw]))

theorem Items.exhausted (hn : n ≤ next) :
    Items n (next + 1) workers l := by
  refine ⟨h.sound, fun hj => ?_, h.unique, h.claimed, h.running, fun hj => ?_,
    fun _ hj => h.settled (by omega) hj⟩
  · obtain ⟨hnext, hrest⟩ := h.held hj
    exact ⟨by omega, hrest⟩
  · obtain ⟨hnext, hlt⟩ := h.passed hj
    exact ⟨by omega, hlt⟩

theorem Items.claim (hw : (workers w).holds = none) (hn : next < n) :
    Items n (next + 1) (update workers w (.claimed next)) l := by
  have hnew : next ∉ l.passed := fun hmem => absurd (h.passed hmem).1 (lt_irrefl _)
  have hback : l.returned next = none := by
    by_contra hsome
    exact hnew (h.sound.passed next (Option.isSome_iff_ne_none.mpr hsome))
  have hfree : ∀ w', (workers w').holds ≠ some next :=
    fun w' hj => absurd (h.held hj).1 (lt_irrefl _)
  refine ⟨h.sound, fun hj => ?_, fun hj hj' => ?_, fun {w' j} hj => ?_, fun {w' j} hj => ?_,
    fun hj => ?_, fun {j} hnext hlt => ?_⟩
  · rcases holds_update hj with ⟨-, hj⟩ | ⟨-, hj⟩
    · cases hj
      exact ⟨by omega, hn, hback⟩
    · obtain ⟨hlt, hrest⟩ := h.held hj
      exact ⟨by omega, hrest⟩
  · rcases holds_update hj with ⟨hw₁, hj⟩ | ⟨-, hj⟩ <;> rcases holds_update hj'
      with ⟨hw₂, hj'⟩ | ⟨-, hj'⟩
    · rw [hw₁, hw₂]
    · cases hj
      exact absurd hj' (hfree _)
    · cases hj'
      exact absurd hj (hfree _)
    · exact h.unique hj hj'
  · by_cases hw' : w' = w
    · subst hw'
      rw [update_self] at hj
      cases hj
      exact hnew
    · rw [update_of_ne hw'] at hj
      exact h.claimed hj
  · by_cases hw' : w' = w
    · subst hw'
      rw [update_self] at hj
      cases hj
    · rw [update_of_ne hw'] at hj
      exact h.running hj
  · obtain ⟨hlt, hrest⟩ := h.passed hj
    exact ⟨by omega, hrest⟩
  · by_cases hj : j = next
    · exact .inr ⟨w, by rw [update_self, hj]; rfl⟩
    · rcases h.settled (by omega : j < next) hlt with hret | hheld
      · exact .inl hret
      · exact .inr (exists_holds_update hheld (by simp [hw]))

theorem Items.call (hw : workers w = .claimed i) :
    Items n next (update workers w (.running i)) (l.pass i) := by
  have hold : (workers w).holds = some i := by rw [hw]; rfl
  have hkeeps : ∀ {w' j}, (update workers w (.running i) w').holds = some j →
      (workers w').holds = some j := by
    intro w' j hj
    rcases holds_update hj with ⟨hww, hj⟩ | ⟨-, hj⟩
    · rw [hww, hold]
      exact hj
    · exact hj
  refine ⟨h.sound.pass (h.claimed hw), fun hj => h.held (hkeeps hj),
    fun hj hj' => h.unique (hkeeps hj) (hkeeps hj'), fun {w' j} hj => ?_, fun {w' j} hj =>
      ?_, fun {j} hj => ?_, fun {j} hnext hlt => ?_⟩
  · by_cases hw' : w' = w
    · subst hw'
      rw [update_self] at hj
      cases hj
    · rw [update_of_ne hw'] at hj
      rw [Ledger.mem_pass]
      rintro (hmem | rfl)
      · exact h.claimed hj hmem
      · exact hw' (h.unique (by rw [hj]; rfl) hold)
  · rw [Ledger.mem_pass]
    by_cases hw' : w' = w
    · subst hw'
      rw [update_self] at hj
      cases hj
      exact .inr rfl
    · rw [update_of_ne hw'] at hj
      exact .inl (h.running hj)
  · rcases Ledger.mem_pass.mp hj with hj | rfl
    · exact h.passed hj
    · obtain ⟨hnext, hlt, -⟩ := h.held hold
      exact ⟨hnext, hlt⟩
  · rcases h.settled hnext hlt with hret | ⟨w', hw'⟩
    · exact .inl hret
    · refine .inr ⟨w', ?_⟩
      by_cases hww : w' = w
      · subst hww
        rw [update_self]
        rw [hold] at hw'
        exact hw'
      · rwa [update_of_ne hww]

theorem Items.finish (hw : workers w = .running i) (hpc : pc.holds = none) (r : Except ε ρ) :
    Items n next (update workers w pc) (l.finish i r) := by
  have hold : (workers w).holds = some i := by rw [hw]; rfl
  have hkeeps : ∀ {w' j}, (update workers w pc w').holds = some j →
      (workers w').holds = some j ∧ j ≠ i ∧ update workers w pc w' = workers w' := by
    intro w' j hj
    rcases holds_update hj with ⟨-, hj⟩ | ⟨hne, hj⟩
    · rw [hpc] at hj
      cases hj
    · refine ⟨hj, ?_, update_of_ne hne ..⟩
      rintro rfl
      exact hne (h.unique hj hold)
  refine ⟨h.sound.finish (h.running hw) (h.held hold).2.2 r, fun hj => ?_, fun hj hj' => ?_,
    fun {w' j} hj => ?_, fun {w' j} hj => ?_, fun hj => ?_, fun {j} hnext hlt => ?_⟩
  · obtain ⟨hj, hne, -⟩ := hkeeps hj
    rw [Ledger.returned_finish, update_of_ne hne]
    exact h.held hj
  · exact h.unique (hkeeps hj).1 (hkeeps hj').1
  · obtain ⟨-, -, hsame⟩ := hkeeps (by rw [hj]; rfl)
    rw [Ledger.passed_finish]
    exact h.claimed (hsame ▸ hj)
  · obtain ⟨-, -, hsame⟩ := hkeeps (by rw [hj]; rfl)
    rw [Ledger.passed_finish]
    exact h.running (hsame ▸ hj)
  · rw [Ledger.passed_finish] at hj
    exact h.passed hj
  · rw [Ledger.returned_finish]
    by_cases hji : j = i
    · left
      rw [hji, update_self]
      rfl
    · rw [update_of_ne hji]
      rcases h.settled hnext hlt with hret | hheld
      · exact .inl hret
      · exact .inr (exists_holds_update hheld (by simpa [hold] using Ne.symm hji))

theorem Items.mem_passed (hidle : ∀ w, (workers w).holds = none) :
    (i ∈ l.passed ↔ i < min next n) ∧ ((l.returned i).isSome ↔ i ∈ l.passed) := by
  have hback : i < next → i < n → (l.returned i).isSome := by
    intro hnext hlt
    rcases h.settled hnext hlt with hret | ⟨w, hw⟩
    · exact hret
    · rw [hidle w] at hw
      cases hw
  have hmem : i ∈ l.passed ↔ i < min next n := by
    constructor
    · intro hi
      exact lt_min (h.passed hi).1 (h.passed hi).2
    · intro hi
      exact h.sound.passed i (hback (by omega) (by omega))
  refine ⟨hmem, h.sound.passed i, fun hi => ?_⟩
  exact hback (h.passed hi).1 (h.passed hi).2

end Items

/-! ## The errors of a pool -/

/-- Errors are recorded or about to be, and whatever stops the first worker shows at the end. -/
structure Errors (n : Nat) (s : State ε ρ) : Prop where
  recorded : ∀ {i err}, s.ledger.returned i = some (.error err) → s.firstErr.isSome ∨
    ∃ w err, s.workers w = .failed err
  failed : ∀ {w err}, s.workers w = .failed err → ∃ i, s.ledger.returned i = some (.error err)
  firstErr : ∀ {err}, s.firstErr = some err → ∃ i, s.ledger.returned i = some (.error err)
  cancelled : s.cancelled = true → s.firstErr.isSome
  stopped : s.workers 0 = .done → s.ctxErr.isSome ∨ s.firstErr.isSome ∨ n ≤ s.next

section Errors

variable {o : Options} {n : Nat} {s s' : State ε ρ} {w i : Nat} {pc : Pc ε}

theorem State.workers_goTo (w' : Nat) :
    (s.goTo w pc).workers w' = if w' = w then pc else s.workers w' := by
  unfold State.goTo
  exact update_apply ..

theorem Errors.quiet (h : Errors n s) (hw : ∀ err, s.workers w ≠ .failed err)
    (hpc : ∀ err, pc ≠ .failed err) (hdone : pc = .done → s.ctxErr.isSome ∨ s.firstErr.isSome ∨
    n ≤ s.next) : Errors n (s.goTo w pc) where
  recorded hret := by
    rcases h.recorded hret with hfirst | ⟨w', err, hw'⟩
    · exact .inl hfirst
    · refine .inr ⟨w', err, ?_⟩
      have hne : w' ≠ w := by
        rintro rfl
        exact hw err hw'
      rw [State.workers_goTo, if_neg hne, hw']
  failed {w' err} hw' := by
    rw [State.workers_goTo] at hw'
    split at hw'
    · exact absurd hw' (hpc err)
    · exact h.failed hw'
  firstErr := h.firstErr
  cancelled := h.cancelled
  stopped hw' := by
    rw [State.workers_goTo] at hw'
    split at hw'
    · exact hdone hw'
    · exact h.stopped hw'

theorem Errors.advance (h : Errors n s) : Errors n { s with next := s.next + 1 } :=
  ⟨h.recorded, h.failed, h.firstErr, h.cancelled,
    fun hw => (h.stopped hw).imp_right (.imp_right Nat.le_succ_of_le)⟩

theorem Errors.succeed (h : Errors n s) (hnone : s.ledger.returned i = none) (res : ρ) :
    Errors n { s with ledger := s.ledger.finish i (.ok res) } := by
  have hkept : ∀ {j err}, s.ledger.returned j = some (.error err) →
      (s.ledger.finish i (.ok res)).returned j = some (.error err) := by
    intro j err hj
    rw [Ledger.returned_finish, update_of_ne, hj]
    rintro rfl
    rw [hnone] at hj
    cases hj
  have hold : ∀ {j err}, (s.ledger.finish i (.ok res)).returned j = some (.error err) →
      s.ledger.returned j = some (.error err) := by
    intro j err hj
    rw [Ledger.returned_finish, update_apply] at hj
    split at hj
    · cases hj
    · exact hj
  exact ⟨fun hj => h.recorded (hold hj), fun hw => (h.failed hw).imp fun _ => hkept,
    fun hfirst => (h.firstErr hfirst).imp fun _ => hkept, h.cancelled, h.stopped⟩

theorem Errors.fail (h : Errors n s) (hw : s.workers w = .running i)
    (hnone : s.ledger.returned i = none) (err : ε) :
    Errors n ({ s with ledger := s.ledger.finish i (.error err) }.goTo w (.failed err)) := by
  have hkept : ∀ {j e}, s.ledger.returned j = some (.error e) →
      (s.ledger.finish i (.error err)).returned j = some (.error e) := by
    intro j e hj
    rw [Ledger.returned_finish, update_of_ne, hj]
    rintro rfl
    rw [hnone] at hj
    cases hj
  refine ⟨fun _ => .inr ⟨w, err, ?_⟩, fun {w' e} hw' => ?_,
    fun hfirst => (h.firstErr hfirst).imp fun _ => hkept, h.cancelled, fun hw' => ?_⟩
  · rw [State.workers_goTo, if_pos rfl]
  · rw [State.workers_goTo] at hw'
    split at hw'
    · cases hw'
      refine ⟨i, ?_⟩
      show (s.ledger.finish i (.error err)).returned i = _
      rw [Ledger.returned_finish, update_self]
    · exact (h.failed hw').imp fun _ => hkept
  · rw [State.workers_goTo] at hw'
    split at hw'
    · cases hw'
    · exact h.stopped hw'

theorem Errors.record (h : Errors n s) {err : ε} (hw : s.workers w = .failed err) :
    Errors n ((s.recordErr o err).goTo w .check) := by
  have hsome : (s.recordErr o err).firstErr.isSome := by
    unfold State.recordErr
    cases hfirst : s.firstErr <;> simp [hfirst]
  have hworkers : (s.recordErr o err).workers = s.workers := by
    unfold State.recordErr
    split <;> rfl
  have hledger : (s.recordErr o err).ledger = s.ledger := by
    unfold State.recordErr
    split <;> rfl
  refine ⟨fun _ => .inl hsome, fun {w' e} hw' => ?_, fun {e} hfirst => ?_, fun _ => hsome,
    fun _ => .inr (.inl hsome)⟩
  · show ∃ j, (s.recordErr o err).ledger.returned j = some (.error e)
    rw [State.workers_goTo, hworkers] at hw'
    rw [hledger]
    split at hw'
    · cases hw'
    · exact h.failed hw'
  · show ∃ j, (s.recordErr o err).ledger.returned j = some (.error e)
    change (s.recordErr o err).firstErr = some e at hfirst
    rw [hledger]
    unfold State.recordErr at hfirst
    split at hfirst
    · cases hfirst
      exact h.failed hw
    · exact h.firstErr hfirst

end Errors

/-! ## Runs of the pool -/

structure Inv (n : Nat) (s : State ε ρ) : Prop where
  items : Items n s.next s.workers s.ledger
  errors : Errors n s

section Runs

variable {o : Options} {n : Nat} {s s' : State ε ρ}

theorem Inv.move (h : Inv n s) {a : Act ε ρ} (hmove : Moves o n s a s') : Inv n s' := by
  obtain ⟨items, errors⟩ := h
  cases hmove with
  | cancel err hctx =>
    exact ⟨items, errors.recorded, errors.failed, errors.firstErr, errors.cancelled,
      fun _ => .inl rfl⟩
  | stop hw hdone =>
    refine ⟨items.idle (by rw [hw]; rfl) rfl, errors.quiet (by simp [hw]) (by simp) fun _ => ?_⟩
    rcases Bool.or_eq_true_iff.mp hdone with hctx | hcancelled
    · exact .inl hctx
    · exact .inr (.inl (errors.cancelled hcancelled))
  | proceed hw =>
    exact ⟨items.idle (by rw [hw]; rfl) rfl, errors.quiet (by simp [hw]) (by simp) (by simp)⟩
  | exhausted hw hn =>
    refine ⟨(items.exhausted hn).idle (by rw [hw]; rfl) rfl, errors.advance.quiet (by simp [hw])
      (by simp) fun _ => ?_⟩
    exact .inr (.inr (Nat.le_succ_of_le hn))
  | claim hw hn =>
    exact ⟨items.claim (by rw [hw]; rfl) hn, errors.advance.quiet (by simp [hw])
      (by simp) (by simp)⟩
  | @call w idx hw =>
    have hpass : Errors n { s with ledger := s.ledger.pass idx } :=
      ⟨errors.recorded, errors.failed, errors.firstErr, errors.cancelled, errors.stopped⟩
    exact ⟨items.call hw, hpass.quiet (by simp [hw]) (by simp) (by simp)⟩
  | succeed res hw =>
    have hnone := (items.held (by rw [hw]; rfl)).2.2
    exact ⟨items.finish hw rfl (.ok res), (errors.succeed hnone res).quiet (by simp [hw])
      (by simp) (by simp)⟩
  | fail err hw =>
    have hnone := (items.held (by rw [hw]; rfl)).2.2
    exact ⟨items.finish hw rfl (.error err), errors.fail hw hnone err⟩
  | @record w err hw =>
    have hrest : Items n (s.recordErr o err).next (s.recordErr o err).workers
        (s.recordErr o err).ledger := by
      unfold State.recordErr
      split
      · exact items
      · exact items
    refine ⟨hrest.idle ?_ rfl, errors.record hw⟩
    unfold State.recordErr
    split <;> rw [hw] <;> rfl

theorem inv_init [Inhabited ρ] (hn : n ≠ 0) : Inv n (init o n : State ε ρ) := by
  have hpc : ∀ w, (init o n : State ε ρ).workers w = .check ∨
      (init o n : State ε ρ).workers w = .done := by
    intro w
    unfold init
    dsimp only
    split
    · exact .inl rfl
    · exact .inr rfl
  have hheld : ∀ w i, ((init o n : State ε ρ).workers w).holds ≠ some i := by
    intro w i
    rcases hpc w with h | h <;> rw [h] <;> simp [Pc.holds]
  have hfirst : (init o n : State ε ρ).workers 0 = .check := by
    have hpos := getConcurrency_pos o
    unfold init poolSize
    dsimp only
    rw [if_pos (by omega)]
  constructor
  · refine ⟨.empty, fun h => absurd h (hheld _ _), fun h => absurd h (hheld _ _), fun {w i} h => ?_,
      fun {w i} h => ?_, fun h => ?_, fun h => absurd h (Nat.not_lt_zero _)⟩
    · exact absurd (by rw [h]; rfl) (hheld w i)
    · exact absurd (by rw [h]; rfl) (hheld w i)
    · cases h
  · refine ⟨nofun, fun {w err} h => ?_, nofun, nofun, fun h => ?_⟩
    · rcases hpc w with hw | hw <;> rw [hw] at h <;> cases h
    · rw [hfirst] at h
      cases h

theorem inv_run [Inhabited ρ] (hn : n ≠ 0) {as : List (Act ε ρ)}
    (hrun : (machine o n).run (init o n) as = some s) :
    Inv n s := by
  apply Machine.invariant_run (fun _ _ => True) (Inv n) _ (inv_init hn) _ hrun
  · intro s a s' h _ hstep
    exact h.move (moves_of_step hstep)
  · exact Machine.along_of_mem (fun _ _ _ => trivial) _

/-! ### Every run ends -/

def Pc.rank : Pc ε → Nat
  | .check => 2
  | .claim => 1
  | .claimed _ => 5
  | .running _ => 4
  | .failed _ => 3
  | .done => 0

def State.work (o : Options) (n : Nat) (s : State ε ρ) : Nat :=
  8 * (n - s.next) + ∑ w ∈ Finset.range (poolSize o n), (s.workers w).rank

def State.InPool (o : Options) (n : Nat) (s : State ε ρ) : Prop :=
  ∀ w, poolSize o n ≤ w → s.workers w = .done

theorem sum_rank_update {workers : Nat → Pc ε} {size w : Nat} (hw : w < size) (pc : Pc ε) :
    ∑ v ∈ Finset.range size, (update workers w pc v).rank + (workers w).rank =
      ∑ v ∈ Finset.range size, (workers v).rank + pc.rank := by
  have hmem : w ∈ Finset.range size := Finset.mem_range.mpr hw
  have hrest : ∑ v ∈ (Finset.range size).erase w, (update workers w pc v).rank =
      ∑ v ∈ (Finset.range size).erase w, (workers v).rank := by
    apply Finset.sum_congr rfl
    intro v hv
    rw [update_of_ne (Finset.ne_of_mem_erase hv)]
  rw [← Finset.add_sum_erase _ _ hmem, ← Finset.add_sum_erase _
    (fun v => (workers v).rank) hmem, hrest, update_self]
  omega

theorem State.InPool.goTo (h : s.InPool o n) {w : Nat} {pc : Pc ε} (hw : s.workers w = pc)
    (hpc : pc ≠ .done) (pc' : Pc ε) :
    (s.goTo w pc').InPool o n ∧ (s.goTo w pc').work o n + pc.rank = s.work o n + pc'.rank := by
  have hlt : w < poolSize o n := by
    by_contra hge
    rw [h w (by omega)] at hw
    exact hpc hw.symm
  constructor
  · intro v hv
    rw [State.workers_goTo, if_neg (by omega)]
    exact h v hv
  · have hsum := @sum_rank_update ε s.workers _ _ hlt pc'
    rw [hw] at hsum
    unfold State.work State.goTo
    dsimp only
    omega

theorem Moves.work {a : Act ε ρ} (hmove : Moves o n s a s') (h : s.InPool o n) :
    s'.InPool o n ∧ s'.work o n + a.isWorker.toNat ≤ s.work o n := by
  -- the counter only moves towards the end
  have hnext : ({ s with next := s.next + 1 } : State ε ρ).work o n + (if s.next < n then 8
      else 0) = s.work o n := by
    unfold State.work
    dsimp only
    split <;> omega
  cases hmove with
  | cancel err _ => exact ⟨h, le_refl _⟩
  | stop hw _ =>
    obtain ⟨hpool, hwork⟩ := h.goTo hw nofun .done
    exact ⟨hpool, by simp only [Pc.rank, Act.isWorker, Bool.toNat_true] at hwork ⊢; omega⟩
  | proceed hw =>
    obtain ⟨hpool, hwork⟩ := h.goTo hw nofun .claim
    exact ⟨hpool, by simp only [Pc.rank, Act.isWorker, Bool.toNat_true] at hwork ⊢; omega⟩
  | exhausted hw hn =>
    have h' : ({ s with next := s.next + 1 } : State ε ρ).InPool o n := h
    obtain ⟨hpool, hwork⟩ := h'.goTo hw nofun .done
    rw [if_neg (by omega)] at hnext
    exact ⟨hpool, by simp only [Pc.rank, Act.isWorker, Bool.toNat_true] at hwork ⊢; omega⟩
  | claim hw hn =>
    have h' : ({ s with next := s.next + 1 } : State ε ρ).InPool o n := h
    obtain ⟨hpool, hwork⟩ := h'.goTo hw nofun (.claimed s.next)
    rw [if_pos hn] at hnext
    exact ⟨hpool, by simp only [Pc.rank, Act.isWorker, Bool.toNat_true] at hwork ⊢; omega⟩
  | @call w idx hw =>
    have h' : ({ s with ledger := s.ledger.pass idx } : State ε ρ).InPool o n := h
    have hsame : ({ s with ledger := s.ledger.pass idx } : State ε ρ).work o n = s.work o n := rfl
    obtain ⟨hpool, hwork⟩ := h'.goTo hw nofun (.running idx)
    exact ⟨hpool, by simp only [Pc.rank, Act.isWorker, Bool.toNat_true] at hwork ⊢; omega⟩
  | @succeed w idx res hw =>
    have h' : ({ s with ledger := s.ledger.finish idx (.ok res) } : State ε ρ).InPool o n := h
    have hsame : ({ s with ledger := s.ledger.finish idx (.ok res) } : State ε ρ).work o n =
      s.work o n := rfl
    obtain ⟨hpool, hwork⟩ := h'.goTo hw nofun .check
    exact ⟨hpool, by simp only [Pc.rank, Act.isWorker, Bool.toNat_true] at hwork ⊢; omega⟩
  | @fail w idx err hw =>
    have h' : ({ s with ledger := s.ledger.finish idx (.error err) } : State ε ρ).InPool o n := h
    have hsame : ({ s with ledger := s.ledger.finish idx (.error err) } : State ε ρ).work o n =
      s.work o n := rfl
    obtain ⟨hpool, hwork⟩ := h'.goTo hw nofun (.failed err)
    exact ⟨hpool, by simp only [Pc.rank, Act.isWorker, Bool.toNat_true] at hwork ⊢; omega⟩
  | @record w err hw =>
    have hworkers : (s.recordErr o err).workers = s.workers := by
      unfold State.recordErr
      split <;> rfl
    have hsame : (s.recordErr o err).work o n = s.work o n := by
      unfold State.recordErr
      split <;> rfl
    have h' : (s.recordErr o err).InPool o n := by
      unfold State.InPool
      rw [hworkers]
      exact h
    obtain ⟨hpool, hwork⟩ := h'.goTo ((congrFun hworkers w).trans hw) nofun .check
    exact ⟨hpool, by simp only [Pc.rank, Act.isWorker, Bool.toNat_true] at hwork ⊢; omega⟩

theorem run_work {as : List (Act ε ρ)} (h : s.InPool o n)
    (hrun : (machine o n).run s as = some s') :
    s'.InPool o n ∧ s'.work o n + as.countP Act.isWorker ≤ s.work o n := by
  induction as generalizing s with
  | nil =>
    cases hrun
    exact ⟨h, le_refl _⟩
  | cons a as ih =>
    obtain ⟨t, hstep, hrest⟩ := Machine.run_cons.mp hrun
    obtain ⟨hpool, hwork⟩ := (moves_of_step hstep).work h
    obtain ⟨hend, hcount⟩ := ih hpool hrest
    refine ⟨hend, ?_⟩
    rw [List.countP_cons]
    cases ha : a.isWorker with
    | false => simp only [ha, Bool.toNat_false] at hwork; simp; omega
    | true => simp only [ha, Bool.toNat_true] at hwork; simp; omega

theorem exists_step [Inhabited ρ] {w : Nat} (hw : s.workers w ≠ .done) :
    ∃ (a : Act ε ρ) (s' : State ε ρ), a.isWorker = true ∧ step o n s a = some s' := by
  cases hpc : s.workers w with
  | check => exact ⟨.check w, _, rfl, by simp [step, hpc]; rfl⟩
  | claim => exact ⟨.claim w, _, rfl, by simp [step, hpc]; rfl⟩
  | claimed idx => exact ⟨.call w, _, rfl, by simp [step, hpc]; rfl⟩
  | running idx => exact ⟨.finish w (.ok default), _, rfl, by simp [step, hpc]; rfl⟩
  | failed err => exact ⟨.record w, _, rfl, by simp [step, hpc]; rfl⟩
  | done => exact absurd hpc hw

theorem inPool_init [Inhabited ρ] : (init o n : State ε ρ).InPool o n := by
  intro w hw
  unfold init
  dsimp only
  rw [if_neg (by omega)]

theorem work_init [Inhabited ρ] : (init o n : State ε ρ).work o n ≤ 8 * n + 2 * poolSize o n := by
  have hrank : ∀ w ∈ Finset.range (poolSize o n), ((init o n : State ε ρ).workers w).rank ≤ 2 := by
    intro w _
    unfold init
    dsimp only
    split <;> simp [Pc.rank]
  have hsum := Finset.sum_le_card_nsmul _ _ 2 hrank
  have hmul : poolSize o n • 2 = poolSize o n * 2 := rfl
  rw [Finset.card_range, hmul] at hsum
  unfold State.work
  have hzero : (init o n : State ε ρ).next = 0 := rfl
  omega

end Runs

end GoAtlas.Batch
