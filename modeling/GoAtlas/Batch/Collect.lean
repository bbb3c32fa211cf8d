import GoAtlas.Batch.Pool

/-!
# What a batch returns

How the pool and the run of the caller's goroutine end, and from it what `ProcessCollect` returns:
the results of the items that succeeded, in the order of the items, and an error just if some item
has no result.
-/

namespace GoAtlas.Batch

open Lib

variable {ε ρ : Type}

/-! ## How a batch ends -/

structure Outcome.Complete (n m : Nat) (x : Outcome ε ρ) : Prop where
  sound : x.ledger.Sound
  passed : ∀ i, i ∈ x.ledger.passed ↔ i < m
  returned : ∀ i, (x.ledger.returned i).isSome ↔ i ∈ x.ledger.passed
  err : x.err = none ↔ ∀ i < n, ∃ r, x.ledger.returned i = some (.ok r)

section Ends

variable [Inhabited ρ] {o : Options} {n : Nat}

theorem complete_of_done {as : List (Act ε ρ)} {s : State ε ρ} (hn : n ≠ 0)
    (hrun : (machine o n).run (init o n) as = some s) (hdone : ∀ w, s.workers w = .done) :
    (s.outcome n).Complete n (min s.next n) := by
  obtain ⟨items, errors⟩ := inv_run hn hrun
  have hidle : ∀ w, (s.workers w).holds = none := fun w => by rw [hdone w]; rfl
  have hrecorded : ∀ {i err}, s.ledger.returned i = some (.error err) → s.firstErr.isSome := by
    intro i err hret
    rcases errors.recorded hret with hfirst | ⟨w, err', hw⟩
    · exact hfirst
    · rw [hdone w] at hw
      cases hw
  refine ⟨items.sound, fun i => (items.mem_passed hidle).1, fun i => (items.mem_passed hidle).2, ?_⟩
  show (if s.firstErr.isNone && s.next < n then s.ctxErr else s.firstErr) = none ↔
    ∀ i < n, ∃ r, s.ledger.returned i = some (.ok r)
  cases hfirst : s.firstErr with
  | some err =>
    -- the error came back for an item, so not all items are fine
    simp only [Option.isNone_some, Bool.false_and, Bool.false_eq_true, if_false,
      reduceCtorEq, false_iff]
    intro hall
    obtain ⟨i, hi⟩ := errors.firstErr hfirst
    have hlt := (items.passed (items.sound.passed i (by rw [hi]; rfl))).2
    obtain ⟨r, hr⟩ := hall i hlt
    rw [hi] at hr
    cases hr
  | none =>
    by_cases hnext : s.next < n
    · -- the first worker stopped before the end, so the context has ended
      have hctx : s.ctxErr.isSome := by
        rcases errors.stopped (hdone 0) with hctx | herr | hle
        · exact hctx
        · rw [hfirst] at herr
          cases herr
        · omega
      simp only [Option.isNone_none, hnext, decide_true, Bool.and_self, if_true]
      constructor
      · intro hnone
        rw [hnone] at hctx
        cases hctx
      · intro hall
        obtain ⟨r, hr⟩ := hall s.next hnext
        have hlt := (items.passed (items.sound.passed s.next (by rw [hr]; rfl))).1
        omega
    · simp only [hnext, decide_false, Bool.and_false, Bool.false_eq_true, if_false, true_iff]
      intro i hi
      have hback :=
        (items.mem_passed hidle).2.mpr
          ((items.mem_passed hidle).1.mpr (by omega : i < min s.next n))
      obtain ⟨r, hr⟩ := Option.isSome_iff_exists.mp hback
      cases r with
      | ok res => exact ⟨res, hr⟩
      | error err =>
        have herr := hrecorded hr
        rw [hfirst] at herr
        cases herr

omit [Inhabited ρ] in
theorem Outcome.Complete.next {idx : Nat} {x : Outcome ε ρ} (h : x.Complete idx idx)
    (r : Except ε ρ) (err : Option ε) (herr : err = none ↔ x.err = none ∧ ∃ res, r = .ok res) :
    (⟨(x.ledger.pass idx).finish idx r, err⟩ : Outcome ε ρ).Complete (idx + 1) (idx + 1) := by
  have hnew : idx ∉ x.ledger.passed := fun hmem => absurd ((h.passed idx).mp hmem) (lt_irrefl _)
  have hnone : x.ledger.returned idx = none := by
    by_contra hsome
    exact hnew ((h.returned idx).mp (Option.isSome_iff_ne_none.mpr hsome))
  refine ⟨(h.sound.pass hnew).finish (Ledger.mem_pass.mpr (.inr rfl)) hnone r, fun i => ?_,
    fun i => ?_, ?_⟩
  · dsimp only
    rw [Ledger.passed_finish, Ledger.mem_pass, h.passed]
    omega
  · dsimp only
    rw [Ledger.passed_finish, Ledger.mem_pass, Ledger.returned_finish, Function.update_apply]
    split
    · simp [*]
    · rename_i hne
      simpa [hne, Ledger.pass] using h.returned i
  · dsimp only
    rw [herr, h.err, Ledger.returned_finish]
    constructor
    · rintro ⟨hall, res, rfl⟩ i hi
      by_cases heq : i = idx
      · exact ⟨res, by rw [heq, Function.update_self]⟩
      · rw [Function.update_of_ne heq]
        exact hall i (by omega)
    · intro hall
      constructor
      · intro i hi
        obtain ⟨res, hres⟩ := hall i (by omega)
        rw [Function.update_of_ne (by omega)] at hres
        exact ⟨res, hres⟩
      · obtain ⟨res, hres⟩ := hall idx (by omega)
        rw [Function.update_self] at hres
        exact ⟨res, Option.some.inj hres⟩

omit [Inhabited ρ] in
theorem Outcome.Complete.leave {idx : Nat} {x : Outcome ε ρ} (h : x.Complete idx idx) (hn : idx < n)
    {err : Option ε} (herr : err ≠ none) : (⟨x.ledger, err⟩ : Outcome ε ρ).Complete n idx := by
  refine ⟨h.sound, h.passed, h.returned, ⟨fun hnone => absurd hnone herr, fun hall => ?_⟩⟩
  obtain ⟨r, hr⟩ := hall idx hn
  have hmem := (h.returned idx).mp (by dsimp only at hr; rw [hr]; rfl)
  exact absurd ((h.passed idx).mp hmem) (lt_irrefl _)

omit [Inhabited ρ] in
theorem complete_sequential (ctx : Nat → Option ε) (out : Nat → Except ε ρ) (k : Nat) :
    ∀ {idx : Nat} {x : Outcome ε ρ}, x.Complete idx idx →
      ∃ m ≤ idx + k, (processSequential o ctx out k idx x).Complete (idx + k) m := by
  induction k with
  | zero => exact fun h => ⟨_, le_refl _, h⟩
  | succ k ih =>
    intro idx x h
    unfold processSequential
    split
    · -- the context has ended
      refine ⟨idx, by omega, ?_⟩
      split
      · rename_i hsome
        exact h.leave (by omega) (Option.isSome_iff_ne_none.mp hsome)
      · exact h.leave (by omega) (by simp)
    · dsimp only
      cases hout : out idx with
      | ok res =>
        dsimp only
        obtain ⟨m, hm, hrest⟩ := ih (h.next (.ok res) x.err (by simp))
        exact ⟨m, by omega, by rwa [show idx + 1 + k = idx + (k + 1) by omega] at hrest⟩
      | error err =>
        dsimp only
        split
        · have hstop := h.next (.error err) (some err) (by simp)
          refine ⟨idx + 1, by omega, ?_⟩
          rcases Nat.eq_zero_or_pos k with rfl | hk
          · exact hstop
          · exact hstop.leave (by omega) (by simp)
        · have herr : (if x.err.isNone then some err else x.err) ≠ none := by
            cases x.err <;> simp
          obtain ⟨m, hm, hrest⟩ := ih (h.next (.error err) _ (iff_of_false herr (by simp)))
          exact ⟨m, by omega, by rwa [show idx + 1 + k = idx + (k + 1) by omega] at hrest⟩

theorem Processed.complete {x : Outcome ε ρ} (h : Processed o n x) : ∃ m ≤ n, x.Complete n m := by
  have hempty : (⟨.empty, none⟩ : Outcome ε ρ).Complete 0 0 := by
    refine ⟨.empty, ?_, ?_, ?_⟩ <;> simp [Ledger.empty]
  cases h with
  | empty hn =>
    subst hn
    exact ⟨0, le_refl _, hempty⟩
  | sequential ctx out hn hone => simpa using complete_sequential (o := o) ctx out n hempty
  | parallel hn hpool hrun hdone => exact ⟨_, Nat.min_le_right _ _, complete_of_done hn hrun hdone⟩

end Ends

/-! ## What `ProcessCollect` returns -/

def Ledger.success (l : Ledger ε ρ) (i : Nat) : Option ρ :=
  match l.returned i with
  | some (.ok r) => some r
  | _ => none

theorem Ledger.Sound.success {l : Ledger ε ρ} (h : l.Sound) (i : Nat) :
    (if l.completed i then some (l.results i) else none) = l.success i := by
  unfold Ledger.success
  have hnot : (∀ r, l.returned i ≠ some (.ok r)) → l.completed i = false := by
    intro hnone
    by_contra hcompleted
    obtain ⟨r, hr⟩ := h.completed i (by simpa using hcompleted)
    exact hnone r hr
  cases hret : l.returned i with
  | none => simp [hnot (by simp [hret])]
  | some r =>
    cases r with
    | error err => simp [hnot (by simp [hret])]
    | ok r =>
      obtain ⟨hcompleted, hresult⟩ := h.stored i r hret
      simp [hcompleted, hresult]

theorem Ledger.Sound.results {l : Ledger ε ρ} (h : l.Sound) {n : Nat}
    (hall : ∀ i < n, l.completed i = true) :
    (List.range n).map l.results = (List.range n).filterMap l.success := by
  rw [← List.filterMap_eq_map]
  apply List.filterMap_congr
  intro i hi
  rw [← h.success, if_pos (hall i (List.mem_range.mp hi))]
  rfl

section Collect

variable {o : Options} {n m : Nat} {x : Outcome ε ρ}

theorem processCollect_err (hn : n ≠ 0) : (processCollect o n x).2 = none ↔ x.err = none := by
  unfold processCollect
  rw [if_neg hn]
  dsimp only
  cases x.err with
  | none => simp
  | some cause =>
    dsimp only
    split <;> split <;> simp [wrap]

theorem Outcome.Complete.processCollect_results (h : x.Complete n m) :
    (processCollect o n x).1 = (List.range n).filterMap x.ledger.success := by
  unfold processCollect
  split
  · rename_i hn
    rw [hn]
    rfl
  · dsimp only
    cases herr : x.err with
    | none =>
      apply h.sound.results
      intro i hi
      obtain ⟨r, hr⟩ := h.err.mp herr i hi
      exact (h.sound.stored i r hr).1
    | some cause =>
      dsimp only
      split
      · rename_i hcount
        apply h.sound.results
        rw [← List.length_range (n := n)] at hcount
        intro i hi
        exact List.countP_eq_length.mp (by simpa using hcount) i (List.mem_range.mpr hi)
      · apply List.filterMap_congr
        exact fun i _ => h.sound.success i

end Collect

/-- In every run of the pool no item is passed twice, and the run can and must go on until the
workers have left their loops. However a batch ends, the items passed to the callback are a prefix
and come back once; there is no error just if all items were processed without one, and then the
results are those of the callback in the order of the items; and otherwise the results are those of
the successful items in their order. -/
theorem process_collect [Inhabited ρ] (o : Options) (n : Nat) :
    (∀ (as : List (Act ε ρ)) (s : State ε ρ), n ≠ 0 → (machine o n).run (init o n) as = some s →
      s.ledger.passed.Nodup ∧ as.countP Act.isWorker ≤ 8 * n + 2 * poolSize o n ∧
        ((∃ w, s.workers w ≠ .done) →
          ∃ (a : Act ε ρ) (s' : State ε ρ), a.isWorker = true ∧ step o n s a = some s')) ∧
    ∀ x : Outcome ε ρ, Processed o n x →
      x.ledger.passed.Nodup ∧ (∃ m ≤ n, ∀ i, i ∈ x.ledger.passed ↔ i < m) ∧
        (∀ i, (x.ledger.returned i).isSome ↔ i ∈ x.ledger.passed) ∧
        ((processCollect o n x).2 = none ↔ ∀ i < n, ∃ r, x.ledger.returned i = some (.ok r)) ∧
        ((processCollect o n x).2 = none →
          (processCollect o n x).1.map (fun r => some (.ok r)) =
          (List.range n).map x.ledger.returned) ∧
        (processCollect o n x).1 = (List.range n).filterMap x.ledger.success := by
  refine ⟨fun as s hn hrun => ?_, fun x hx => ?_⟩
  · obtain ⟨-, hwork⟩ := run_work inPool_init hrun
    have hinit := work_init (ε := ε) (ρ := ρ) (o := o) (n := n)
    refine ⟨(inv_run hn hrun).items.sound.nodup, by omega, ?_⟩
    rintro ⟨w, hw⟩
    exact exists_step hw
  · obtain ⟨m, hm, hcomplete⟩ := hx.complete
    have hresults := hcomplete.processCollect_results (o := o)
    have herr : (processCollect o n x).2 = none ↔ ∀ i < n, ∃ r, x.ledger.returned i =
        some (.ok r) := by
      by_cases hn : n = 0
      · subst hn
        simp [processCollect]
      · rw [processCollect_err hn, hcomplete.err]
    refine ⟨hcomplete.sound.nodup, ⟨m, hm, hcomplete.passed⟩, hcomplete.returned, herr,
      fun hnone => ?_, hresults⟩
    have hall := herr.mp hnone
    rw [hresults, ← hcomplete.sound.results, List.map_map]
    · apply List.map_congr_left
      intro i hi
      obtain ⟨r, hr⟩ := hall i (List.mem_range.mp hi)
      rw [Function.comp_apply, (hcomplete.sound.stored i r hr).2, hr]
    · intro i hi
      obtain ⟨r, hr⟩ := hall i hi
      exact (hcomplete.sound.stored i r hr).1

def twoWorkers : Options := ⟨2, none, true, 1, by decide⟩

/-- The callback for the second item fails while the first one runs, and the third item is never
claimed. -/
def secondFails : List (Act String Nat) :=
  [.check 0, .claim 0, .call 0, .check 1, .claim 1, .call 1, .finish 1 (.error "no"),
    .record 1, .check 1, .finish 0 (.ok 7), .check 0]

def secondFailed : State String Nat :=
  ((machine twoWorkers 3).run (init twoWorkers 3) secondFails).getD (init twoWorkers 3)

theorem secondFailed_run :
    (machine twoWorkers 3).run (init twoWorkers 3) secondFails = some secondFailed :=
  rfl

theorem processed_secondFailed : Processed twoWorkers 3 (secondFailed.outcome 3) := by
  refine .parallel (by decide) (by decide) secondFailed_run fun w => ?_
  match w with
  | 0 => rfl
  | 1 => rfl
  | w + 2 => rfl

theorem process_collect_secondFails :
    secondFailed.ledger.passed.Nodup ∧ Processed twoWorkers 3 (secondFailed.outcome 3) ∧
      ((processCollect twoWorkers 3 (secondFailed.outcome 3)).2 = none ↔
        ∀ i < 3, ∃ r, (secondFailed.outcome 3).ledger.returned i = some (.ok r)) ∧
      (processCollect twoWorkers 3 (secondFailed.outcome 3)).1 = [7] := by
  obtain ⟨hruns, hends⟩ := process_collect (ε := String) (ρ := Nat) twoWorkers 3
  obtain ⟨-, -, -, herr, -, hresults⟩ := hends _ processed_secondFailed
  exact ⟨(hruns secondFails secondFailed (by decide) secondFailed_run).1,
    processed_secondFailed, herr, hresults.trans rfl⟩

end GoAtlas.Batch
