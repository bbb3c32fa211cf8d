import GoAtlas.Lib.SlidingWindow
import GoAtlas.Limiter.Nats

/-!
# What the NATS rate limiter bounds

A request is counted from the clock its attempt read, and admitted at the time its write succeeds.
If no admitted attempt takes more than `d` between the two, a window shorter than the limiter's by
`d` holds no more admissions than the limit. The full window does only without any delay: late
writes expire early, so they leave room for more.
-/

namespace GoAtlas.Limiter.Nats

open Lib Window

/-! ## Logs -/

def Event.stamp? : Event → Option Int
  | .admitted stamp _ _ | .lost stamp _ => some stamp
  | .failed _ _ => none

def Event.time? : Event → Option Int
  | .admitted _ at_ _ => some at_
  | _ => none

def stamps (log : List Event) : List Int := log.filterMap Event.stamp?

def times (log : List Event) : List Int := log.filterMap Event.time?

/-- No admitted attempt took more than `d` from its clock to its write. -/
def Prompt (d : Nat) (log : List Event) : Prop :=
  ∀ (stamp at_ : Int) info, .admitted stamp at_ info ∈ log → at_ ≤ stamp + d

/-- What the entry holds after the writes with these clocks. -/
def contents (windowMs : Int) (stamps : List Int) : List Int :=
  stamps.foldl (fun ts t => live windowMs t ts ++ [t]) []

variable {o : Options} {windowMs t : Int}

theorem contents_concat (ts : List Int) :
    contents windowMs (ts ++ [t]) = live windowMs t (contents windowMs ts) ++ [t] := by
  simp [contents, List.foldl_append]

theorem live_contents {ts : List Int} (h : ∀ x ∈ ts, x ≤ t) :
    live windowMs t (contents windowMs ts) = live windowMs t ts := by
  induction ts using List.reverseRecOn with
  | nil => rfl
  | append_singleton ts a ih =>
    rw [contents_concat, live_append, live_append, live_live (h a (by simp)),
      ih fun x hx => h x (List.mem_append_left _ hx)]

theorem live_length_le {now now' : Int} (h : now ≤ now') (ts : List Int) :
    (live windowMs now' ts).length ≤ (live windowMs now ts).length := by
  refine List.Sublist.length_le (List.monotone_filter_right _ fun x hx => ?_)
  simp only [decide_eq_true_eq] at hx ⊢
  omega

theorem live_filterMap_length (f : Event → Option Int) (log : List Event) :
    (live windowMs t (log.filterMap f)).length =
      log.countP fun e => ((f e).map fun x => decide (t - windowMs < x)).getD false := by
  rw [live, ← List.countP_eq_length_filter, List.countP_filterMap]

theorem times_le_stamps {d : Nat} {log : List Event} (h : Prompt d log) :
    (live (windowMs - d) t (times log)).length ≤ (live windowMs t (stamps log)).length := by
  rw [times, stamps, live_filterMap_length, live_filterMap_length]
  refine List.countP_mono_left fun e he hin => ?_
  cases e with
  | admitted stamp at_ info =>
    have hprompt := h stamp at_ info he
    simp only [Event.time?, Event.stamp?, Option.map_some, Option.getD_some,
      decide_eq_true_eq] at hin ⊢
    omega
  | lost stamp at_ => simp [Event.time?] at hin
  | failed err info => simp [Event.time?] at hin

/-! ## The invariant -/

/-- An admission finds fewer than `limit` of the clocks before it in the window that ends with
it. -/
def Admits (o : Options) (log : List Event) (e : Event) : Prop :=
  ∀ at_, e.time? = some at_ → ((live o.windowMs at_ (stamps log)).length : Int) < o.limit

structure Inv (o : Options) (s : Sys) : Prop where
  entry : s.entry.requests = contents o.windowMs (stamps s.log)
  past : ∀ t ∈ stamps s.log, t ≤ s.clock
  timed : ∀ c n now, s.procs c = .timed n now → now ≤ s.clock
  /-- A loaded client whose revision stands has the entry as it is. -/
  loaded : ∀ c n now requests info revision,
    s.procs c = .loaded n now requests info revision → now ≤ s.clock ∧
      revision ≤ s.entry.revision ∧ (revision = s.entry.revision →
        ((live o.windowMs now s.entry.requests).length : Int) < o.limit ∧
          requests = live o.windowMs now s.entry.requests ++ [now])
  admits : Guarded (Admits o) s.log

theorem inv_initial : Inv o .initial :=
  ⟨rfl, by simp [Sys.initial, stamps], by simp [Sys.initial], by simp [Sys.initial], Guarded.nil⟩

variable {s s' : Sys} {c c' : Nat} {x y : Proc}

theorem setProc_eq (h : (s.setProc c x).procs c' = y) : x = y ∨ s.procs c' = y := by
  by_cases heq : c' = c
  · subst heq
    exact .inl (by simpa [Sys.setProc] using h)
  · exact .inr (by simpa [Sys.setProc, Function.update_of_ne heq] using h)

theorem settle_ok {now : Int} {requests : List Int} {r : List Int × LimitInfo}
    (h : settle o now requests = .ok r) :
    ((live o.windowMs now requests).length : Int) < o.limit ∧
      r.1 = live o.windowMs now requests ++ [now] := by
  unfold settle at h
  dsimp only at h
  split at h
  · cases h
  · rename_i hroom
    cases h
    exact ⟨lt_of_not_ge hroom, rfl⟩

theorem Inv.setProc (h : Inv o s) (htimed : ∀ n now, x = .timed n now → now ≤ s.clock)
    (hloaded : ∀ n now requests info revision, x = .loaded n now requests info revision →
      now ≤ s.clock ∧ revision ≤ s.entry.revision ∧ (revision = s.entry.revision →
        ((live o.windowMs now s.entry.requests).length : Int) < o.limit ∧
          requests = live o.windowMs now s.entry.requests ++ [now])) :
    Inv o (s.setProc c x) :=
  ⟨h.entry, h.past,
    fun c' n now hc => (setProc_eq hc).elim (htimed n now) (h.timed c' n now),
    fun c' n now requests info revision hc => (setProc_eq hc).elim
      (hloaded n now requests info revision) (h.loaded c' n now requests info revision),
    h.admits⟩

theorem Inv.failed (h : Inv o s) (err : Err) (info : Option LimitInfo) :
    Inv o (s.answer c (.failed err info)) := by
  have h' : Inv o (s.setProc c .idle) := h.setProc (by simp) (by simp)
  have hstamps : stamps (s.log ++ [.failed err info]) = stamps s.log := by
    simp [stamps, Event.stamp?]
  refine ⟨?_, ?_, h'.timed, h'.loaded, h.admits.concat (by simp [Admits, Event.time?])⟩
  · exact h.entry.trans (congrArg _ hstamps.symm)
  · intro t ht
    exact h.past t (hstamps ▸ ht)

/-- A write that is applied: the revision stood, so the entry is what the client loaded. -/
theorem Inv.applied {n revision : Nat} {now : Int} {requests : List Int}
    {info : LimitInfo} {e : Event} (h : Inv o s)
    (hproc : s.procs c = .loaded n now requests info revision) (hrev : revision = s.entry.revision)
    (hstamp : e.stamp? = some now) (htime : ∀ at_, e.time? = some at_ → at_ = s.clock) :
    Inv o ((s.put requests).answer c e) := by
  obtain ⟨hnow, -, hsame⟩ := h.loaded c n now requests info revision hproc
  obtain ⟨hroom, hreq⟩ := hsame hrev
  have hstamps : stamps (s.log ++ [e]) = stamps s.log ++ [now] := by simp [stamps, hstamp]
  refine ⟨?_, fun t ht => ?_, fun c' n' now' hc => ?_, fun c' n' now' reqs info' rev hc => ?_,
    h.admits.concat fun at_ hat => ?_⟩
  · change requests = contents o.windowMs (stamps (s.log ++ [e]))
    rw [hstamps, contents_concat, ← h.entry, hreq]
  · change t ∈ stamps (s.log ++ [e]) at ht
    rw [hstamps] at ht
    rcases List.mem_append.mp ht with ht | ht
    · exact h.past t ht
    · rw [List.mem_singleton.mp ht]
      exact hnow
  · exact (setProc_eq (s := s) hc).elim (by simp) (h.timed c' n' now')
  · -- every other client has loaded an older revision
    have hold := (setProc_eq (s := s) hc).elim (by simp) (h.loaded c' n' now' reqs info' rev)
    refine ⟨hold.1, Nat.le_succ_of_le hold.2.1, fun heq => ?_⟩
    have : rev = s.entry.revision + 1 := heq
    have := hold.2.1
    omega
  · -- the clock of the attempt is not after the write, and no clock before it is
    rw [htime at_ hat, ← live_contents h.past, ← h.entry]
    have hle : (live o.windowMs s.clock s.entry.requests).length ≤
        (live o.windowMs now s.entry.requests).length := live_length_le hnow _
    omega

theorem inv_step {a : Action} (h : Inv o s) (hs : s.step o a = some s') : Inv o s' := by
  cases a with
  | tick ms =>
    cases hs
    have hle : s.clock ≤ s.clock + ms := by omega
    exact ⟨h.entry, fun t ht => (h.past t ht).trans hle,
      fun c n now hc => (h.timed c n now hc).trans hle, fun c n now requests info revision hc =>
        ⟨(h.loaded c n now requests info revision hc).1.trans hle,
          (h.loaded c n now requests info revision hc).2⟩, h.admits⟩
  | read c =>
    simp only [Sys.step] at hs
    split at hs
    · cases hs
      exact h.setProc (by rintro _ _ ⟨⟩; exact le_rfl) (by simp)
    · cases hs
      exact h.setProc (by rintro _ _ ⟨⟩; exact le_rfl) (by simp)
    · cases hs
  | load c =>
    simp only [Sys.step] at hs
    split at hs
    · rename_i n now hproc
      cases hset : settle o now s.entry.requests with
      | error info =>
        rw [hset] at hs
        cases hs
        exact h.failed .limitExceeded (some info)
      | ok r =>
        rw [hset] at hs
        cases hs
        refine h.setProc (by simp) ?_
        rintro _ _ _ _ _ ⟨⟩
        exact ⟨h.timed c n now hproc, le_rfl, fun _ => settle_ok hset⟩
    · cases hs
  | loadFails c =>
    simp only [Sys.step] at hs
    split at hs
    · cases hs
      exact h.failed .get none
    · cases hs
  | write c outcome =>
    simp only [Sys.step] at hs
    split at hs
    · rename_i n now requests info revision hproc
      cases outcome with
      | failed =>
        cases hs
        exact h.failed .store none
      | done =>
        dsimp only at hs
        split at hs
        · rename_i hrev
          cases hs
          exact h.applied hproc hrev rfl fun _ hat => (Option.some.inj hat).symm
        · split at hs
          · cases hs
            exact h.setProc (by simp) (by simp)
          · cases hs
            exact h.failed .contention none
      | lost =>
        dsimp only at hs
        split at hs
        · rename_i hrev
          cases hs
          exact h.applied hproc hrev rfl (by simp [Event.time?])
        · cases hs
          exact h.failed .store none
    · cases hs

theorem inv_run {actions : List Action} (h : (Sys.machine o).run .initial actions = some s) :
    Inv o s :=
  Machine.invariant_run (fun _ _ => True) (Inv o) (fun _ _ _ hi _ hs => inv_step hi hs) inv_initial
    (Machine.along_of_mem (fun _ _ _ => trivial) _) h

/-- With delays of at most `d`, the admissions are bounded in the window that is shorter by `d`. -/
theorem bounded_of_prompt {d : Nat} {actions : List Action}
    (h : (Sys.machine o).run .initial actions = some s) (hprompt : Prompt d s.log) :
    Bounded (o.windowMs - d) o.limit (times s.log) := by
  have hguarded := (inv_run h).admits
  generalize s.log = log at hguarded hprompt
  refine Guarded.induct (motive := fun log => Prompt d log →
    Bounded (o.windowMs - d) o.limit (times log)) hguarded (fun _ => Guarded.nil) ?_ hprompt
  intro log e _ hadmits ih hprompt
  have hprompt' : Prompt d log := fun stamp at_ info hmem =>
    hprompt stamp at_ info (List.mem_append_left _ hmem)
  have htimes : times (log ++ [e]) = times log ++ e.time?.toList := by
    cases htime : e.time? <;> simp [times, htime]
  rw [htimes]
  cases htime : e.time? with
  | none => simpa using ih hprompt'
  | some at_ =>
    refine Guarded.concat (ih hprompt') ?_
    have hle : (live (o.windowMs - d) at_ (times log)).length ≤
        (live o.windowMs at_ (stamps log)).length := times_le_stamps hprompt'
    have hroom := hadmits at_ htime
    omega

/-! ## Late writes -/

/-- `n` clients read the clock at 0, and write one after another a millisecond later. At the end of
the window that began at 0 their requests have expired, and one more client is admitted. -/
def lateRun (n w : Nat) : List Action :=
  (List.range n).map .read ++ .tick 1 ::
    ((List.range n).flatMap fun c => [.load c, .write c .done]) ++
    [.tick (w - 1), .read n, .load n, .write n .done]

structure Reading (k : Nat) (s : Sys) : Prop where
  entry : s.entry = ⟨[], 0⟩
  clock : s.clock = 0
  log : s.log = []
  timed : ∀ c < k, s.procs c = .timed 0 0
  idle : ∀ c, k ≤ c → s.procs c = .idle

theorem run_reads (k : Nat) :
    ∃ s, (Sys.machine o).run .initial ((List.range k).map .read) = some s ∧ Reading k s := by
  induction k with
  | zero => exact ⟨_, rfl, rfl, rfl, rfl, by simp, fun _ _ => rfl⟩
  | succ k ih =>
    obtain ⟨s, hs, h⟩ := ih
    have hstep : (Sys.machine o).run s [.read k] = some (s.setProc k (.timed 0 s.clock)) := by
      simp [Machine.run, Sys.machine, Sys.step, h.idle k le_rfl]
    refine ⟨s.setProc k (.timed 0 s.clock), ?_, h.entry, h.clock, h.log, fun c hc => ?_,
      fun c hc => ?_⟩
    · rw [List.range_succ, List.map_append]
      exact Machine.run_append hs hstep
    · by_cases heq : c = k
      · simp [Sys.setProc, heq, h.clock]
      · simpa [Sys.setProc, heq] using h.timed c (by omega)
    · have heq : c ≠ k := by omega
      simpa [Sys.setProc, heq] using h.idle c (by omega)

/-- The first `k` of the `n` clients have written, with the clock they had read before. -/
structure Writing (n k : Nat) (s : Sys) : Prop where
  entry : s.entry = ⟨List.replicate k 0, k⟩
  clock : s.clock = 1
  times : times s.log = List.replicate k 1
  prompt : Prompt 1 s.log
  timed : ∀ c, k ≤ c → c < n → s.procs c = .timed 0 0
  idle : s.procs n = .idle

theorem Writing.next {n k : Nat} (h : Writing n k s) (hk : k < n) (hn : (n : Int) ≤ o.limit)
    (hw : 0 < o.windowMs) :
    ∃ s', (Sys.machine o).run s [.load k, .write k .done] = some s' ∧ Writing n (k + 1) s' := by
  have hlive : (List.replicate k (0 : Int)).filter (0 - o.windowMs < ·) = List.replicate k 0 := by
    rw [List.filter_replicate, if_pos (by simpa using hw)]
  obtain ⟨info, hset⟩ : ∃ info, settle o 0 (List.replicate k 0) =
      .ok (List.replicate k 0 ++ [0], info) := by
    unfold settle
    dsimp only
    rw [hlive, if_neg (by simp only [List.length_replicate]; omega)]
    exact ⟨_, rfl⟩
  have hload : s.step o (.load k) =
      some (s.setProc k (.loaded 0 0 (List.replicate k 0 ++ [0]) info k)) := by
    simp only [Sys.step, h.timed k le_rfl hk, h.entry, hset]
  have hwrite : (s.setProc k (.loaded 0 0 (List.replicate k 0 ++ [0]) info k)).step o
    (.write k .done) =
      some (((s.setProc k (.loaded 0 0 (List.replicate k 0 ++ [0]) info k)).put
        (List.replicate k 0 ++ [0])).answer k (.admitted 0 s.clock info)) := by
    simp [Sys.step, Sys.setProc, h.entry]
  refine ⟨_, Machine.run_cons.mpr ⟨_, hload, Machine.run_cons.mpr ⟨_, hwrite, rfl⟩⟩, ?_,
    h.clock, ?_, ?_, fun c hc hcn => ?_, ?_⟩
  · simp [Sys.answer, Sys.put, Sys.setProc, h.entry, List.replicate_succ']
  · simp [Sys.answer, Sys.put, Sys.setProc, Nats.times, Event.time?, List.replicate_succ', h.clock]
    exact h.times
  · intro stamp at_ info' hmem
    rcases List.mem_append.mp hmem with hmem | hmem
    · exact h.prompt stamp at_ info' hmem
    · cases List.mem_singleton.mp hmem
      simp [h.clock]
  · have heq : c ≠ k := by omega
    simpa [Sys.answer, Sys.put, Sys.setProc, heq] using h.timed c (by omega) hcn
  · have heq : n ≠ k := by omega
    simpa [Sys.answer, Sys.put, Sys.setProc, heq] using h.idle

theorem Writing.run {n k : Nat} (h : Writing n 0 s) (hk : k ≤ n) (hn : (n : Int) ≤ o.limit)
    (hw : 0 < o.windowMs) :
    ∃ s', (Sys.machine o).run s ((List.range k).flatMap fun c => [.load c, .write c .done]) =
      some s' ∧
      Writing n k s' := by
  induction k with
  | zero => exact ⟨s, rfl, h⟩
  | succ k ih =>
    obtain ⟨t, ht, hwriting⟩ := ih (by omega)
    obtain ⟨u, hu, hnext⟩ := hwriting.next (by omega) hn hw
    refine ⟨u, ?_, hnext⟩
    rw [List.range_succ, List.flatMap_append]
    exact Machine.run_append ht (by simpa using hu)

/-- One more client than the limit is admitted within the window. -/
theorem late_exceeds {n : Nat} (hn : (n : Int) = o.limit) (hlimit : 0 < o.limit) {w : Nat}
    (hw : (w : Int) = o.windowMs) (hpos : 0 < o.windowMs) :
    ∃ s, (Sys.machine o).run .initial (lateRun n w) = some s ∧ Prompt 1 s.log ∧
      (within o.windowMs w (times s.log)).length = n + 1 := by
  obtain ⟨s, hs, hreading⟩ := run_reads (o := o) n
  have htick : (Sys.machine o).run s [.tick 1] = some { s with clock := s.clock + 1 } := rfl
  have hstart : Writing n 0 { s with clock := s.clock + 1 } :=
    ⟨hreading.entry, by simp [hreading.clock], by simp [hreading.log, times],
      by simp [Prompt, hreading.log], fun c _ hc => hreading.timed c hc, hreading.idle n le_rfl⟩
  obtain ⟨t, ht, hwriting⟩ := hstart.run le_rfl hn.le hpos
  -- all the requests carry the clock 0, which the window that ends at `w` no longer holds
  have hlive : (List.replicate n (0 : Int)).filter ((w : Int) - o.windowMs < ·) = [] := by
    rw [List.filter_replicate, if_neg (by simp [hw])]
  obtain ⟨info, hset⟩ : ∃ info, settle o w (List.replicate n 0) = .ok ([(w : Int)], info) := by
    unfold settle
    dsimp only
    rw [hlive, if_neg (by simpa using hlimit)]
    exact ⟨_, rfl⟩
  have hclock : t.clock + (w - 1 : Nat) = w := by
    rw [hwriting.clock]
    omega
  have hlast : ∃ u, (Sys.machine o).run t [.tick (w - 1), .read n, .load n, .write n .done] =
    some u ∧
      u.log = t.log ++ [.admitted w w info] := by
    simp [Machine.run, Sys.machine, Sys.step, Sys.setProc, Sys.answer, Sys.put, hwriting.idle,
      hwriting.entry, hclock, hset]
  obtain ⟨u, hu, hlog⟩ := hlast
  refine ⟨u, ?_, ?_, ?_⟩
  · exact Machine.run_append (Machine.run_append hs (Machine.run_append htick ht)) hu
  · rw [hlog]
    intro stamp at_ info' hmem
    rcases List.mem_append.mp hmem with hmem | hmem
    · exact hwriting.prompt stamp at_ info' hmem
    · cases List.mem_singleton.mp hmem
      simp
  · have htimes : times u.log = List.replicate n 1 ++ [(w : Int)] := by
      rw [hlog, times, List.filterMap_append, show t.log.filterMap Event.time? =
        _ from hwriting.times]
      rfl
    have hones : (List.replicate n (1 : Int)).filter
        (fun x => decide ((w : Int) - o.windowMs < x ∧ x ≤ w)) = List.replicate n 1 := by
      rw [List.filter_replicate, if_pos (by simp; omega)]
    rw [htimes, within, List.filter_append, hones]
    simp [hw, hpos]

/-- Over the runs whose admitted attempts take at most `d` from their clock to their write: a window
shorter by `d` never holds more admissions than the limit, and the full window never does if and
only if there is no delay. -/
theorem admissions_limited_iff_prompt (o : Options) (hlimit : 0 < o.limit)
    (hwindow : 0 < o.windowMs) (d : Nat) :
    (∀ actions s, (Sys.machine o).run .initial actions = some s → Prompt d s.log → ∀ t,
      ((within (o.windowMs - d) t (times s.log)).length : Int) ≤ o.limit) ∧
    ((∀ actions s, (Sys.machine o).run .initial actions = some s → Prompt d s.log → ∀ t,
      ((within o.windowMs t (times s.log)).length : Int) ≤ o.limit) ↔ d = 0) := by
  have hshort : ∀ actions s, (Sys.machine o).run .initial actions = some s → Prompt d s.log → ∀ t,
      ((within (o.windowMs - d) t (times s.log)).length : Int) ≤ o.limit :=
    fun actions s h hprompt t => (bounded_of_prompt h hprompt).within_le hlimit.le t
  refine ⟨hshort, fun h => ?_, ?_⟩
  · by_contra hd
    obtain ⟨s, hs, hprompt, hcount⟩ :=
      late_exceeds (o := o) (n := o.limit.toNat) (w := o.windowMs.toNat)
      (by omega) hlimit (by omega) hwindow
    have hprompt' : Prompt d s.log := by
      intro stamp at_ info hmem
      have := hprompt stamp at_ info hmem
      omega
    have := h _ s hs hprompt' o.windowMs.toNat
    omega
  · rintro rfl actions s h hprompt t
    simpa using hshort actions s h hprompt t

def onePer10 : Options := ⟨1, 10, 5⟩

/-- A second request within the window is refused, and a third one at its end is let in. -/
def threeRequests : List Action :=
  [.read 0, .load 0, .write 0 .done, .tick 4, .read 1, .load 1, .tick 6, .read 2, .load 2,
    .write 2 .done]

theorem admissions_limited_iff_prompt_onePer10 :
    ∃ s, (Sys.machine onePer10).run .initial threeRequests = some s ∧ times s.log = [0, 10] ∧
      Prompt 0 s.log ∧ ∀ t, ((within 10 t (times s.log)).length : Int) ≤ 1 := by
  obtain ⟨s, info, err, info', hs, hlog⟩ : ∃ s info err info',
      (Sys.machine onePer10).run .initial threeRequests = some s ∧
        s.log = [.admitted 0 0 info, .failed .limitExceeded err, .admitted 10 10 info'] :=
    ⟨_, _, _, _, rfl, rfl⟩
  have hprompt : Prompt 0 s.log := by
    intro stamp at_ info hmem
    rw [hlog] at hmem
    simp only [List.mem_cons, Event.admitted.injEq, reduceCtorEq, List.not_mem_nil, or_false,
      false_or] at hmem
    obtain ⟨rfl, rfl, -⟩ | ⟨rfl, rfl, -⟩ := hmem <;> decide
  have htimes : times s.log = [0, 10] := by
    rw [hlog]
    rfl
  exact ⟨s, hs, htimes, hprompt,
    (admissions_limited_iff_prompt onePer10 (by decide) (by decide) 0).2.mpr rfl _ s hs hprompt⟩

/-- A request written 9 ms after its clock leaves room 1 ms later. -/
theorem delayed_write_exceeds_limit :
    ∃ s, (Sys.machine onePer10).run .initial [.read 0, .tick 9, .load 0, .write 0 .done,
      .tick 1, .read 1,
        .load 1, .write 1 .done] = some s ∧ times s.log = [9, 10] ∧
      (within 10 10 (times s.log)).length = 2 :=
  ⟨_, rfl, rfl, by decide⟩

end GoAtlas.Limiter.Nats
