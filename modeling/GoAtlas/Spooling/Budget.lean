import Mathlib.Algebra.BigOperators.Fin
import Mathlib.Algebra.Order.BigOperators.Group.Finset
import GoAtlas.Lib.Machine
import GoAtlas.Lib.Moves
import GoAtlas.Spooling.Spool

/-!
# The disk budget of spools

Any number of calls of `Budget.Spool`, each with its cap, its options and its source, and of `Close`
of the spools they return, on one budget. A call reserves its cap, runs `spool.New` step by step,
and releases what it does not need; an error releases the whole cap after the file is gone. `Close`
releases the rest, clears `release`, and then removes the file. Any number of `Close` calls may be
at any of these points. The semaphore lets a call in whenever its cap fits, which is more than its
queue does.

What a call has acquired and what it has released are notes of the model.
-/

namespace GoAtlas.Spooling

open Lib

structure Request where
  o : Options
  src : Bytes
  pos : 0 < o.maxBytes.toInt

def Request.cap (r : Request) : Int := r.o.maxBytes.toInt

inductive Stage where
  | waiting
  | filling
  | opened
  | refused
  /-- `spool.New` has panicked. -/
  | crashed
  deriving DecidableEq

structure Call where
  stage : Stage
  job : Job
  /-- What `release` gives back; `none` is `nil`. -/
  release : Option Int
  /-- `Close` calls that are about to call `release`. -/
  atRelease : Nat
  /-- `Close` calls that are about to clear it. -/
  atClear : Nat
  /-- `Close` calls that are about to close the spool itself. -/
  atSpool : Nat
  acquired : Int
  released : Int

variable {ι : Type} [DecidableEq ι] {req : ι → Request} {limit : Int}

def Call.onDisk (c : Call) : Int := c.job.file.elim 0 fun file => file.length

def Call.held (c : Call) : Int := c.acquired - c.released

def Call.init (r : Request) : Call where
  stage := .waiting
  job := start r.o r.src
  release := none
  atRelease := 0
  atClear := 0
  atSpool := 0
  acquired := 0
  released := 0

structure State (ι : Type) where
  /-- The weight of the semaphore that is taken. -/
  cur : Int
  call : ι → Call

inductive Action (ι : Type) where
  | acquire (i : ι)
  /-- The context ends in `Acquire`. -/
  | cancel (i : ι)
  /-- A step of `spool.New`. -/
  | new (i : ι) (r : Read)
  /-- `Spool` goes on with the result of `spool.New`. -/
  | settle (i : ι)
  | close (i : ι)
  | closeRelease (i : ι)
  | closeClear (i : ι)
  | closeSpool (i : ι)

/-- The call after `spool.New`: the excess is released, or all of it after an error; a panic unwinds
past both. -/
def Call.settle (c : Call) (cap : Int) : Outcome → Call
  | .spool sp =>
    { c with
      stage := .opened
      release := some sp.size.toInt
      released := c.released + (if 0 < cap - sp.size.toInt then cap - sp.size.toInt else 0) }
  | .tooLarge => { c with stage := .refused, released := c.released + cap }
  | .failed => { c with stage := .refused, released := c.released + cap }
  | .panicked => { c with stage := .crashed }

/-- The semaphore and the calls when `i` is now `c`, which has acquired or released what it
notes. -/
def State.set (s : State ι) (i : ι) (c : Call) : State ι :=
  { cur := s.cur + (c.held - (s.call i).held), call := Function.update s.call i c }

def next (req : ι → Request) (limit : Int) (s : State ι) : Action ι → Option (State ι)
  | .acquire i =>
    if (s.call i).stage = .waiting ∧ s.cur + (req i).cap ≤ limit then
      some (s.set i { s.call i with stage := .filling, acquired := (req i).cap })
    else none
  | .cancel i =>
    if (s.call i).stage = .waiting then some (s.set i { s.call i with stage := .refused }) else none
  | .new i r =>
    if (s.call i).stage = .filling ∧ (s.call i).job.outcome = none then
      some (s.set i { s.call i with job := (s.call i).job.step r })
    else none
  | .settle i =>
    if (s.call i).stage = .filling then
      (s.call i).job.outcome.map fun out => s.set i ((s.call i).settle (req i).cap out)
    else none
  | .close i =>
    if (s.call i).stage = .opened then
      some (s.set i
        (if (s.call i).release.isSome then { s.call i with atRelease := (s.call i).atRelease + 1 }
        else { s.call i with atSpool := (s.call i).atSpool + 1 }))
    else none
  | .closeRelease i =>
    if 0 < (s.call i).atRelease then
      (s.call i).release.map fun held => s.set i { s.call i with
        atRelease := (s.call i).atRelease - 1
        atClear := (s.call i).atClear + 1
        released := (s.call i).released + held }
    else none
  | .closeClear i =>
    if 0 < (s.call i).atClear then
      some (s.set i { s.call i with
        release := none
        atClear := (s.call i).atClear - 1
        atSpool := (s.call i).atSpool + 1 })
    else none
  | .closeSpool i =>
    if 0 < (s.call i).atSpool then
      some (s.set i { s.call i with
        atSpool := (s.call i).atSpool - 1
        job := { (s.call i).job with file := none } })
    else none

def machine (req : ι → Request) (limit : Int) : Machine (State ι) (Action ι) := ⟨next req limit⟩

def State.init (req : ι → Request) : State ι := { cur := 0, call := fun i => .init (req i) }

/-! ## Conditions -/

/-- The bounds of the first read can be computed, and a source that is too large is noticed before
there is a file. -/
structure Request.Tame (r : Request) : Prop where
  range : r.o.InRange
  fits : (r.src.length : Int) ≤ r.cap ∨ r.cap ≤ r.o.memThreshold.toInt

/-- `Close` has released the bytes of the spool, and its file is still there. -/
def Call.Lingers (c : Call) : Prop :=
  c.stage = .opened ∧ c.released = c.acquired ∧ c.job.file ≠ none

/-- What a step must meet: only tame calls are let in, no byte is written to a file while another
file lingers, and no `Close` of a spool starts while another one of the same spool has not yet
cleared `release`. -/
def Allowed (req : ι → Request) (s : State ι) : Action ι → Prop
  | .acquire i => (req i).Tame
  | .new i r =>
    (∀ k, ¬ (s.call k).Lingers) ∨
      Call.onDisk { s.call i with job := (s.call i).job.step r } ≤ (s.call i).onDisk
  | .close i => (s.call i).atRelease = 0 ∧ (s.call i).atClear = 0
  | _ => True

instance (r : Request) : Decidable r.Tame :=
  decidable_of_iff ((0 ≤ r.o.memThreshold.toInt ∧ r.o.memThreshold ≠ Int64.maxValue ∧ r.o.maxBytes ≠
    Int64.maxValue) ∧
      ((r.src.length : Int) ≤ r.cap ∨ r.cap ≤ r.o.memThreshold.toInt))
    ⟨fun h => ⟨⟨h.1.1, h.1.2.1, h.1.2.2⟩, h.2⟩,
      fun h => ⟨⟨h.range.nonneg, h.range.threshold, h.range.cap⟩, h.fits⟩⟩

instance (c : Call) : Decidable c.Lingers := inferInstanceAs (Decidable (_ ∧ _ ∧ _))

instance [Fintype ι] (req : ι → Request) (s : State ι) (a : Action ι) :
    Decidable (Allowed req s a) :=
  match a with
  | .acquire i => inferInstanceAs (Decidable (req i).Tame)
  | .new _ _ => inferInstanceAs (Decidable (_ ∨ _))
  | .close _ => inferInstanceAs (Decidable (_ ∧ _))
  | .cancel _ | .settle _ | .closeRelease _ | .closeClear _ | .closeSpool _ => .isTrue trivial

/-! ## One call -/

def Call.NoClose (c : Call) : Prop := c.atRelease = 0 ∧ c.atClear = 0 ∧ c.atSpool = 0

/-- `release` is still to be called, or was called and is to be cleared, or is cleared. -/
def Call.Releasing (c : Call) (cap held : Int) : Prop :=
  c.release = some held ∧ c.released = cap - held ∧ c.atRelease ≤ 1 ∧ c.atClear = 0 ∨
  c.release = some held ∧ c.released = cap ∧ c.atRelease = 0 ∧ c.atClear = 1 ∨
  c.release = none ∧ c.released = cap ∧ c.atRelease = 0 ∧ c.atClear = 0

structure Call.Filling (c : Call) (r : Request) : Prop where
  tame : r.Tame
  acquired : c.acquired = r.cap
  released : c.released = 0
  closers : c.NoClose
  job : c.job.Inv r.o r.src ∨ c.job.outcome = some .failed ∧ c.job.file = none

structure Call.Refused (c : Call) : Prop where
  nonneg : 0 ≤ c.acquired
  released : c.released = c.acquired
  file : c.job.file = none
  closers : c.NoClose

/-- The spool has `held` bytes. -/
structure Call.Opened (c : Call) (r : Request) (held : Int) : Prop where
  acquired : c.acquired = r.cap
  nonneg : 0 ≤ held
  le : held ≤ r.cap
  onDisk : c.onDisk ≤ held
  releasing : c.Releasing r.cap held

structure Call.Ok (c : Call) (r : Request) : Prop where
  waiting : c.stage = .waiting → c.job = start r.o r.src ∧ c.acquired = 0 ∧
    c.released = 0 ∧ c.NoClose
  filling : c.stage = .filling → c.Filling r
  opened : c.stage = .opened → ∃ held, c.Opened r held
  refused : c.stage = .refused → c.Refused
  crashed : c.stage ≠ .crashed

variable {c : Call} {r : Request} {s : State ι} {i : ι}

theorem Call.Filling.ok (h : c.Filling r) (hstage : c.stage = .filling) : c.Ok r := by
  refine ⟨fun hs => ?_, fun _ => h, fun hs => ?_, fun hs => ?_, fun hs => ?_⟩ <;>
    cases hstage.symm.trans hs

theorem Call.Refused.ok (h : c.Refused) (hstage : c.stage = .refused) : c.Ok r := by
  refine ⟨fun hs => ?_, fun hs => ?_, fun hs => ?_, fun _ => h, fun hs => ?_⟩ <;>
    cases hstage.symm.trans hs

theorem Call.Opened.ok {n : Int} (h : c.Opened r n) (hstage : c.stage = .opened) : c.Ok r := by
  refine ⟨fun hs => ?_, fun hs => ?_, fun _ => ⟨n, h⟩, fun hs => ?_, fun hs => ?_⟩ <;>
    cases hstage.symm.trans hs

theorem Request.Tame.length_file_le {j : Job} {file : Bytes} (h : r.Tame) (hinv : j.Inv r.o r.src)
    (hfile : j.file = some file) : (file.length : Int) ≤ r.cap := by
  have hcap := r.pos
  cases hout : j.outcome with
  | none =>
    obtain ⟨hsrc, -, -, hmore, hbound, -⟩ := hinv.spilling file hout hfile
    have hlen : file.length ≤ r.src.length := by
      rw [← hsrc, List.length_append]
      omega
    rcases h.fits with hfits | hmem
    · omega
    · have := (hbound hcap).2
      rw [Request.cap] at hmem
      omega
  | some out =>
    cases out with
    | spool sp =>
      obtain ⟨hfits, -, -, -, hwhole⟩ := hinv.spool sp hout
      rw [hwhole file hfile]
      by_contra hlong
      exact hfits ⟨hcap, by rw [Request.cap] at hlong; omega⟩
    | tooLarge =>
      rw [(hinv.tooLarge hout).2] at hfile
      cases hfile
    | failed => exact absurd hout hinv.running.1
    | panicked => exact absurd hout hinv.running.2

theorem Call.onDisk_of_none (h : c.job.file = none) : c.onDisk = 0 := by
  rw [Call.onDisk, h]
  rfl

theorem Call.Ok.onDisk_le (h : c.Ok r) (hc : ¬ c.Lingers) : c.onDisk ≤ c.held := by
  rw [Call.held]
  cases hstage : c.stage with
  | waiting =>
    obtain ⟨hjob, hacq, hrel, -⟩ := h.waiting hstage
    rw [Call.onDisk_of_none (by rw [hjob]; rfl)]
    omega
  | filling =>
    obtain ⟨htame, hacq, hrel, -, hinv⟩ := h.filling hstage
    have hpos : 0 < r.cap := r.pos
    cases hfile : c.job.file with
    | none =>
      rw [Call.onDisk_of_none hfile]
      omega
    | some file =>
      have hle : (file.length : Int) ≤ r.cap := by
        rcases hinv with hinv | ⟨-, hnone⟩
        · exact htame.length_file_le hinv hfile
        · rw [hnone] at hfile
          cases hfile
      rw [Call.onDisk, hfile, Option.elim_some]
      omega
  | opened =>
    obtain ⟨held, hacq, hlo, hhi, hdisk, hrel⟩ := h.opened hstage
    have hgone : c.released = r.cap → c.onDisk ≤ c.acquired - c.released := by
      intro hall
      have hfile : c.job.file = none := by
        by_contra hf
        exact hc ⟨hstage, by omega, hf⟩
      rw [Call.onDisk_of_none hfile]
      omega
    rcases hrel with ⟨-, h1, -⟩ | ⟨-, h1, -⟩ | ⟨-, h1, -⟩
    · omega
    · exact hgone h1
    · exact hgone h1
  | refused =>
    obtain ⟨-, hrel, hfile, -⟩ := h.refused hstage
    rw [Call.onDisk_of_none hfile]
    omega
  | crashed => exact absurd hstage h.crashed

theorem ok_init (r : Request) : (Call.init r).Ok r where
  waiting _ := ⟨rfl, rfl, rfl, rfl, rfl, rfl⟩
  filling h := by cases h
  opened h := by cases h
  refused h := by cases h
  crashed h := by cases h

section

variable (h : c.Ok r)
include h

theorem Call.Ok.acquire (hstage : c.stage = .waiting) (htame : r.Tame) :
    Call.Ok { c with stage := .filling, acquired := r.cap } r := by
  obtain ⟨hjob, -, hrel, hclose⟩ := h.waiting hstage
  refine Call.Filling.ok ⟨htame, rfl, hrel, hclose, .inl ?_⟩ rfl
  rw [hjob]
  exact inv_start htame.range

theorem Call.Ok.cancel (hstage : c.stage = .waiting) :
    Call.Ok { c with stage := .refused } r := by
  obtain ⟨hjob, hacq, hrel, hclose⟩ := h.waiting hstage
  refine Call.Refused.ok ⟨Int.le_of_eq hacq.symm, ?_, ?_, hclose⟩ rfl
  · rw [hacq, hrel]
  · rw [hjob]
    rfl

theorem Call.Ok.new (hstage : c.stage = .filling) (hout : c.job.outcome = none) (rd : Read) :
    Call.Ok { c with job := c.job.step rd } r := by
  obtain ⟨htame, hacq, hrel, hclose, hinv⟩ := h.filling hstage
  replace hinv := hinv.resolve_right fun hfail => by
    rw [hout] at hfail
    cases hfail.1
  refine Call.Filling.ok ⟨htame, hacq, hrel, hclose, ?_⟩ hstage
  cases rd with
  | data k eof => exact .inl (hinv.step htame.range k eof)
  | fail =>
    cases heof : c.job.eof with
    | true =>
      -- at the end of the source nothing is read
      have hsame : c.job.step .fail = c.job.step (.data 0 false) := by
        simp only [Job.step, heof, if_true]
      exact .inl (hsame ▸ hinv.step htame.range 0 false)
    | false => exact .inr (by simp [Job.step, hout, heof])

theorem Call.Ok.settle {out : Outcome} (hstage : c.stage = .filling)
    (hout : c.job.outcome = some out) :
    (c.settle r.cap out).Ok r ∧ (c.settle r.cap out).held ≤ c.held := by
  obtain ⟨htame, hacq, hrel, hclose, hinv⟩ := h.filling hstage
  have hpos : 0 < r.cap := r.pos
  have hrefused : c.job.file = none →
      Call.Ok { c with stage := .refused, released := c.released + r.cap } r ∧
        Call.held { c with stage := .refused, released := c.released + r.cap } ≤ c.held := by
    intro hfile
    refine ⟨Call.Refused.ok ⟨by simp only [hacq]; omega, ?_, hfile, hclose⟩ rfl, ?_⟩
    · rw [hrel, hacq, Int.zero_add]
    · simp only [Call.held]
      omega
  rcases hinv with hinv | ⟨hfailed, hfile⟩
  · cases out with
    | spool sp =>
      obtain ⟨hfits, -, hsize, -, hwhole⟩ := hinv.spool sp hout
      have hle : (r.src.length : Int) ≤ r.cap := by
        by_contra hlong
        exact hfits ⟨hpos, by rw [Request.cap] at hlong; omega⟩
      have hlt := r.o.maxBytes.toInt_lt
      have hint : sp.size.toInt = r.src.length := by
        rw [hsize, Int64.toInt_ofNat_of_lt (by rw [Request.cap] at hle; omega)]
      have hexcess : c.released + (if 0 < r.cap - sp.size.toInt then r.cap - sp.size.toInt else 0) =
          r.cap - r.src.length := by
        rw [hrel, hint]
        split <;> omega
      have hdisk : c.onDisk ≤ r.src.length := by
        cases hfile : c.job.file with
        | none =>
          rw [Call.onDisk_of_none hfile]
          omega
        | some file =>
          rw [Call.onDisk, hfile, Option.elim_some, hwhole file hfile]
      refine ⟨Call.Opened.ok (n := r.src.length) ⟨hacq, by omega, hle, hdisk, .inl ?_⟩ rfl, ?_⟩
      · exact ⟨by rw [← hint]; rfl, hexcess, by rw [Call.settle, hclose.1]; omega, hclose.2.1⟩
      · simp only [Call.settle, Call.held, hexcess]
        omega
    | tooLarge => exact hrefused (hinv.tooLarge hout).2
    | failed => exact absurd hout hinv.running.1
    | panicked => exact absurd hout hinv.running.2
  · rw [hfailed] at hout
    cases hout
    exact hrefused hfile

theorem Call.Ok.close (hstage : c.stage = .opened) (hfree : c.atRelease = 0 ∧ c.atClear = 0) :
    Call.Ok (if c.release.isSome then { c with atRelease := c.atRelease + 1 }
      else { c with atSpool := c.atSpool + 1 }) r := by
  obtain ⟨held, hacq, hlo, hhi, hdisk, hrel⟩ := h.opened hstage
  split
  case isTrue hsome =>
    refine Call.Opened.ok (n := held) ⟨hacq, hlo, hhi, hdisk, .inl ?_⟩ hstage
    rcases hrel with ⟨h1, h2, -, h4⟩ | ⟨-, -, -, h4⟩ | ⟨h1, -⟩
    · exact ⟨h1, h2, by simp [hfree.1], h4⟩
    · omega
    · rw [h1] at hsome
      cases hsome
  case isFalse => exact Call.Opened.ok (n := held) ⟨hacq, hlo, hhi, hdisk, hrel⟩ hstage

theorem Call.Ok.stage_of_closing (hc : 0 < c.atRelease ∨ 0 < c.atClear ∨
    0 < c.atSpool) :
    c.stage = .opened := by
  have hnot : ¬ c.NoClose := by
    rintro ⟨h1, h2, h3⟩
    omega
  cases hstage : c.stage with
  | waiting => exact absurd (h.waiting hstage).2.2.2 hnot
  | filling => exact absurd (h.filling hstage).closers hnot
  | opened => rfl
  | refused => exact absurd (h.refused hstage).closers hnot
  | crashed => exact absurd hstage h.crashed

theorem Call.Ok.closeRelease {held : Int} (hc : 0 < c.atRelease)
    (hrelease : c.release = some held) :
    Call.Ok { c with
      atRelease := c.atRelease - 1, atClear := c.atClear + 1, released := c.released + held } r ∧
      0 ≤ held := by
  have hstage := h.stage_of_closing (.inl hc)
  obtain ⟨held', hacq, hlo, hhi, hdisk, hrel⟩ := h.opened hstage
  rcases hrel with ⟨h1, h2, h3, h4⟩ | ⟨-, -, h3, -⟩ | ⟨-, -, h3, -⟩
  · cases h1.symm.trans hrelease
    refine ⟨Call.Opened.ok (n := held) ⟨hacq, hlo, hhi, hdisk, .inr (.inl ?_)⟩ hstage, hlo⟩
    exact ⟨h1, by simp only [h2]; omega, by simp only; omega, by simp only; omega⟩
  · omega
  · omega

theorem Call.Ok.closeClear (hc : 0 < c.atClear) :
    Call.Ok { c with release := none, atClear := c.atClear - 1, atSpool := c.atSpool + 1 } r := by
  have hstage := h.stage_of_closing (.inr (.inl hc))
  obtain ⟨held, hacq, hlo, hhi, hdisk, hrel⟩ := h.opened hstage
  refine Call.Opened.ok (n := held) ⟨hacq, hlo, hhi, hdisk, .inr (.inr ?_)⟩ hstage
  rcases hrel with ⟨-, -, -, h4⟩ | ⟨-, h2, h3, h4⟩ | ⟨-, -, -, h4⟩
  · omega
  · exact ⟨rfl, h2, h3, by simp only; omega⟩
  · omega

theorem Call.Ok.closeSpool (hc : 0 < c.atSpool) :
    Call.Ok { c with atSpool := c.atSpool - 1, job := { c.job with file := none } } r := by
  have hstage := h.stage_of_closing (.inr (.inr hc))
  obtain ⟨held, hacq, hlo, hhi, -, hrel⟩ := h.opened hstage
  exact Call.Opened.ok (n := held) ⟨hacq, hlo, hhi, hlo, hrel⟩ hstage

/-! ## The budget -/

end

variable [Fintype ι]

def State.onDisk (s : State ι) : Int := ∑ i, (s.call i).onDisk

/-- What all calls hold is what is taken of the semaphore, and that is within the limit. -/
structure State.Inv (s : State ι) (req : ι → Request) (limit : Int) : Prop where
  call : ∀ i, (s.call i).Ok (req i)
  held : s.cur = ∑ i, (s.call i).held
  cur : s.cur ≤ limit
  disk : s.onDisk ≤ limit

theorem sum_update (g : Call → Int) (f : ι → Call) (i : ι) (c : Call) :
    ∑ k, g (Function.update f i c k) = ∑ k, g (f k) + (g c - g (f i)) := by
  rw [← Finset.add_sum_erase _ _ (Finset.mem_univ i), ← Finset.add_sum_erase _ (fun k => g (f k))
    (Finset.mem_univ i), Function.update_self]
  have hrest : ∑ k ∈ Finset.univ.erase i, g (Function.update f i c k) =
    ∑ k ∈ Finset.univ.erase i, g (f k) :=
    Finset.sum_congr rfl fun k hk => by rw [Function.update_of_ne (Finset.ne_of_mem_erase hk)]
  omega

theorem State.Inv.set (h : s.Inv req limit) (hok : c.Ok (req i)) (hcur : (s.set i c).cur ≤ limit)
    (hdisk : c.onDisk ≤ (s.call i).onDisk ∨ ¬ c.Lingers ∧ ∀ k, ¬ (s.call k).Lingers) :
    (s.set i c).Inv req limit := by
  have hcall : ∀ k, ((s.set i c).call k).Ok (req k) := 
    forall_update (Q := fun k (c : Call) => c.Ok (req k)) hok fun k _ => h.call k
  have hheld : (s.set i c).cur = ∑ k, ((s.set i c).call k).held := by
    simp only [State.set]
    rw [sum_update Call.held, h.held]
  refine ⟨hcall, hheld, hcur, ?_⟩
  rcases hdisk with hle | ⟨hc, hno⟩
  · have hsum : (s.set i c).onDisk = s.onDisk + (c.onDisk - (s.call i).onDisk) :=
      sum_update Call.onDisk _ _ _
    have := h.disk
    omega
  · have hno' : ∀ k, ¬ ((s.set i c).call k).Lingers :=
      forall_update (Q := fun _ (c : Call) => ¬ c.Lingers) hc fun k _ => hno k
    calc (s.set i c).onDisk ≤ ∑ k, ((s.set i c).call k).held :=
          Finset.sum_le_sum fun k _ => (hcall k).onDisk_le (hno' k)
      _ = (s.set i c).cur := hheld.symm
      _ ≤ limit := hcur

theorem State.Inv.set_le (h : s.Inv req limit) (hok : c.Ok (req i))
    (hheld : c.held ≤ (s.call i).held) (hdisk : c.onDisk ≤ (s.call i).onDisk) :
    (s.set i c).Inv req limit := by
  refine h.set hok ?_ (.inl hdisk)
  have := h.cur
  simp only [State.set]
  omega

theorem State.Inv.step {a : Action ι} {s' : State ι} (h : s.Inv req limit)
    (hallowed : Allowed req s a) (hstep : next req limit s a = some s') : s'.Inv req limit := by
  cases a with
  | acquire i =>
    obtain ⟨⟨hstage, hfits⟩, heq⟩ := Option.ite_none_right_eq_some.mp hstep
    cases heq
    obtain ⟨-, hacq, hrel, -⟩ := (h.call i).waiting hstage
    refine h.set ((h.call i).acquire hstage hallowed) ?_ (.inl (Int.le_refl _))
    simp only [State.set, Call.held]
    omega
  | cancel i =>
    obtain ⟨hstage, heq⟩ := Option.ite_none_right_eq_some.mp hstep
    cases heq
    exact h.set_le ((h.call i).cancel hstage) (Int.le_refl _) (Int.le_refl _)
  | new i r =>
    obtain ⟨⟨hstage, hout⟩, heq⟩ := Option.ite_none_right_eq_some.mp hstep
    cases heq
    refine h.set ((h.call i).new hstage hout r) (by simpa [State.set, Call.held] using h.cur) ?_
    rcases hallowed with hno | hle
    · refine .inr ⟨?_, hno⟩
      rintro ⟨hopened, -⟩
      cases hstage.symm.trans hopened
    · exact .inl hle
  | settle i =>
    obtain ⟨hstage, hmap⟩ := Option.ite_none_right_eq_some.mp hstep
    obtain ⟨out, hout, rfl⟩ := Option.map_eq_some_iff.mp hmap
    obtain ⟨hok, hheld⟩ := (h.call i).settle hstage hout
    refine h.set_le hok hheld ?_
    cases out <;> exact Int.le_refl _
  | close i =>
    obtain ⟨hstage, heq⟩ := Option.ite_none_right_eq_some.mp hstep
    cases heq
    refine h.set_le ((h.call i).close hstage hallowed) ?_ ?_
    · split <;> exact Int.le_refl _
    · split <;> exact Int.le_refl _
  | closeRelease i =>
    obtain ⟨hc, hmap⟩ := Option.ite_none_right_eq_some.mp hstep
    obtain ⟨held, hrelease, rfl⟩ := Option.map_eq_some_iff.mp hmap
    obtain ⟨hok, hlo⟩ := (h.call i).closeRelease hc hrelease
    refine h.set_le hok ?_ (Int.le_refl _)
    simp only [Call.held]
    omega
  | closeClear i =>
    obtain ⟨hc, heq⟩ := Option.ite_none_right_eq_some.mp hstep
    cases heq
    exact h.set_le ((h.call i).closeClear hc) (Int.le_refl _) (Int.le_refl _)
  | closeSpool i =>
    obtain ⟨hc, heq⟩ := Option.ite_none_right_eq_some.mp hstep
    cases heq
    refine h.set_le ((h.call i).closeSpool hc) (Int.le_refl _) ?_
    rw [Call.onDisk_of_none rfl, Call.onDisk]
    cases (s.call i).job.file with
    | none => exact Int.le_refl _
    | some file => exact Int.natCast_nonneg _

omit [DecidableEq ι] in
theorem inv_init (hlimit : 0 < limit) : (State.init req).Inv req limit := by
  refine ⟨fun i => ok_init (req i), ?_, hlimit.le, ?_⟩
  · simp [State.init, Call.init, Call.held]
  · have hzero : (State.init req).onDisk =
        0 := by simp [State.init, State.onDisk, Call.init, Call.onDisk, start]
    omega

structure Call.Balanced (c : Call) : Prop where
  nonneg : 0 ≤ c.released
  le : c.released ≤ c.acquired
  all : c.stage = .refused ∨ c.stage = .opened ∧ c.release = none → c.released = c.acquired

theorem Call.Ok.balanced (h : c.Ok r) : c.Balanced := by
  have hpos : 0 < r.cap := r.pos
  cases hstage : c.stage with
  | waiting =>
    obtain ⟨-, hacq, hrel, -⟩ := h.waiting hstage
    exact ⟨by omega, by omega, fun _ => by omega⟩
  | filling =>
    obtain ⟨-, hacq, hrel, -⟩ := h.filling hstage
    refine ⟨by omega, by omega, ?_⟩
    rintro (hs | ⟨hs, -⟩) <;> cases hstage.symm.trans hs
  | opened =>
    obtain ⟨held, hacq, hlo, hhi, -, hrel⟩ := h.opened hstage
    rcases hrel with ⟨h1, h2, -⟩ | ⟨-, h2, -⟩ | ⟨-, h2, -⟩
    · refine ⟨by omega, by omega, ?_⟩
      rintro (hs | ⟨-, hs⟩)
      · cases hstage.symm.trans hs
      · rw [h1] at hs
        cases hs
    · exact ⟨by omega, by omega, fun _ => by omega⟩
    · exact ⟨by omega, by omega, fun _ => by omega⟩
  | refused =>
    obtain ⟨hpos, hrel, -⟩ := h.refused hstage
    exact ⟨by omega, by omega, fun _ => hrel⟩
  | crashed => exact absurd hstage h.crashed

/-- In every run whose steps are allowed the files are within the limit in every state that is
reached, what is taken of the semaphore is what the calls have acquired and not released, and every
call releases what it has acquired once. -/
theorem disk_within_limit (req : ι → Request) (limit : Int) (hlimit : 0 < limit)
    (as : List (Action ι)) (s : State ι)
    (hallowed : (machine req limit).Along (Allowed req) (State.init req) as)
    (hrun : (machine req limit).run (State.init req) as = some s) :
    s.onDisk ≤ limit ∧ s.cur = ∑ i, ((s.call i).acquired - (s.call i).released) ∧
      ∀ i, (s.call i).Balanced := by
  have hinv : s.Inv req limit :=
    Machine.invariant_run (Allowed req) (fun s => s.Inv req limit)
      (fun _ _ _ h ha hs => h.step ha hs)
      (inv_init hlimit) hallowed hrun
  exact ⟨hinv.disk, hinv.held, fun i => (hinv.call i).balanced⟩

def fourBytes : Request := ⟨⟨2, 4, false⟩, [1, 2, 3, 4], by decide⟩

def lifecycle (i : ι) : List (Action ι) :=
  [.acquire i, .new i (.data 9 true), .new i (.data 9 true), .new i (.data 9 true),
    .new i (.data 9 true), .settle i, .close i, .closeRelease i, .closeClear i, .closeSpool i]

def sideBySide : List (Action Bool) :=
  ((lifecycle true).zip (lifecycle false)).flatMap fun p => [p.1, p.2]

theorem disk_within_limit_lifecycle :
    ∃ s, (machine (fun _ : Bool => fourBytes) 8).run (State.init fun _ => fourBytes) sideBySide =
      some s ∧
      s.onDisk ≤ 8 ∧ s.cur = ∑ i, ((s.call i).acquired - (s.call i).released) ∧
      ∀ i, (s.call i).Balanced := by
  have hsome : ((machine (fun _ : Bool => fourBytes) 8).run (State.init fun _ => fourBytes)
      sideBySide).isSome = true := by
    decide
  obtain ⟨s, hrun⟩ := Option.isSome_iff_exists.mp hsome
  exact ⟨s, hrun,
    disk_within_limit (fun _ : Bool => fourBytes) 8 (by decide) sideBySide s (by decide) hrun⟩

def fiveBytes : Request := ⟨⟨2, 4, false⟩, [1, 2, 3, 4, 5], by decide⟩

/-- One call on its own writes a byte more than its cap before it notices; and a second call is let
in, and writes, while the file of a closed spool is still there. -/
theorem disk_over_limit :
    ((machine (fun _ : Unit => fiveBytes) 4).run (State.init fun _ => fiveBytes)
      [.acquire (), .new () (.data 9 true), .new () (.data 9 true), .new () (.data 9 true)]).map
      State.onDisk = some 5 ∧
    ((machine (fun _ : Bool => fourBytes) 4).run (State.init fun _ => fourBytes)
      ((lifecycle true).take 8 ++ (lifecycle false).take 4)).map State.onDisk = some 8 := by
  decide

end GoAtlas.Spooling
