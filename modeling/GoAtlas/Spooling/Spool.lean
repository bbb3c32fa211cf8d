import GoAtlas.Lib.Bytes

/-!
# Spools

`spool.New` drains a source into memory, or into a file when there is more than the threshold. It
first reads one byte past the smaller of the threshold and the cap, and decides by what it got; the
rest goes to the file under a second bound. The run is cut at every `Read` of the source: a read
gives some of the bytes that fit, possibly none, and may tell the end of the source with the last of
them or later. Memory and disk suffice.
-/

namespace GoAtlas.Spooling

open Lib

structure Options where
  memThreshold : Int64
  /-- The cap; 0 is unlimited. -/
  maxBytes : Int64
  tee : Bool

/-- How far the first read goes, in the arithmetic of `int64`. -/
def Options.firstLimit (o : Options) : Int64 :=
  if 0 < o.maxBytes ∧ o.maxBytes + 1 < o.memThreshold + 1 then o.maxBytes + 1
    else o.memThreshold + 1

def maxHeadPrealloc : Int64 := 4096

/-- What the head is grown to before it is read. -/
def Options.headGrow (o : Options) : Int64 :=
  if o.firstLimit < maxHeadPrealloc then o.firstLimit else maxHeadPrealloc

structure Spool where
  bytes : Bytes
  size : Int64
  spilled : Bool
  deriving DecidableEq

inductive Outcome where
  | spool (sp : Spool)
  | tooLarge
  | failed
  /-- `Grow` of a negative count. -/
  | panicked
  deriving DecidableEq

/-- What one `Read` does: at most `k` bytes, and the end of the source if none are left. -/
inductive Read where
  | data (k : Nat) (eof : Bool)
  | fail
  deriving DecidableEq

structure Job where
  o : Options
  rest : Bytes
  head : Bytes
  file : Option Bytes
  teed : Bytes
  /-- The bound of the limited reader, if the reader is limited. -/
  left : Option Int
  /-- The reader has told its end. -/
  eof : Bool
  outcome : Option Outcome

variable {o : Options} {src : Bytes} {j : Job}

def start (o : Options) (src : Bytes) : Job where
  o := o
  rest := src
  head := []
  file := none
  teed := []
  left := some o.firstLimit.toInt
  eof := o.firstLimit ≤ 0
  outcome := if o.headGrow < 0 then some .panicked else none

def Job.chunk (j : Job) (k : Nat) : Bytes := j.rest.take (j.left.elim k fun n => min k n.toNat)

/-- A chunk is written to the head or the file, and to the tee. -/
def Job.read (j : Job) (k : Nat) (eof : Bool) : Job :=
  let c := j.chunk k
  let rest := j.rest.drop c.length
  let left := j.left.map (· - (c.length : Int))
  { j with
    rest, left
    head := if j.file.isNone then j.head ++ c else j.head
    file := j.file.map (· ++ c)
    teed := if j.o.tee then j.teed ++ c else j.teed
    eof := rest.isEmpty && eof || left.any (· ≤ 0) }

/-- After the first read: too large, kept in memory, or spilled to a file. -/
def Job.endHead (j : Job) : Job :=
  if 0 < j.o.maxBytes.toInt ∧
    j.o.maxBytes.toInt < j.head.length then { j with outcome := some .tooLarge }
  else if j.head.length ≤ j.o.memThreshold.toInt then
    { j with outcome := some (.spool ⟨j.head, Int64.ofNat j.head.length, false⟩) }
  else
    { j with
      file := some j.head
      left := if 0 < j.o.maxBytes.toInt then some (j.o.maxBytes - Int64.ofNat
        j.head.length + 1).toInt else none
      eof := 0 < j.o.maxBytes.toInt ∧ (j.o.maxBytes - Int64.ofNat j.head.length + 1).toInt ≤ 0 }

def Job.endSpill (j : Job) (file : Bytes) : Job :=
  let m := file.length - j.head.length
  if 0 < j.o.maxBytes.toInt ∧ (j.o.maxBytes - Int64.ofNat j.head.length).toInt < m then
    { j with file := none, outcome := some .tooLarge }
  else
    { j with outcome := some (.spool ⟨file, Int64.ofNat j.head.length + Int64.ofNat m, true⟩) }

/-- The next step of `New`, with what the source does if it is read. On a failure the file is
removed. -/
def Job.step (j : Job) (r : Read) : Job :=
  if j.outcome.isSome then j
  else if j.eof then j.file.elim j.endHead j.endSpill
  else match r with
    | .data k eof => j.read k eof
    | .fail => { j with file := none, outcome := some .failed }

/-- `New` on a source that is read as `reads` says and then as fast as it can be. -/
def new (o : Options) (src : Bytes) (reads : List Read) : Job :=
  (reads ++ List.replicate 4 (Read.data src.length true)).foldl Job.step (start o src)

/-! ## Runs -/

theorem toInt_add_of_range {a b : Int64} (hlo : -2 ^ 63 ≤ a.toInt + b.toInt)
    (hhi : a.toInt + b.toInt < 2 ^ 63) :
    (a + b).toInt = a.toInt + b.toInt := by
  rw [Int64.toInt_add]
  exact Int.bmod_eq_of_le (by omega) (by omega)

theorem toInt_sub_of_range {a b : Int64} (hlo : -2 ^ 63 ≤ a.toInt - b.toInt)
    (hhi : a.toInt - b.toInt < 2 ^ 63) :
    (a - b).toInt = a.toInt - b.toInt := by
  rw [Int64.toInt_sub]
  exact Int.bmod_eq_of_le (by omega) (by omega)

theorem toInt_add_one {a : Int64} (h : a ≠ Int64.maxValue) : (a + 1).toInt = a.toInt + 1 := by
  have hne : a.toInt ≠ Int64.maxValue.toInt := fun heq => h (Int64.toInt_inj.mp heq)
  have hlt := a.toInt_lt
  have hle := a.le_toInt
  rw [Int64.toInt_maxValue] at hne
  have hone : (1 : Int64).toInt = 1 := rfl
  rw [toInt_add_of_range (by omega) (by omega), hone]

/-- Options that the first bound can be computed for. -/
structure Options.InRange (o : Options) : Prop where
  nonneg : 0 ≤ o.memThreshold.toInt
  threshold : o.memThreshold ≠ Int64.maxValue
  cap : o.maxBytes ≠ Int64.maxValue

/-- There is a cap and the source is longer. -/
def Exceeds (o : Options) (src : Bytes) : Prop :=
  0 < o.maxBytes.toInt ∧ o.maxBytes.toInt < src.length

theorem firstLimit_eq (h : o.InRange) :
    o.firstLimit.toInt =
      if 0 < o.maxBytes.toInt ∧ o.maxBytes.toInt < o.memThreshold.toInt then o.maxBytes.toInt + 1
      else o.memThreshold.toInt + 1 := by
  have hzero : (0 : Int64).toInt = 0 := rfl
  simp only [Options.firstLimit, Int64.lt_iff_toInt_lt, toInt_add_one h.threshold,
    toInt_add_one h.cap, hzero, Int.add_lt_add_iff_right]
  split
  · exact toInt_add_one h.cap
  · exact toInt_add_one h.threshold

theorem firstLimit_pos (h : o.InRange) : 0 < o.firstLimit.toInt := by
  have := h.nonneg
  rw [firstLimit_eq h]
  split <;> omega

/-- What has been read and what is left make up the source, and the bounds are what is left of
them. -/
structure Job.Inv (j : Job) (o : Options) (src : Bytes) : Prop where
  opts : j.o = o
  reading : j.outcome = none → j.file = none →
    j.head ++ j.rest = src ∧ (o.tee = true → j.teed = j.head) ∧
    j.left = some (o.firstLimit.toInt - j.head.length) ∧
      (j.head.length : Int) ≤ o.firstLimit.toInt ∧
    (j.eof = true → j.rest = [] ∨ (j.head.length : Int) = o.firstLimit.toInt)
  spilling : ∀ file, j.outcome = none → j.file = some file →
    file ++ j.rest = src ∧ (o.tee = true → j.teed = file) ∧ j.head.length ≤ file.length ∧
    o.memThreshold.toInt < j.head.length ∧
    (0 < o.maxBytes.toInt → (file.length : Int) ≤ o.maxBytes.toInt + 1 ∧
      (j.head.length : Int) ≤ o.maxBytes.toInt) ∧
    j.left = (if 0 < o.maxBytes.toInt then some (o.maxBytes.toInt + 1 - file.length) else none) ∧
    (j.eof = true → j.rest = [] ∨ 0 < o.maxBytes.toInt ∧ (file.length : Int) = o.maxBytes.toInt + 1)
  spool : ∀ sp, j.outcome = some (.spool sp) →
    ¬ Exceeds o src ∧ sp.bytes = src ∧ sp.size = Int64.ofNat src.length ∧
    (o.tee = true → j.teed = src) ∧
    ∀ file, j.file = some file → file = src
  tooLarge : j.outcome = some .tooLarge → Exceeds o src ∧ j.file = none
  running : j.outcome ≠ some .failed ∧ j.outcome ≠ some .panicked

theorem Job.Inv.of_tooLarge (ho : j.o = o) (hout : j.outcome = some .tooLarge) (hex : Exceeds o src)
    (hfile : j.file = none) : j.Inv o src := by
  refine ⟨ho, fun hn => ?_, fun _ hn => ?_, fun sp hsp => ?_, fun _ => ⟨hex, hfile⟩, by simp [hout]⟩
  · cases hout.symm.trans hn
  · cases hout.symm.trans hn
  · cases hout.symm.trans hsp

theorem Job.Inv.of_spool {sp : Spool} (ho : j.o = o) (hout : j.outcome = some (.spool sp))
    (hex : ¬ Exceeds o src) (hbytes : sp.bytes = src) (hsize : sp.size = Int64.ofNat src.length)
    (htee : o.tee = true → j.teed = src) (hfile : ∀ file, j.file = some file → file = src) :
    j.Inv o src := by
  refine ⟨ho, fun hn => ?_, fun _ hn => ?_, fun sp' hsp => ?_, fun hl => ?_, by simp [hout]⟩
  · cases hout.symm.trans hn
  · cases hout.symm.trans hn
  · cases hout.symm.trans hsp
    exact ⟨hex, hbytes, hsize, htee, hfile⟩
  · cases hout.symm.trans hl

theorem inv_start (h : o.InRange) : (start o src).Inv o src := by
  have hpos := firstLimit_pos h
  have hzero : (0 : Int64).toInt = 0 := rfl
  have hnone : (start o src).outcome = none := by
    have hgrow : ¬ o.headGrow < 0 := by
      rw [Options.headGrow, Int64.lt_iff_toInt_lt, hzero]
      split
      · omega
      · decide
    exact if_neg hgrow
  have heof : (start o src).eof = false := by
    simp only [start, decide_eq_false_iff_not, Int64.le_iff_toInt_le, hzero]
    omega
  refine ⟨rfl, fun _ _ => ⟨rfl, fun _ => rfl, ?_, by simpa [start] using hpos.le, by simp [heof]⟩,
    ?_, ?_, ?_, ?_⟩
  · simp [start]
  · intro file _ hfile
    cases hfile
  · intro sp hsp
    rw [hnone] at hsp
    cases hsp
  · intro hlarge
    rw [hnone] at hlarge
    cases hlarge
  · rw [hnone]
    exact ⟨by simp, by simp⟩

theorem chunk_append_drop (j : Job) (k : Nat) :
    j.chunk k ++ j.rest.drop (j.chunk k).length = j.rest := by
  rw [Job.chunk, List.length_take]
  rcases Nat.le_total (j.left.elim k fun n => min k n.toNat) j.rest.length with h | h
  · rw [Nat.min_eq_left h, List.take_append_drop]
  · rw [Nat.min_eq_right h, List.take_of_length_le h, List.drop_length, List.append_nil]

theorem length_chunk_le {k : Nat} {n : Int} (hleft : j.left = some n) (hn : 0 ≤ n) :
    ((j.chunk k).length : Int) ≤ n := by
  rw [Job.chunk, hleft, Option.elim_some, List.length_take]
  omega

theorem Job.Inv.read (h : j.Inv o src) (hnone : j.outcome = none) (k : Nat) (eof : Bool) :
    (j.read k eof).Inv o src := by
  have hsplit := chunk_append_drop j k
  refine ⟨h.opts, ?_, ?_, ?_, ?_, ?_⟩
  · intro _ hfile
    have hfile : j.file = none := by simpa [Job.read] using hfile
    obtain ⟨hsrc, htee, hleft, hle, -⟩ := h.reading hnone hfile
    have hlen := length_chunk_le (k := k) hleft (by omega)
    simp only [Job.read, hfile, Option.isNone_none, if_true, h.opts, hleft, Option.map_some,
      Option.any_some, List.length_append, Bool.or_eq_true, Bool.and_eq_true, decide_eq_true_eq,
      List.isEmpty_iff]
    refine ⟨by rw [List.append_assoc, hsplit, hsrc], ?_, by push_cast; congr 1; omega,
      by push_cast; omega, ?_⟩
    · intro ht
      rw [if_pos ht, htee ht]
    · rintro (⟨hrest, -⟩ | hend)
      · exact .inl hrest
      · right
        push_cast
        omega
  · intro file _ hfile
    simp only [Job.read, Option.map_eq_some_iff] at hfile
    obtain ⟨file, hfile, rfl⟩ := hfile
    obtain ⟨hsrc, htee, hhead, hmore, hcap, hleft, -⟩ := h.spilling file hnone hfile
    have hlen : 0 < o.maxBytes.toInt →
        ((j.chunk k).length : Int) ≤ o.maxBytes.toInt + 1 - file.length := by
      intro hpos
      rw [if_pos hpos] at hleft
      exact length_chunk_le hleft (by have := (hcap hpos).1; omega)
    simp only [Job.read, hfile, Option.isNone_some, Bool.false_eq_true, if_false, h.opts, hleft,
      List.length_append, Bool.or_eq_true, Bool.and_eq_true, List.isEmpty_iff]
    refine ⟨by rw [List.append_assoc, hsplit, hsrc], ?_, by omega, hmore, ?_, ?_, ?_⟩
    · intro ht
      rw [if_pos ht, htee ht]
    · intro hpos
      have := hlen hpos
      have := (hcap hpos).2
      push_cast
      omega
    · split
      · simp only [Option.map_some, Option.some.injEq]
        push_cast
        omega
      · rfl
    · rintro (⟨hrest, -⟩ | hend)
      · exact .inl hrest
      · right
        split at hend
        case isTrue hpos =>
          have := hlen hpos
          simp only [Option.map_some, Option.any_some, decide_eq_true_eq] at hend
          push_cast
          exact ⟨hpos, by omega⟩
        case isFalse => cases hend
  · intro sp hsp
    exact absurd (hnone.symm.trans hsp) (by simp)
  · intro hlarge
    exact absurd (hnone.symm.trans hlarge) (by simp)
  · exact ⟨fun hf => absurd (hnone.symm.trans hf) (by simp),
      fun hf => absurd (hnone.symm.trans hf) (by simp)⟩

theorem toInt_copyBound {n : Nat} (ho : o.InRange) (hn : (n : Int) ≤ o.maxBytes.toInt) :
    (o.maxBytes - Int64.ofNat n).toInt = o.maxBytes.toInt - n ∧
      (o.maxBytes - Int64.ofNat n + 1).toInt = o.maxBytes.toInt - n + 1 := by
  have hlt := o.maxBytes.toInt_lt
  have hnat : (Int64.ofNat n).toInt = n := Int64.toInt_ofNat_of_lt (by omega)
  have hsub : (o.maxBytes - Int64.ofNat n).toInt = o.maxBytes.toInt - n := by
    rw [toInt_sub_of_range (by omega) (by omega), hnat]
  refine ⟨hsub, ?_⟩
  rw [toInt_add_one, hsub]
  intro hmax
  rw [hmax, Int64.toInt_maxValue] at hsub
  exact ho.cap (Int64.toInt_inj.mp (by rw [Int64.toInt_maxValue]; omega))

theorem Job.Inv.endHead (h : j.Inv o src) (ho : o.InRange) (hnone : j.outcome = none)
    (hfile : j.file = none) (heof : j.eof = true) : j.endHead.Inv o src := by
  obtain ⟨hsrc, htee, hleft, hle, hend⟩ := h.reading hnone hfile
  have hsrclen : j.head.length + j.rest.length = src.length := by rw [← hsrc, List.length_append]
  have hfirst := firstLimit_eq ho
  unfold Job.endHead
  split
  case isTrue hlarge =>
    rw [h.opts] at hlarge
    exact .of_tooLarge h.opts rfl ⟨hlarge.1, by omega⟩ hfile
  case isFalse hsmall =>
    rw [h.opts] at hsmall
    split
    case isTrue hmem =>
      rw [h.opts] at hmem
      -- less than the first bound was read, so nothing is left
      have hrest : j.rest = [] := by
        rcases hend heof with hrest | hall
        · exact hrest
        · rw [hall, hfirst] at hmem
          rw [hall, hfirst] at hsmall
          split at hmem <;> omega
      have hwhole : j.head = src := by rw [← hsrc, hrest, List.append_nil]
      refine .of_spool h.opts rfl (fun hex => hsmall ⟨hex.1, by rw [hwhole]; exact hex.2⟩) hwhole
        (by rw [hwhole])
        (fun ht => (htee ht).trans hwhole) fun file hf => ?_
      cases hfile.symm.trans hf
    case isFalse hmem =>
      rw [h.opts] at hmem
      have hnonneg := ho.nonneg
      have hcopy : 0 < o.maxBytes.toInt → (j.head.length : Int) ≤ o.maxBytes.toInt ∧
          (o.maxBytes - Int64.ofNat j.head.length + 1).toInt =
            o.maxBytes.toInt - j.head.length + 1 := fun hpos =>
        ⟨by omega, (toInt_copyBound ho (by omega)).2⟩
      refine ⟨h.opts, fun _ hn => ?_, ?_, fun sp hsp => ?_, fun hl => ?_, ?_⟩
      · cases hn
      · intro file _ hf
        cases hf
        simp only [h.opts]
        refine ⟨hsrc, htee,
          Nat.le_refl _, by
          omega, fun hpos => ⟨by have := hcopy hpos; omega, (hcopy hpos).1⟩, ?_, ?_⟩
        · split
          case isTrue hpos =>
            rw [(hcopy hpos).2]
            congr 1
            omega
          case isFalse => rfl
        · intro he
          simp only [decide_eq_true_eq] at he
          have := hcopy he.1
          omega
      · exact absurd (hnone.symm.trans hsp) (by simp)
      · exact absurd (hnone.symm.trans hl) (by simp)
      · exact h.running

theorem Job.Inv.endSpill {file : Bytes} (h : j.Inv o src) (ho : o.InRange)
    (hnone : j.outcome = none) (hfile : j.file = some file) (heof : j.eof = true) :
    (j.endSpill file).Inv o src := by
  obtain ⟨hsrc, htee, hhead, -, hcap, -, hend⟩ := h.spilling file hnone hfile
  have hsrclen : file.length + j.rest.length = src.length := by rw [← hsrc, List.length_append]
  have hrem : 0 < o.maxBytes.toInt → (o.maxBytes - Int64.ofNat j.head.length).toInt =
    o.maxBytes.toInt - j.head.length :=
    fun hpos => (toInt_copyBound ho (hcap hpos).2).1
  simp only [Job.endSpill]
  split
  case isTrue hlarge =>
    rw [h.opts] at hlarge
    have := hrem hlarge.1
    exact .of_tooLarge h.opts rfl ⟨hlarge.1, by omega⟩ rfl
  case isFalse hsmall =>
    rw [h.opts] at hsmall
    have hrest : j.rest = [] := by
      rcases hend heof with hrest | ⟨hpos, hall⟩
      · exact hrest
      · exact absurd ⟨hpos, by have := hrem hpos; have := (hcap hpos).2; omega⟩ hsmall
    have hwhole : file = src := by rw [← hsrc, hrest, List.append_nil]
    refine .of_spool h.opts rfl (fun hex => hsmall ⟨hex.1, ?_⟩) hwhole ?_
      (fun ht => (htee ht).trans hwhole) fun file' hf => ?_
    · have := hrem hex.1
      have := hex.2
      rw [hwhole]
      rw [hwhole] at hhead
      omega
    · rw [← Int64.ofNat_add, Nat.add_sub_cancel' hhead, hwhole]
    · cases hfile.symm.trans hf
      exact hwhole

theorem Job.Inv.step (h : j.Inv o src) (ho : o.InRange) (k : Nat) (eof : Bool) :
    (j.step (.data k eof)).Inv o src := by
  unfold Job.step
  split
  case isTrue => exact h
  case isFalse hrunning =>
    have hnone : j.outcome = none := by simpa using hrunning
    split
    case isTrue heof =>
      cases hfile : j.file with
      | none => exact h.endHead ho hnone hfile heof
      | some file => exact h.endSpill ho hnone hfile heof
    case isFalse => exact h.read hnone k eof

theorem Job.Inv.run {reads : List Read} (h : j.Inv o src) (ho : o.InRange)
    (hreads : .fail ∉ reads) :
    (reads.foldl Job.step j).Inv o src := by
  induction reads generalizing j with
  | nil => exact h
  | cons r reads ih =>
    rw [List.mem_cons, not_or] at hreads
    cases r with
    | data k eof => exact ih (h.step ho k eof) hreads.2
    | fail => exact absurd rfl hreads.1

/-! ## Every call returns -/

/-- How many more steps a source that gives all it has needs. -/
def Job.steps (j : Job) : Nat :=
  if j.outcome.isSome then 0
  else (if j.file.isSome then 1 else 3) + (if j.eof then 0 else 1)

theorem Job.Inv.steps_step (h : j.Inv o src) :
    (j.step (.data src.length true)).steps ≤ j.steps - 1 := by
  unfold Job.step
  split
  case isTrue hdone => simp [Job.steps, hdone]
  case isFalse hrunning =>
    have hnone : j.outcome = none := by simpa using hrunning
    split
    case isTrue heof =>
      cases hfile : j.file with
      | none =>
        have hsteps : j.steps = 3 := by simp [Job.steps, hnone, hfile, heof]
        rw [hsteps]
        simp only [Option.elim_none, Job.endHead]
        split
        · simp [Job.steps]
        · split
          · simp [Job.steps]
          · simp only [Job.steps, hnone, Option.isSome_none, Option.isSome_some, Bool.false_eq_true,
              if_true, if_false]
            split <;> omega
      | some file =>
        simp only [Option.elim_some, Job.endSpill]
        split <;> simp [Job.steps]
    case isFalse heof =>
      have heof : j.eof = false := by simpa using heof
      -- all that fits is read: the source is at its end or the bound is reached
      have hend : (j.read src.length true).eof = true := by
        have hrest : j.rest.length ≤ src.length := by
          cases hfile : j.file with
          | none => rw [← (h.reading hnone hfile).1, List.length_append]; omega
          | some file => rw [← (h.spilling file hnone hfile).1, List.length_append]; omega
        simp only [Job.read, Job.chunk, Bool.or_eq_true, Bool.and_eq_true, List.isEmpty_iff,
          List.drop_eq_nil_iff, List.length_take, and_true]
        cases hleft : j.left with
        | none =>
          left
          simp only [Option.elim_none]
          omega
        | some n =>
          simp only [Option.elim_some, Option.map_some, Option.any_some, decide_eq_true_eq]
          omega
      have hout : (j.read src.length true).outcome = none := hnone
      have hfile : (j.read src.length true).file.isSome = j.file.isSome := by simp [Job.read]
      simp only [Job.steps, hout, hnone, hend, heof, hfile]
      simp

theorem Job.Inv.done {n : Nat} (h : j.Inv o src) (ho : o.InRange) (hn : j.steps ≤ n) :
    ((List.replicate n (Read.data src.length true)).foldl Job.step j).outcome.isSome = true := by
  induction n generalizing j with
  | zero =>
    by_contra hnot
    simp only [List.replicate_zero, List.foldl_nil] at hnot
    simp [Job.steps, hnot] at hn
    split at hn <;> omega
  | succ n ih =>
    rw [List.replicate_succ, List.foldl_cons]
    exact ih (h.step ho _ _) (by have := h.steps_step; omega)

/-! ## Results -/

theorem new_spec (ho : o.InRange) {reads : List Read} (hreads : .fail ∉ reads) :
    (Exceeds o src → (new o src reads).outcome = some .tooLarge) ∧
    (¬ Exceeds o src → ∃ sp, (new o src reads).outcome = some (.spool sp) ∧ sp.bytes = src ∧
      sp.size = Int64.ofNat src.length ∧ (o.tee = true → (new o src reads).teed = src)) := by
  have hinv : (new o src reads).Inv o src :=
    (inv_start ho).run ho (by simp [hreads])
  have hdone : (new o src reads).outcome.isSome = true := by
    have hread : (reads.foldl Job.step (start o src)).Inv o src := (inv_start ho).run ho hreads
    rw [new, List.foldl_append]
    refine hread.done ho ?_
    unfold Job.steps
    split
    · omega
    · split <;> split <;> omega
  obtain ⟨out, hout⟩ := Option.isSome_iff_exists.mp hdone
  cases out with
  | spool sp =>
    obtain ⟨hfits, hbytes, hsize, htee, -⟩ := hinv.spool sp hout
    exact ⟨fun h => absurd h hfits, fun _ => ⟨sp, hout, hbytes, hsize, htee⟩⟩
  | tooLarge => exact ⟨fun _ => hout, fun h => absurd (hinv.tooLarge hout).1 h⟩
  | failed => exact absurd hout hinv.running.1
  | panicked => exact absurd hout hinv.running.2

theorem new_panics (h : o.memThreshold = Int64.maxValue ∨ 0 ≤ o.memThreshold.toInt ∧
    o.maxBytes = Int64.maxValue)
    (reads : List Read) : (new o src reads).outcome = some .panicked := by
  have hlimit : o.firstLimit = Int64.minValue := by
    have hwrap : Int64.maxValue + 1 = Int64.minValue := by decide
    unfold Options.firstLimit
    by_cases ht : o.memThreshold = Int64.maxValue
    · rw [ht, hwrap, if_neg]
      rintro ⟨-, hlt⟩
      have := (o.maxBytes + 1).le_toInt
      rw [Int64.lt_iff_toInt_lt, Int64.toInt_minValue] at hlt
      omega
    · obtain ⟨hnonneg, hcap⟩ := h.resolve_left ht
      rw [hcap, hwrap, if_pos]
      refine ⟨by decide, ?_⟩
      rw [Int64.lt_iff_toInt_lt, toInt_add_one ht, Int64.toInt_minValue]
      omega
  have hstart : (start o src).outcome = some .panicked := by
    simp only [start, Options.headGrow, hlimit]
    rfl
  have hstay : ∀ (rs : List Read) (j : Job), j.outcome = some .panicked →
      (rs.foldl Job.step j).outcome = some .panicked := by
    intro rs
    induction rs with
    | nil => exact fun _ h => h
    | cons r rs ih =>
      intro j hj
      refine ih _ ?_
      unfold Job.step
      rw [if_pos (by simp [hj])]
      exact hj
  exact hstay _ _ hstart

/-- What a spool of the source is to be: all of it if it is at most the cap long, and too large
otherwise. -/
def Right (o : Options) (src : Bytes) (j : Job) : Prop :=
  if o.maxBytes = 0 ∨ (src.length : Int) ≤ o.maxBytes.toInt then
    ∃ sp, j.outcome = some (.spool sp) ∧ sp.bytes = src ∧ sp.size.toInt = src.length ∧
      (o.tee = true → j.teed = src)
  else j.outcome = some .tooLarge

/-- For every source, every way to read it without an error and every threshold that is not
negative, a spool is right if and only if neither option is the largest number and the cap is not
negative (and a source without a cap is not so long that its size is no number). -/
theorem new_right_iff (o : Options) (src : Bytes) (reads : List Read) (ht : 0 ≤ o.memThreshold)
    (hreads : .fail ∉ reads) :
    Right o src (new o src reads) ↔
      o.memThreshold < Int64.maxValue ∧ 0 ≤ o.maxBytes ∧ o.maxBytes < Int64.maxValue ∧
        (o.maxBytes = 0 → src.length < 2 ^ 63) := by
  have hzero : (0 : Int64).toInt = 0 := rfl
  have hnonneg : 0 ≤ o.memThreshold.toInt := Int64.le_iff_toInt_le.mp ht
  have hlt : ∀ a : Int64, a < Int64.maxValue ↔ a ≠ Int64.maxValue := by
    intro a
    have := a.toInt_lt
    rw [Int64.lt_iff_toInt_lt, ne_eq, ← Int64.toInt_inj, Int64.toInt_maxValue]
    omega
  have hsize : ∀ n : Nat, (Int64.ofNat n).toInt = n ↔ n < 2 ^ 63 := by
    intro n
    refine ⟨fun h => ?_, Int64.toInt_ofNat_of_lt⟩
    have := (Int64.ofNat n).toInt_lt
    omega
  rw [hlt, hlt]
  by_cases hbad : o.memThreshold = Int64.maxValue ∨ o.maxBytes = Int64.maxValue
  · -- a panic is neither
    have hpanic : (new o src reads).outcome = some .panicked :=
      new_panics (hbad.imp_right fun h => ⟨hnonneg, h⟩) reads
    refine ⟨fun h => ?_, fun h => absurd hbad (by simp [h.1, h.2.2.1])⟩
    unfold Right at h
    split at h
    · obtain ⟨sp, hsp, -⟩ := h
      rw [hpanic] at hsp
      cases hsp
    · rw [hpanic] at h
      cases h
  · obtain ⟨hthreshold, hcap⟩ := not_or.mp hbad
    have hin : o.InRange := ⟨hnonneg, hthreshold, hcap⟩
    obtain ⟨hlarge, hfits⟩ := new_spec hin hreads
    have hcapzero : o.maxBytes = 0 ↔ o.maxBytes.toInt = 0 := by rw [← Int64.toInt_inj, hzero]
    have hcaplt := o.maxBytes.toInt_lt
    rw [Int64.le_iff_toInt_le, hzero, hcapzero]
    simp only [Right, hcapzero]
    by_cases hex : Exceeds o src
    · rw [if_neg (by have := hex.1; have := hex.2; omega)]
      have := hex.1
      exact ⟨fun _ => ⟨hthreshold, by omega, hcap, by omega⟩, fun _ => hlarge hex⟩
    · obtain ⟨sp, hsp, hbytes, hspsize, htee⟩ := hfits hex
      have hex' : ¬ (0 < o.maxBytes.toInt ∧ o.maxBytes.toInt < src.length) := hex
      rcases Int.lt_or_le o.maxBytes.toInt 0 with hneg | hpos
      · rw [if_neg (by omega), hsp]
        constructor
        · intro h
          cases h
        · intro h
          omega
      · rw [if_pos (by omega)]
        constructor
        · rintro ⟨sp', hsp', -, hsize', -⟩
          rw [hsp] at hsp'
          cases hsp'
          rw [hspsize, hsize] at hsize'
          exact ⟨hthreshold, hpos, hcap, fun _ => hsize'⟩
        · rintro ⟨-, -, -, hshort⟩
          exact ⟨sp, hsp, hbytes, by rw [hspsize, hsize]; omega, htee⟩

theorem new_right_iff_spilled :
    Right ⟨2, 10, true⟩ [1, 2, 3, 4, 5]
      (new ⟨2, 10, true⟩ [1, 2, 3, 4, 5] [.data 1 false, .data 0 false]) :=
  (new_right_iff ⟨2, 10, true⟩ [1, 2, 3, 4, 5] [.data 1 false, .data 0 false] (by decide)
    (by decide)).mpr
    ⟨by decide, by decide, by decide, by decide⟩

/-- With the largest threshold, or the largest cap, nothing is spooled. -/
theorem new_panics_at_max :
    (new ⟨Int64.maxValue, 0, false⟩ [1] []).outcome = some .panicked ∧
    (new ⟨4194304, Int64.maxValue, false⟩ [1] []).outcome = some .panicked ∧
    ¬ Right ⟨Int64.maxValue, 0, false⟩ [1] (new ⟨Int64.maxValue, 0, false⟩ [1] []) := by
  have hpanic : (new ⟨Int64.maxValue, 0, false⟩ [1] []).outcome = some .panicked := by decide
  refine ⟨hpanic, by decide, fun h => ?_⟩
  rw [Right, if_pos (.inl rfl)] at h
  obtain ⟨sp, hsp, -⟩ := h
  rw [hpanic] at hsp
  cases hsp

end GoAtlas.Spooling
