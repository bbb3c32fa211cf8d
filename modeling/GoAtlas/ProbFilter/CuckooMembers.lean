import Mathlib.Algebra.BigOperators.Ring.Finset
import Mathlib.Data.Multiset.Basic
import Mathlib.Algebra.BigOperators.Group.Multiset.Basic
import Mathlib.Data.Nat.Bitwise
import GoAtlas.ProbFilter.Cuckoo

/-!
# A cuckoo filter has no false negatives

Up to moves of fingerprints to their other bucket, the table is the bag of the values inserted and
not removed: every weight that such moves keep is the same for both. The weight of a value's own
fingerprint in its own buckets then says that the value is found, and the weight of every
fingerprint that the count is right.
-/

namespace GoAtlas.ProbFilter.Cuckoo

open Lib SlotTable

/-! ## Fingerprints and buckets -/

theorem xor_masked_twice {m k i : Nat} (hm : m + 1 = 2 ^ k) (hi : i < m + 1) (x : Nat) :
    (((i ^^^ x) &&& m) ^^^ x) &&& m = i := by
  have hmask : i &&& m = i := by
    rw [show m = 2 ^ k - 1 by omega, Nat.and_two_pow_sub_one_eq_mod]
    exact Nat.mod_eq_of_lt (hm ▸ hi)
  rw [Nat.and_xor_distrib_right, Nat.and_assoc, Nat.and_self, Nat.and_xor_distrib_right, hmask,
    Nat.xor_assoc, Nat.xor_self, Nat.xor_zero]

theorem Bucket.slotOf?_eq_some {b : Bucket} {fp : Fingerprint} {s : Fin bucketSize}
    (h : b.slotOf? fp = some s) : b s = fp := by
  simpa using List.find?_some h

theorem Bucket.has_iff {b : Bucket} {fp : Fingerprint} : b.has fp = true ↔ ∃ s, b s = fp := by
  simp [Bucket.has, Bucket.slotOf?, List.mem_finRange]

theorem Layout.fingerprint_ne_zero (l : Layout) (value : String) : l.fingerprint value ≠ 0 := by
  intro h
  have h := congrArg UInt8.toNat h
  simp only [fingerprint, fingerprintValues, UInt8.toNat_add, UInt8.toNat_mod] at h
  have hlt : (l.hash value >>> fingerprintShift).toUInt8.toNat % 255 < 255 :=
    Nat.mod_lt _ (by decide)
  simp at h
  omega

/-- The fingerprint and the two buckets of the values are the same. -/
def Layout.Alike (l : Layout) (v value : String) : Prop :=
  l.fingerprint v = l.fingerprint value ∧
    (l.home v = l.home value ∨ l.home v = l.alt (l.home value) (l.fingerprint value))

theorem Layout.alt_alt (l : Layout) (i : l.Index) (fp : Fingerprint) :
    l.alt (l.alt i fp) fp = i := by
  obtain ⟨k, hk⟩ := l.pow
  exact Fin.ext (xor_masked_twice hk i.isLt _)

namespace CuckooFilter

variable {l : Layout} {f g : CuckooFilter l} {i : l.Index} {s : Fin bucketSize} {fp : Fingerprint}
  {μ : l.Index → Fingerprint → Nat}

theorem put_eq_some (h : f.put i fp = some g) : ∃ s, f.buckets i s = 0 ∧ g = f.store i s fp := by
  obtain ⟨s, hs, rfl⟩ := Option.map_eq_some_iff.mp h
  exact ⟨s, Bucket.slotOf?_eq_some hs, rfl⟩

theorem clear_eq_some (h : f.clear i fp = some g) :
    ∃ s, f.buckets i s = fp ∧ g = f.store i s 0 := by
  obtain ⟨s, hs, rfl⟩ := Option.map_eq_some_iff.mp h
  exact ⟨s, Bucket.slotOf?_eq_some hs, rfl⟩

theorem clear_eq_none (h : f.clear i fp = none) (s : Fin bucketSize) : f.buckets i s ≠ fp := by
  intro hs
  have hhas : (f.buckets i).has fp = true := Bucket.has_iff.mpr ⟨s, hs⟩
  rw [Bucket.has, Option.map_eq_none_iff.mp h] at hhas
  cases hhas

/-! ## What the operations do to a weight -/

def weight (f : CuckooFilter l) (μ : l.Index → Fingerprint → Nat) : Nat := total μ f.buckets

theorem weight_store (f : CuckooFilter l) (i : l.Index) (s : Fin bucketSize) (fp : Fingerprint)
    (μ : l.Index → Fingerprint → Nat) :
    (f.store i s fp).weight μ + μ i (f.buckets i s) = f.weight μ + μ i fp :=
  total_write μ

/-- Up to moves, `g` has one entry more than `f`: `fp` in bucket `i`. -/
structure Gains (f : CuckooFilter l) (i : l.Index) (fp : Fingerprint) (g : CuckooFilter l) :
    Prop where
  count : g.count = f.count + 1
  weight : ∀ μ, Movable l.alt 0 μ → g.weight μ = f.weight μ + μ i fp

theorem gains_put (h : f.put i fp = some g) : f.Gains i fp { g with count := g.count + 1 } := by
  obtain ⟨s, hs, rfl⟩ := put_eq_some h
  refine ⟨rfl, fun μ hμ => ?_⟩
  have hw := f.weight_store i s fp μ
  rwa [hs, hμ.empty, Nat.add_zero] at hw

theorem Gains.of_kick (h : (f.store i s fp).Gains (l.alt i (f.buckets i s)) (f.buckets i s) g) :
    f.Gains i fp g := by
  refine ⟨h.count, fun μ hμ => ?_⟩
  rw [h.weight μ hμ, hμ.alt, weight_store]

@[simp] theorem store_back (f : CuckooFilter l) (i : l.Index) (s : Fin bucketSize)
    (fp : Fingerprint) : (f.store i s fp).store i s (f.buckets i s) = f := by
  simp [store]

theorem undo_kick (f : CuckooFilter l) (kicks : List (Kick l.Index)) (i : l.Index)
    (s : Fin bucketSize) (fp : Fingerprint) :
    (f.store i s fp).undo (kicks ++ [⟨i, s, f.buckets i s⟩]) = f.undo kicks := by
  rw [undo, List.reverse_append, List.reverse_singleton, List.singleton_append, List.foldl_cons,
    store_back, undo]

/-- A walk ends with the entry in its hand stored, or as if it had never begun. -/
theorem walk_cases (slot : Nat → Fin bucketSize) (n : Nat) (f : CuckooFilter l) (i : l.Index)
    (fp : Fingerprint) (kicks : List (Kick l.Index)) :
    (∃ g, walk slot n f i fp kicks = (g, true) ∧ f.Gains i fp g) ∨
      walk slot n f i fp kicks = (f.undo kicks, false) := by
  induction n generalizing f i fp kicks with
  | zero => exact .inr rfl
  | succ n ih =>
    simp only [walk]
    split
    · rename_i g hput
      exact .inl ⟨_, rfl, (gains_put hput).of_kick⟩
    · obtain ⟨g, hw, hg⟩ | hw := ih (f.store i (slot kicks.length) fp)
        (l.alt i (f.buckets i (slot kicks.length))) (f.buckets i (slot kicks.length))
        (kicks ++ [⟨i, slot kicks.length, f.buckets i (slot kicks.length)⟩])
      · exact .inl ⟨g, hw, hg.of_kick⟩
      · exact .inr (by rw [hw, undo_kick])

/-- An insert stores the fingerprint of the value, or fails and leaves the filter as it was. -/
theorem insert_cases (f : CuckooFilter l) (value : String) (c : Choices) :
    (∃ g, f.insert value c = (g, true) ∧ f.Gains (l.home value) (l.fingerprint value) g) ∨
      f.insert value c = (f, false) := by
  -- the second candidate bucket is as good as the first
  have halt {g : CuckooFilter l}
      (h : f.Gains (l.alt (l.home value) (l.fingerprint value)) (l.fingerprint value) g) :
      f.Gains (l.home value) (l.fingerprint value) g :=
    ⟨h.count, fun μ hμ => by rw [h.weight μ hμ, hμ.alt]⟩
  simp only [insert, Layout.locate]
  split
  · rename_i g hput
    refine .inl ⟨_, rfl, ?_⟩
    obtain hput | ⟨-, hput⟩ := Option.or_eq_some_iff.mp hput
    · exact gains_put hput
    · exact halt (gains_put hput)
  · obtain ⟨g, hw, hg⟩ | hw := walk_cases c.slot maxKicks f
      (if c.second then l.alt (l.home value) (l.fingerprint value) else l.home value)
      (l.fingerprint value) []
    · refine .inl ⟨g, hw, ?_⟩
      split at hg
      · exact halt hg
      · exact hg
    · exact .inr hw

/-- Whatever the walk displaced, a failed insert puts back. -/
theorem insert_atomic (f : CuckooFilter l) (value : String) (c : Choices)
    (hfail : (f.insert value c).2 = false) :
    (f.insert value c).1.buckets = f.buckets ∧ (f.insert value c).1.count = f.count := by
  obtain ⟨g, hins, -⟩ | hins := f.insert_cases value c
  · rw [hins] at hfail
    cases hfail
  · rw [hins]
    exact ⟨rfl, rfl⟩

def Full (f : CuckooFilter l) : Prop := ∀ i s, f.buckets i s ≠ 0

theorem Full.put (h : f.Full) (i : l.Index) (fp : Fingerprint) : f.put i fp = none := by
  cases hput : f.put i fp with
  | none => rfl
  | some g =>
    obtain ⟨s, hs, -⟩ := put_eq_some hput
    exact absurd hs (h i s)

theorem Full.store (h : f.Full) (hfp : fp ≠ 0) : (f.store i s fp).Full := by
  intro j t
  by_cases hj : j = i ∧ t = s
  · obtain ⟨rfl, rfl⟩ := hj
    simpa [CuckooFilter.store, write] using hfp
  · simpa [CuckooFilter.store, write, hj] using h j t

theorem Full.walk (h : f.Full) (hfp : fp ≠ 0) (slot : Nat → Fin bucketSize) (n : Nat)
    (kicks : List (Kick l.Index)) : (CuckooFilter.walk slot n f i fp kicks).2 = false := by
  induction n generalizing f i fp kicks with
  | zero => rfl
  | succ n ih =>
    have hstore : (f.store i (slot kicks.length) fp).Full := h.store hfp
    simp only [CuckooFilter.walk, hstore.put]
    exact ih hstore (h i _) _

theorem Full.insert (h : f.Full) (value : String) (c : Choices) : (f.insert value c).2 = false := by
  simp only [CuckooFilter.insert, Layout.locate, h.put, Option.or_none]
  exact h.walk (l.fingerprint_ne_zero value) _ _ _

def oneBucket : CuckooFilter (Layout.new 4 fun _ => 7) := ⟨fun _ _ => 9, 4⟩

/-- The walk kicks the same slot five hundred times. -/
theorem insert_atomic_oneBucket :
    (oneBucket.insert "a" ⟨true, fun _ => 2⟩).2 = false ∧
      (oneBucket.insert "a" ⟨true, fun _ => 2⟩).1.buckets = oneBucket.buckets ∧
      (oneBucket.insert "a" ⟨true, fun _ => 2⟩).1.count = 4 := by
  have hnine : (9 : Fingerprint) ≠ 0 := by decide
  have hfull : oneBucket.Full := fun _ _ => hnine
  have hfail := hfull.insert "a" ⟨true, fun _ => 2⟩
  exact ⟨hfail, insert_atomic oneBucket "a" ⟨true, fun _ => 2⟩ hfail⟩

theorem remove_cases (f : CuckooFilter l) (value : String) :
    (∃ g, f.remove value = (g, true) ∧ g.count = f.count - 1 ∧ ∀ μ, Movable l.alt 0 μ →
        g.weight μ + μ (l.home value) (l.fingerprint value) = f.weight μ) ∨
      f.remove value = (f, false) ∧ f.lookup value = false := by
  have hclear {i : l.Index} {g : CuckooFilter l} (h : f.clear i (l.fingerprint value) = some g)
      (μ : l.Index → Fingerprint → Nat) (hμ : Movable l.alt 0 μ) :
      g.weight μ + μ i (l.fingerprint value) = f.weight μ := by
    obtain ⟨s, hs, rfl⟩ := clear_eq_some h
    have hw := f.weight_store i s 0 μ
    rwa [hs, hμ.empty, Nat.add_zero] at hw
  have hcount {i : l.Index} {g : CuckooFilter l} (h : f.clear i (l.fingerprint value) = some g) :
      g.count = f.count := by
    obtain ⟨s, -, rfl⟩ := clear_eq_some h
    rfl
  simp only [remove, Layout.locate]
  split
  · rename_i g hsome
    refine .inl ⟨_, rfl, ?_⟩
    obtain h | ⟨-, h⟩ := Option.or_eq_some_iff.mp hsome
    · exact ⟨by rw [← hcount h], fun μ hμ => hclear h μ hμ⟩
    · refine ⟨by rw [← hcount h], fun μ hμ => ?_⟩
      rw [← hclear h μ hμ, hμ.alt]
      rfl
  · rename_i hnone
    obtain ⟨h1, h2⟩ := Option.or_eq_none_iff.mp hnone
    refine .inr ⟨rfl, ?_⟩
    rw [lookup, Layout.locate, Bool.or_eq_false_iff]
    constructor
    · rw [← Bool.not_eq_true, Bucket.has_iff]
      exact fun ⟨s, hs⟩ => clear_eq_none h1 s hs
    · rw [← Bool.not_eq_true, Bucket.has_iff]
      exact fun ⟨s, hs⟩ => clear_eq_none h2 s hs

/-! ## The filter as a bag -/

def occupied (f : CuckooFilter l) : Nat :=
  (Finset.univ.filter fun c : l.Index × Fin bucketSize => f.buckets c.1 c.2 ≠ 0).card

theorem weight_entries (f : CuckooFilter l) : f.weight (entries 0) = f.occupied := by
  simp only [weight, total, entries, occupied, Finset.card_filter, ite_not]

/-- Up to moves, the fingerprints of the filter are those of the values in the bag. -/
structure Holds (f : CuckooFilter l) (m : Multiset String) : Prop where
  count : f.count = f.occupied
  weight : ∀ μ, Movable l.alt 0 μ →
    f.weight μ = (m.map fun v => μ (l.home v) (l.fingerprint v)).sum

variable {m : Multiset String} {value : String}

theorem holds_new (capacity : UInt64) (hash : String → UInt64) :
    (newCuckooFilter capacity hash).Holds 0 where
  count := by simp [newCuckooFilter, occupied]
  weight μ hμ := by simp [newCuckooFilter, CuckooFilter.weight, total, hμ.empty]

theorem Holds.cons (h : f.Holds m) (hg : f.Gains (l.home value) (l.fingerprint value) g) :
    g.Holds (value ::ₘ m) where
  count := by
    rw [hg.count, h.count, ← weight_entries, ← weight_entries, hg.weight _ movable_entries, entries,
      if_neg (l.fingerprint_ne_zero value)]
  weight μ hμ := by
    rw [hg.weight μ hμ, h.weight μ hμ, Multiset.map_cons, Multiset.sum_cons, Nat.add_comm]

theorem Holds.lookup (h : f.Holds m) (hv : value ∈ m) : f.lookup value = true := by
  have hμ := movable_entriesOf l.alt_alt (l.fingerprint_ne_zero value) (l.home value)
  have hpos : 0 < f.weight (entriesOf l.alt (l.home value) (l.fingerprint value)) := by
    rw [h.weight _ hμ]
    refine Nat.lt_of_lt_of_le Nat.zero_lt_one ?_
    refine Multiset.single_le_sum (fun _ _ => Nat.zero_le _) _ ?_
    exact Multiset.mem_map.mpr ⟨value, hv, by simp [entriesOf]⟩
  obtain ⟨i, s, his⟩ := exists_of_total_pos hpos
  have hin : f.buckets i s = l.fingerprint value ∧ (i = l.home value ∨
      i = l.alt (l.home value) (l.fingerprint value)) := by
    by_contra hno
    rw [entriesOf, if_neg hno] at his
    exact Nat.lt_irrefl 0 his
  rw [CuckooFilter.lookup, Layout.locate, Bool.or_eq_true, Bucket.has_iff, Bucket.has_iff]
  obtain ⟨hfp, rfl | rfl⟩ := hin
  · exact .inl ⟨s, hfp⟩
  · exact .inr ⟨s, hfp⟩

/-- A stored fingerprint is that of a value of the bag, in one of the value's buckets. -/
theorem Holds.of_stored (h : f.Holds m) (hs : f.buckets i s ≠ 0) :
    ∃ v ∈ m, f.buckets i s = l.fingerprint v ∧
      (i = l.home v ∨ i = l.alt (l.home v) (l.fingerprint v)) := by
  have hμ := movable_entriesOf l.alt_alt hs i
  have hle : 1 ≤ f.weight (entriesOf l.alt i (f.buckets i s)) := by
    have hle := le_total (entriesOf l.alt i (f.buckets i s)) f.buckets i s
    rwa [entriesOf, if_pos ⟨rfl, .inl rfl⟩] at hle
  rw [h.weight _ hμ] at hle
  obtain ⟨n, hn, hpos⟩ : ∃ n ∈ m.map fun v => entriesOf l.alt i (f.buckets i s) (l.home v)
      (l.fingerprint v), n ≠ 0 := by
    by_contra hno
    rw [Multiset.sum_eq_zero fun n hn => not_not.mp fun hne => hno ⟨n, hn, hne⟩] at hle
    exact absurd hle (by decide)
  obtain ⟨v, hv, rfl⟩ := Multiset.mem_map.mp hn
  have hin : l.fingerprint v = f.buckets i s ∧
      (l.home v = i ∨ l.home v = l.alt i (f.buckets i s)) := by
    by_contra hno
    exact hpos (if_neg hno)
  refine ⟨v, hv, hin.1.symm, ?_⟩
  obtain ⟨hfp, hhome | hhome⟩ := hin
  · exact .inl hhome.symm
  · exact .inr (by rw [hhome, hfp, l.alt_alt])

theorem Holds.remove (h : f.Holds m) (hv : value ∈ m) :
    ∃ g, f.remove value = (g, true) ∧ g.Holds (m.erase value) := by
  obtain ⟨g, hrem, hcount, hw⟩ | ⟨-, hnot⟩ := f.remove_cases value
  · refine ⟨g, hrem, ?_, fun μ hμ => ?_⟩
    · have hone := hw _ movable_entries
      rw [entries, if_neg (l.fingerprint_ne_zero value), weight_entries, weight_entries] at hone
      have hf := h.count
      omega
    · have hm := h.weight μ hμ
      rw [← Multiset.cons_erase hv, Multiset.map_cons, Multiset.sum_cons, ← hw μ hμ] at hm
      omega
  · rw [h.lookup hv] at hnot
    cases hnot

theorem lookup_congr (f : CuckooFilter l) {v : String} (h : l.Alike v value) :
    f.lookup v = f.lookup value := by
  obtain ⟨hfp, hhome | hhome⟩ := h
  · simp [lookup, Layout.locate, hfp, hhome]
  · simp [lookup, Layout.locate, hfp, hhome, l.alt_alt, Bool.or_comm]

theorem Holds.lookup_iff (h : f.Holds m) : f.lookup value = true ↔ ∃ v ∈ m, l.Alike v value := by
  constructor
  · intro hfound
    rw [CuckooFilter.lookup, Layout.locate, Bool.or_eq_true, Bucket.has_iff,
      Bucket.has_iff] at hfound
    obtain ⟨i, hi, s, hs⟩ : ∃ i,
      (i = l.home value ∨ i = l.alt (l.home value) (l.fingerprint value)) ∧
        ∃ s, f.buckets i s = l.fingerprint value :=
      hfound.elim (fun h => ⟨_, .inl rfl, h⟩) fun h => ⟨_, .inr rfl, h⟩
    obtain ⟨v, hv, hfp, hbucket⟩ := h.of_stored (hs ▸ l.fingerprint_ne_zero value)
    rw [hs] at hfp
    refine ⟨v, hv, hfp.symm, ?_⟩
    -- `i` is one of the two buckets of both values
    rw [← hfp] at hbucket
    obtain rfl | hv' := hbucket
    · exact hi
    · rw [← l.alt_alt (l.home v) (l.fingerprint value), ← hv']
      obtain rfl | rfl := hi
      · exact .inr rfl
      · exact .inl (l.alt_alt ..)
  · rintro ⟨v, hv, halike⟩
    rw [← f.lookup_congr halike]
    exact h.lookup hv

end CuckooFilter

/-! ## Runs of a storage -/

def insertions (value : String) (log : List Event) : Nat := log.count (.inserted value true)

def Event.removes (value : String) : Event → Bool
  | .removed v _ => v == value
  | .inserted _ _ => false

def removals (value : String) (log : List Event) : Nat := log.countP (Event.removes value)

namespace Storage

variable {l : Layout} {s : Storage l}

/-- A value is only removed while it is inserted more often than removed. -/
def Owned (s : Storage l) : Action → Prop
  | .delete value => removals value s.log < insertions value s.log
  | _ => True

/-- The filter holds the values inserted more often than removed, each as often as that. -/
def Inv (s : Storage l) : Prop :=
  ∃ m : Multiset String, s.filter.Holds m ∧
    ∀ v, m.count v + removals v s.log = insertions v s.log

theorem inv_insert (h : s.Inv) (value : String) (c : Choices) : (s.insert value c).1.Inv := by
  obtain ⟨m, hm, hcount⟩ := h
  obtain ⟨g, hins, hg⟩ | hins := s.filter.insert_cases value c
  · simp only [Storage.insert, hins]
    refine ⟨value ::ₘ m, hm.cons hg, fun v => ?_⟩
    have hv := hcount v
    by_cases hvv : v = value
    · subst hvv
      simp only [removals, insertions] at hv
      simp [removals, insertions, Event.removes]
      omega
    · have hne : value ≠ v := fun h => hvv h.symm
      simpa [removals, insertions, Event.removes, Multiset.count_cons_of_ne hvv, hne] using hv
  · simp only [Storage.insert, hins]
    refine ⟨m, hm, fun v => ?_⟩
    simpa [removals, insertions, Event.removes] using hcount v

theorem inv_insertAll {values : List (String × Choices)} (h : s.Inv) :
    (s.insertAll values).1.Inv := by
  induction values generalizing s with
  | nil => exact h
  | cons entry rest ih =>
    have hins := inv_insert h entry.1 entry.2
    simp only [insertAll]
    split
    · rename_i s' heq
      rw [heq] at hins
      exact ih hins
    · rename_i s' heq
      rwa [heq] at hins

theorem inv_delete {value : String} (h : s.Inv) (hown : s.Owned (.delete value)) :
    (s.delete value).1.Inv := by
  obtain ⟨m, hm, hcount⟩ := h
  have hmem : value ∈ m := by
    have hv := hcount value
    have hlt : removals value s.log < insertions value s.log := hown
    exact Multiset.count_pos.mp (by omega)
  obtain ⟨g, hrem, hg⟩ := hm.remove hmem
  simp only [delete, hrem]
  refine ⟨m.erase value, hg, fun v => ?_⟩
  have hv := hcount v
  by_cases hvv : v = value
  · subst hvv
    have hpos := Multiset.count_pos.mpr hmem
    simp only [removals, insertions] at hv
    simp [removals, insertions, Event.removes]
    omega
  · have hne : value ≠ v := fun h => hvv h.symm
    simpa [removals, insertions, Event.removes, Multiset.count_erase_of_ne hvv, hne] using hv

theorem inv_step (s : Storage l) (a : Action) (s' : Storage l) (h : s.Inv) (hown : s.Owned a)
    (hs : machine.step s a = some s') : s'.Inv := by
  cases hs
  cases a with
  | add value c => exact inv_insert h value c
  | addBatch values => exact inv_insertAll h
  | delete value => exact inv_delete h hown

/-- In every run that removes a value only while it is inserted more often than removed: every value
whose successful inserts outnumber its removes is found, the count is the number of slots in use,
and a stored fingerprint is that of such a value, in one of the value's two buckets. -/
theorem run_no_false_negatives (capacity : UInt64) (hash : String → UInt64) (as : List Action)
    {s : Storage (Layout.new capacity hash)} (hown : machine.Along Owned (new capacity hash) as)
    (hrun : machine.run (new capacity hash) as = some s) :
    (∀ v, removals v s.log < insertions v s.log → s.mightExist v = true) ∧
      s.filter.count = s.filter.occupied ∧
      ∀ i slot, s.filter.buckets i slot ≠ 0 → ∃ v, removals v s.log < insertions v s.log ∧
        s.filter.buckets i slot = (Layout.new capacity hash).fingerprint v ∧
        (i = ((Layout.new capacity hash).locate v).2.1 ∨
          i = ((Layout.new capacity hash).locate v).2.2) := by
  have hinit : (new capacity hash).Inv := ⟨0, CuckooFilter.holds_new capacity hash, fun v => rfl⟩
  obtain ⟨m, hm, hcount⟩ := Machine.invariant_run Owned Inv inv_step hinit hown hrun
  refine ⟨fun v hv => hm.lookup ?_, hm.count, fun i slot hne => ?_⟩
  · have hc := hcount v
    exact Multiset.count_pos.mp (by omega)
  · obtain ⟨v, hv, hfp, hi⟩ := hm.of_stored hne
    have hc := hcount v
    have hpos := Multiset.count_pos.mpr hv
    exact ⟨v, by omega, hfp, hi⟩

/-- Two values with one hash, in a filter of one bucket: one of them is inserted twice and
removed. -/
def sharedRun : List Action :=
  [.add "a" ⟨false, fun _ => 0⟩, .addBatch [("b", ⟨true, fun _ => 3⟩), ("a", ⟨false, fun _ => 1⟩)],
    .delete "a"]

theorem run_no_false_negatives_shared :
    ∃ s, machine.run (new 4 fun _ => 7) sharedRun = some s ∧ s.mightExist "a" = true ∧
      s.filter.count = s.filter.occupied := by
  obtain ⟨s, hs⟩ : ∃ s, machine.run (new 4 fun _ => 7) sharedRun = some s := ⟨_, rfl⟩
  have hown : machine.Along Owned (new 4 fun _ => 7) sharedRun := by
    refine ⟨trivial, fun s₁ h₁ => ⟨trivial, fun s₂ h₂ => ⟨?_, fun _ _ => trivial⟩⟩⟩
    cases h₁
    cases h₂
    show removals "a" _ < insertions "a" _
    decide
  have h := run_no_false_negatives 4 (fun _ => 7) sharedRun hown hs
  refine ⟨s, hs, h.1 "a" ?_, h.2.1⟩
  cases hs
  decide

/-- In every such run the answer is true exactly for the values that are alike to one held: it does
not depend on the order of the calls, the relocations or the inserts that failed. -/
theorem run_answers (capacity : UInt64) (hash : String → UInt64) (as : List Action)
    {s : Storage (Layout.new capacity hash)} (hown : machine.Along Owned (new capacity hash) as)
    (hrun : machine.run (new capacity hash) as = some s) (value : String) :
    s.mightExist value = true ↔
      ∃ v, removals v s.log < insertions v s.log ∧ (Layout.new capacity hash).Alike v value := by
  have hinit : (new capacity hash).Inv := ⟨0, CuckooFilter.holds_new capacity hash, fun v => rfl⟩
  obtain ⟨m, hm, hcount⟩ := Machine.invariant_run Owned Inv inv_step hinit hown hrun
  have hheld (v : String) : v ∈ m ↔ removals v s.log < insertions v s.log := by
    have hc := hcount v
    rw [← Multiset.count_pos]
    omega
  rw [mightExist, hm.lookup_iff]
  simp only [hheld]

/-- A value that was not inserted is found, because one with its hash was. -/
theorem run_answers_alike :
    ∃ s, machine.run (new 4 fun _ => 7) [.add "a" ⟨false, fun _ => 0⟩] = some s ∧
    s.mightExist "b" = true := by
  have h := run_answers 4 (fun _ => 7) [.add "a" ⟨false, fun _ => 0⟩]
    ⟨trivial, fun _ _ => trivial⟩ rfl
  exact ⟨_, rfl, (h "b").mpr ⟨"a", by decide, rfl, .inl rfl⟩⟩

end Storage

end GoAtlas.ProbFilter.Cuckoo
