import GoAtlas.Lib.Assoc

/-!
# A plain LRU cache, and the part of it that is seen

The cache is the list of its entries, the latest used first. `select f` is what is seen of it when
an entry reads as `f` says, `none` for one that is not there. The operations on the cache are
operations on what is seen, as long as no entry that is not seen takes the place of one that is.
-/

namespace GoAtlas.Lib.Lru

variable {κ α β γ : Type} [DecidableEq κ] {l : List (κ × α)} {key : κ}

/-- Makes a key that is present the latest used. -/
def touch (l : List (κ × α)) (key : κ) : List (κ × α) := (l.lookup key).elim l (Assoc.put l key)

/-- Whether adding the key drops the least recently used entry. A size that is not positive is no
bound. -/
def evicts (size : Int) (l : List (κ × α)) (key : κ) : Bool :=
  (l.lookup key).isNone && decide (0 < size) && decide (size ≤ l.length)

def add (size : Int) (l : List (κ × α)) (key : κ) (v : α) : List (κ × α) :=
  (key, v) :: if evicts size l key then l.dropLast else Assoc.remove l key

def select (f : α → Option β) (l : List (κ × α)) : List (κ × β) :=
  l.filterMap fun p => (f p.2).map (p.1, ·)

variable {f : α → Option β} {size : Int} {p : κ × α}

theorem evicts_iff :
    evicts size l key = true ↔ l.lookup key = none ∧ 0 < size ∧ size ≤ l.length := by
  simp [evicts, and_assoc]

omit [DecidableEq κ] in
theorem select_cons_of_none (h : f p.2 = none) : select f (p :: l) = select f l := by
  simp [select, h]

omit [DecidableEq κ] in
theorem select_cons_of_some {b : β} (h : f p.2 = some b) :
    select f (p :: l) = (p.1, b) :: select f l := by
  simp [select, h]

omit [DecidableEq κ] in
theorem length_select_le : (select f l).length ≤ l.length := List.length_filterMap_le _ _

omit [DecidableEq κ] in
theorem select_select (g : β → Option γ) :
    select g (select f l) = select (fun a => (f a).bind g) l := by
  rw [select, select, List.filterMap_filterMap, select]
  refine List.filterMap_congr fun p _ => ?_
  cases f p.2 <;> rfl

omit [DecidableEq κ] in
theorem select_congr {g : α → Option β} (h : ∀ p ∈ l, f p.2 = g p.2) : select f l = select g l :=
  List.filterMap_congr fun p hp => by rw [h p hp]

theorem lookup_select (h : (l.map Prod.fst).Nodup) (key : κ) :
    (select f l).lookup key = (l.lookup key).bind f := by
  induction l with
  | nil => rfl
  | cons p l ih =>
    obtain ⟨hnot, hnodup⟩ := List.nodup_cons.mp h
    have hih := ih hnodup
    by_cases hk : key = p.1
    · have hnone : l.lookup key = none := by
        rw [← Option.not_isSome_iff_eq_none, Assoc.lookup_isSome, hk]
        exact hnot
      rw [List.lookup_cons, beq_iff_eq.mpr hk]
      cases hf : f p.2 with
      | none =>
        rw [select_cons_of_none hf, hih, hnone]
        exact hf.symm
      | some b =>
        rw [select_cons_of_some hf, List.lookup_cons, beq_iff_eq.mpr hk]
        exact hf.symm
    · rw [List.lookup_cons, beq_eq_false_iff_ne.mpr hk, ← hih]
      cases hf : f p.2 with
      | none => rw [select_cons_of_none hf]
      | some b => rw [select_cons_of_some hf, List.lookup_cons, beq_eq_false_iff_ne.mpr hk]

theorem select_remove (key : κ) :
    select f (Assoc.remove l key) = Assoc.remove (select f l) key := by
  induction l with
  | nil => rfl
  | cons p l ih =>
    rw [Assoc.remove_cons]
    cases hf : f p.2 with
    | none =>
      rw [select_cons_of_none hf, ← ih]
      split_ifs
      · rfl
      · rw [select_cons_of_none hf]
    | some b =>
      rw [select_cons_of_some hf, Assoc.remove_cons, ← ih]
      split_ifs
      · rfl
      · rw [select_cons_of_some hf]

theorem select_touch (h : (l.map Prod.fst).Nodup) {b : β} (hseen : (l.lookup key).bind f = some b) :
    select f (touch l key) = touch (select f l) key := by
  obtain ⟨a, ha, hf⟩ := Option.bind_eq_some_iff.mp hseen
  rw [touch, ha, Option.elim_some, Assoc.put, select_cons_of_some hf, select_remove, touch,
    lookup_select h, hseen]
  rfl

theorem nodup_touch (h : (l.map Prod.fst).Nodup) (key : κ) :
    ((touch l key).map Prod.fst).Nodup := by
  rw [touch]
  cases l.lookup key with
  | none => exact h
  | some a => exact Assoc.nodup_put h key a

theorem length_touch (h : (l.map Prod.fst).Nodup) (key : κ) : (touch l key).length = l.length := by
  rw [touch]
  cases hl : l.lookup key with
  | none => rfl
  | some a => exact Assoc.length_put_of_some h hl

theorem mem_of_mem_touch (h : p ∈ touch l key) : p ∈ l := by
  rw [touch] at h
  cases hl : l.lookup key with
  | none =>
    rw [hl] at h
    exact h
  | some a =>
    rw [hl] at h
    rcases List.mem_cons.mp h with rfl | h
    · exact Assoc.mem_of_lookup hl
    · exact (List.mem_filter.mp h).1

/-! ## Adding a key -/

theorem nodup_add (h : (l.map Prod.fst).Nodup) (size : Int) (key : κ) (v : α) :
    ((add size l key v).map Prod.fst).Nodup := by
  rw [add]
  split_ifs with hev
  · rw [List.map_cons, List.nodup_cons]
    refine ⟨fun hmem => ?_, h.sublist ((List.dropLast_sublist l).map _)⟩
    have hnot := (evicts_iff.mp hev).1
    rw [← Option.not_isSome_iff_eq_none, Assoc.lookup_isSome] at hnot
    exact hnot (((List.dropLast_sublist l).map _).subset hmem)
  · exact Assoc.nodup_put h key v

theorem length_add_le (h : (l.map Prod.fst).Nodup) (hsize : 0 < size)
    (hlen : (l.length : Int) ≤ size) (key : κ) (v : α) :
    ((add size l key v).length : Int) ≤ size := by
  rw [add]
  split_ifs with hev
  · rw [List.length_cons, List.length_dropLast]
    have := (evicts_iff.mp hev).2.2
    omega
  · rw [evicts_iff, not_and] at hev
    cases hl : l.lookup key with
    | none =>
      have := hev hl
      rw [List.length_cons, Assoc.remove_of_lookup hl]
      omega
    | some a =>
      have hput : (Assoc.put l key v).length = l.length := Assoc.length_put_of_some h hl
      exact hput ▸ hlen

theorem mem_of_mem_add {v : α} (h : p ∈ add size l key v) :
    p = (key, v) ∨ p ∈ l := by
  rw [add] at h
  rcases List.mem_cons.mp h with rfl | h
  · exact .inl rfl
  · split_ifs at h
    · exact .inr (List.dropLast_subset l h)
    · exact .inr (List.mem_filter.mp h).1

omit [DecidableEq κ] in
theorem select_dropLast (hall : ∀ p ∈ l, (f p.2).isSome = true) :
    select f l.dropLast = (select f l).dropLast := by
  induction l with
  | nil => rfl
  | cons p l ih =>
    obtain ⟨b, hb⟩ := Option.isSome_iff_exists.mp (hall p List.mem_cons_self)
    cases l with
    | nil => simp [select, hb]
    | cons q l =>
      obtain ⟨c, hc⟩ :=
        Option.isSome_iff_exists.mp (hall q (List.mem_cons_of_mem _ List.mem_cons_self))
      have hih := ih fun r hr => hall r (List.mem_cons_of_mem _ hr)
      rw [List.dropLast_cons_cons, select_cons_of_some hb, hih, select_cons_of_some hb,
        select_cons_of_some hc, List.dropLast_cons_cons]

omit [DecidableEq κ] in
theorem length_select (hall : ∀ p ∈ l, (f p.2).isSome = true) : (select f l).length = l.length := by
  induction l with
  | nil => rfl
  | cons p l ih =>
    obtain ⟨b, hb⟩ := Option.isSome_iff_exists.mp (hall p List.mem_cons_self)
    rw [select_cons_of_some hb, List.length_cons, ih fun q hq => hall q (List.mem_cons_of_mem _ hq),
      List.length_cons]

theorem length_select_lt (hsome : (l.lookup key).isSome = true)
    (hnone : (l.lookup key).bind f = none) :
    (select f l).length < l.length := by
  obtain ⟨a, ha⟩ := Option.isSome_iff_exists.mp hsome
  have hmem := Assoc.mem_of_lookup ha
  have hf : f a = none := by simpa [ha] using hnone
  refine Nat.lt_of_le_of_ne length_select_le fun heq => ?_
  have hall : ∀ p ∈ l, ((f p.2).map (p.1, ·)).isSome = true :=
    List.filterMap_length_eq_length.mp heq
  have := hall _ hmem
  simp [hf] at this

/-- Adding evicts what is seen only if all is seen. -/
theorem evicts_select (h : (l.map Prod.fst).Nodup)
    (hlen : 0 < size → (l.length : Int) ≤ size) (hroom : (∀ p ∈ l, (f p.2).isSome = true) ∨
    evicts size l key = false) :
    evicts size (select f l) key = evicts size l key := by
  have hle : (select f l).length ≤ l.length := length_select_le
  rw [Bool.eq_iff_iff, evicts_iff, evicts_iff, lookup_select h]
  rcases hroom with hall | hno
  · rw [length_select hall]
    refine and_congr_left fun _ => ⟨fun hnone => ?_, fun hnone => by rw [hnone]; rfl⟩
    cases hl : l.lookup key with
    | none => rfl
    | some a =>
      obtain ⟨b, hb⟩ := Option.isSome_iff_exists.mp (hall _ (Assoc.mem_of_lookup hl))
      rw [hl, Option.bind_some, hb] at hnone
      cases hnone
  · have hno' := hno
    rw [Bool.eq_false_iff, ne_eq, evicts_iff] at hno'
    refine iff_of_false ?_ hno'
    rintro ⟨hnone, hpos, hfull⟩
    cases hl : l.lookup key with
    | none => exact hno' ⟨hl, hpos, by omega⟩
    | some a =>
      have := length_select_lt (by rw [hl]; rfl) hnone
      have := hlen hpos
      omega

theorem select_add {v : α} {b : β} (h : (l.map Prod.fst).Nodup) (hv : f v = some b)
    (hlen : 0 < size → (l.length : Int) ≤ size)
    (hroom : (∀ p ∈ l, (f p.2).isSome = true) ∨ evicts size l key = false) :
    select f (add size l key v) = add size (select f l) key b := by
  have hsame := evicts_select h hlen hroom
  rw [add, select_cons_of_some hv, add, hsame]
  congr 1
  split_ifs with hev
  · rcases hroom with hall | hno
    · exact select_dropLast hall
    · rw [hno] at hev
      cases hev
  · exact select_remove key

end GoAtlas.Lib.Lru
