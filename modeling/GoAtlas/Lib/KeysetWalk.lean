import Mathlib.Data.List.Sort

/-!
# Reading an ordered collection page by page

Each page continues after the position of the last item of the page before, in whatever the
collection has become in the meantime. However many items the pages have, reads that start at the
front return their items in strict order, and return every item that all the snapshots hold. A walk
reads pages of given sizes; on a collection that does not change it returns everything after its
start.
-/

namespace GoAtlas.Lib.Keyset

open Std

section Pages

variable {T P : Type} (pos : T → P) (cmp : P → P → Ordering)

def Ascending (s : List T) : Prop := s.Pairwise fun a b => cmp (pos a) (pos b) = .lt

/-- Whether the item comes after the position; every item comes after no position. -/
def isAfter (after : Option P) (t : T) : Bool :=
  match after with
  | none => true
  | some p => decide (cmp (pos t) p = .gt)

/-- At most `n` items after the position, and the position of the last of them where more follow. -/
def page (after : Option P) (n : Nat) (s : List T) : List T × Option P :=
  let rest := s.filter (isAfter pos cmp after)
  (rest.take n, if n < rest.length then (rest.take n).getLast?.map pos else none)

/-- The items of reads from a position on, each of a snapshot of its own: a read stops after any
item, where the next one goes on, and the last read takes all that is left. -/
inductive Reads : Option P → List (List T) → List T → Prop where
  | last {after : Option P} {s : List T} : Reads after [s] (s.filter (isAfter pos cmp after))
  | more {after : Option P} {s front back : List T} {t : T} {reads : List (List T)} {items : List T}
      (hcut : s.filter (isAfter pos cmp after) = front ++ t :: back)
      (hrest : Reads (some (pos t)) reads items) :
      Reads after (s :: reads) (front ++ t :: items)

/-- The items of the pages from a position on, each page read from its own snapshot, up to the one
without a next position. -/
inductive Walk : Option P → List (List T × Nat) → List T → Prop where
  | last {after : Option P} {s : List T} {n : Nat} (hnext : (page pos cmp after n s).2 = none) :
      Walk after [(s, n)] (page pos cmp after n s).1
  | more {after : Option P} {s : List T} {n : Nat} {next : P} {reads : List (List T × Nat)}
    {items : List T}
      (hnext : (page pos cmp after n s).2 = some next) (hrest : Walk (some next) reads items) :
      Walk after ((s, n) :: reads) ((page pos cmp after n s).1 ++ items)

end Pages

section Single

variable {T P : Type} {pos : T → P} {cmp : P → P → Ordering}
variable {after : Option P} {s : List T} {n : Nat} {next : P} {reads : List (List T × Nat)}
    {items : List T} {t : T}

theorem isAfter_some {p : P} : isAfter pos cmp (some p) t = true ↔ cmp (pos t) p = .gt :=
  decide_eq_true_iff

@[simp] theorem filter_isAfter_none : s.filter (isAfter pos cmp none) = s :=
  List.filter_eq_self.mpr fun _ _ => rfl

theorem page_next (hnext : (page pos cmp after n s).2 = some next) :
    ∃ front t back, s.filter (isAfter pos cmp after) = front ++ t :: back ∧ pos t = next ∧
      (page pos cmp after n s).1 = front ++ [t] := by
  simp only [page] at hnext ⊢
  split at hnext
  · obtain ⟨t, hlast, rfl⟩ := Option.map_eq_some_iff.mp hnext
    obtain ⟨front, hfront⟩ := List.getLast?_eq_some_iff.mp hlast
    refine ⟨front, t, (s.filter (isAfter pos cmp after)).drop n, ?_, rfl, hfront⟩
    conv_lhs => rw [← List.take_append_drop n (s.filter (isAfter pos cmp after)), hfront]
    rw [List.append_assoc, List.singleton_append]
  · cases hnext

theorem page_last (hn : 0 < n) (hnext : (page pos cmp after n s).2 = none) :
    (page pos cmp after n s).1 = s.filter (isAfter pos cmp after) := by
  simp only [page] at hnext ⊢
  split at hnext
  · rename_i hlt
    have hne : (s.filter (isAfter pos cmp after)).take n ≠ [] := by
      rw [Ne, List.take_eq_nil_iff]
      rintro (rfl | hnil)
      · omega
      · rw [hnil] at hlt
        simp at hlt
    rw [Option.map_eq_none_iff, List.getLast?_eq_none_iff] at hnext
    exact absurd hnext hne
  · rename_i hge
    exact List.take_of_length_le (by omega)

theorem isAfter_of_cut {front back : List T}
    (hcut : s.filter (isAfter pos cmp after) = front ++ t :: back) :
    isAfter pos cmp after t = true := by
  have ht : t ∈ s.filter (isAfter pos cmp after) := by
    rw [hcut]
    simp
  exact (List.mem_filter.mp ht).2

end Single

section Order

variable {T P : Type} {pos : T → P} {cmp : P → P → Ordering} [TransCmp cmp]
variable {after : Option P} {s : List T} {t u : T}

theorem isAfter_trans (ht : isAfter pos cmp after t = true)
    (hu : isAfter pos cmp (some (pos t)) u = true) :
    isAfter pos cmp after u = true := by
  cases after with
  | none => rfl
  | some p => exact isAfter_some.mpr (TransCmp.gt_trans (isAfter_some.mp hu) (isAfter_some.mp ht))

theorem isAfter_iff_lt : isAfter pos cmp (some (pos t)) u = true ↔ cmp (pos t) (pos u) = .lt := by
  rw [isAfter_some, OrientedCmp.gt_iff_lt]

/-- Cut at the item `t`, an ascending list has before `t` what is before it, and after `t` what is
after it. -/
theorem filter_after (hs : Ascending pos cmp s) {front back : List T}
    (hcut : s.filter (isAfter pos cmp after) = front ++ t :: back) :
    s.filter (isAfter pos cmp (some (pos t))) = back := by
  have hrest : (front ++ t :: back).Pairwise fun a b => cmp (pos a) (pos b) = .lt :=
    hcut ▸ hs.filter _
  obtain ⟨-, hback, hfront⟩ := List.pairwise_append.mp hrest
  have ht := isAfter_of_cut hcut
  have hsame : s.filter (isAfter pos cmp (some (pos t))) =
      (s.filter (isAfter pos cmp after)).filter (isAfter pos cmp (some (pos t))) := by
    rw [List.filter_filter]
    refine List.filter_congr fun u _ => ?_
    cases hu : isAfter pos cmp (some (pos t)) u with
    | false => rfl
    | true => rw [isAfter_trans ht hu]; rfl
  rw [hsame, hcut, List.filter_append, List.filter_cons]
  have hself : ¬ isAfter pos cmp (some (pos t)) t = true := by
    rw [isAfter_some, (ReflCmp.compare_self : cmp (pos t) (pos t) = .eq)]
    simp
  rw [if_neg hself, List.filter_eq_nil_iff.mpr, List.filter_eq_self.mpr, List.nil_append]
  · exact fun u hu => isAfter_iff_lt.mpr ((List.pairwise_cons.mp hback).1 u hu)
  · intro u hu hafter
    have hlt := hfront u hu t List.mem_cons_self
    rw [isAfter_some, hlt] at hafter
    cases hafter

theorem existsUnique_index (hasc : Ascending pos cmp s) (ht : t ∈ s) :
    ∃! i : Nat, s[i]? = some t := by
  obtain ⟨i, hi⟩ := List.mem_iff_getElem?.mp ht
  have hirrefl {j k : Nat} (hjk : j < k) (hj : s[j]? = some t) (hk : s[k]? = some t) : False := by
    obtain ⟨hjlen, hj⟩ := List.getElem?_eq_some_iff.mp hj
    obtain ⟨hklen, hk⟩ := List.getElem?_eq_some_iff.mp hk
    have hlt := List.pairwise_iff_getElem.mp hasc j k hjlen hklen hjk
    rw [hj, hk, (ReflCmp.compare_self : cmp (pos t) (pos t) = .eq)] at hlt
    cases hlt
  refine ⟨i, hi, fun j hj => ?_⟩
  rcases Nat.lt_trichotomy i j with hlt | heq | hgt
  · exact (hirrefl hlt hi hj).elim
  · exact heq.symm
  · exact (hirrefl hgt hj hi).elim

end Order

section Walks

variable {T P : Type} {pos : T → P} {cmp : P → P → Ordering} [TransCmp cmp]
variable {after : Option P} {s : List T} {reads : List (List T × Nat)} {items : List T} {t : T}

theorem Reads.isAfter {reads : List (List T)} (h : Reads pos cmp after reads items)
    (ht : t ∈ items) :
    isAfter pos cmp after t = true := by
  induction h with
  | last => exact (List.mem_filter.mp ht).2
  | @more after s front back u reads items hcut hrest ih =>
    have hfront : ∀ v ∈ front ++ u :: back, Keyset.isAfter pos cmp after v = true := by
      intro v hv
      rw [← hcut] at hv
      exact (List.mem_filter.mp hv).2
    rcases List.mem_append.mp ht with ht | ht
    · exact hfront t (List.mem_append_left _ ht)
    · have hu := hfront u (by simp)
      rcases List.mem_cons.mp ht with rfl | ht
      · exact hu
      · exact isAfter_trans hu (ih ht)

omit [TransCmp cmp] in
theorem Reads.exists_mem {reads : List (List T)} (h : Reads pos cmp after reads items)
    (ht : t ∈ items) :
    ∃ s ∈ reads, t ∈ s := by
  induction h with
  | last => exact ⟨_, List.mem_cons_self, (List.mem_filter.mp ht).1⟩
  | @more after s front back u reads items hcut hrest ih =>
    rw [List.append_cons] at ht
    rcases List.mem_append.mp ht with ht | ht
    · have hmem : t ∈ s.filter (Keyset.isAfter pos cmp after) := by
        rw [hcut, List.append_cons]
        exact List.mem_append_left _ ht
      exact ⟨s, List.mem_cons_self, (List.mem_filter.mp hmem).1⟩
    · obtain ⟨s', hs', hmem⟩ := ih ht
      exact ⟨s', List.mem_cons_of_mem _ hs', hmem⟩

theorem Reads.ascending {reads : List (List T)} (h : Reads pos cmp after reads items)
    (hreads : ∀ s ∈ reads, Ascending pos cmp s) : Ascending pos cmp items := by
  induction h with
  | last => exact (hreads _ List.mem_cons_self).filter _
  | @more after s front back u reads items hcut hrest ih =>
    rw [List.forall_mem_cons] at hreads
    have hwhole : (front ++ u :: back).Pairwise fun a b => cmp (pos a) (pos b) = .lt :=
      hcut ▸ hreads.1.filter _
    obtain ⟨hfront, -, hcross⟩ := List.pairwise_append.mp hwhole
    have hlater : ∀ v ∈ items, cmp (pos u) (pos v) = .lt :=
      fun v hv => isAfter_iff_lt.mp (hrest.isAfter hv)
    refine List.pairwise_append.mpr ⟨hfront, List.pairwise_cons.mpr ⟨hlater, ih hreads.2⟩,
      fun a ha v hv => ?_⟩
    have hau := hcross a ha u List.mem_cons_self
    rcases List.mem_cons.mp hv with rfl | hv
    · exact hau
    · exact TransCmp.lt_trans hau (hlater v hv)

/-- If every snapshot has an item of a kind, all at one position after the start, such an item is
returned. -/
theorem Reads.complete {reads : List (List T)} (h : Reads pos cmp after reads items)
    (hreads : ∀ s ∈ reads, Ascending pos cmp s) {Q : T → Prop} (hQ : ∀ u, Q u → pos u = pos t)
    (hall : ∀ s ∈ reads, ∃ u ∈ s, Q u) (hafter : Keyset.isAfter pos cmp after t = true) :
    ∃ u ∈ items, Q u := by
  have hsame : ∀ {after u}, Q u → Keyset.isAfter pos cmp after u =
      Keyset.isAfter pos cmp after t := by
    intro after u hu
    unfold Keyset.isAfter
    rw [hQ u hu]
  induction h with
  | last =>
    obtain ⟨u, hu, hkind⟩ := hall _ List.mem_cons_self
    exact ⟨u, List.mem_filter.mpr ⟨hu, (hsame hkind).trans hafter⟩, hkind⟩
  | @more after s front back v reads items hcut hrest ih =>
    rw [List.forall_mem_cons] at hreads hall
    obtain ⟨u, hu, hkind⟩ := hall.1
    have hmem := List.mem_filter.mpr ⟨hu, (hsame hkind).trans hafter⟩
    rw [hcut, List.append_cons] at hmem
    rcases List.mem_append.mp hmem with hmem | hmem
    · exact ⟨u, by rw [List.append_cons]; exact List.mem_append_left _ hmem, hkind⟩
    · rw [← filter_after hreads.1 hcut] at hmem
      obtain ⟨w, hw, hkind'⟩ :=
        ih hreads.2 hall.2 ((hsame hkind).symm.trans (List.mem_filter.mp hmem).2)
      exact ⟨w, by simp [hw], hkind'⟩

omit [TransCmp cmp] in
theorem Walk.toReads (h : Walk pos cmp after reads items) (hsizes : ∀ r ∈ reads, 0 < r.2) :
    Reads pos cmp after (reads.map Prod.fst) items := by
  induction h with
  | last hnext =>
    rw [page_last (hsizes _ List.mem_cons_self) hnext]
    exact .last
  | more hnext hrest ih =>
    rw [List.forall_mem_cons] at hsizes
    obtain ⟨front, u, back, hcut, rfl, hpage⟩ := page_next hnext
    rw [hpage, List.append_assoc, List.singleton_append]
    exact .more hcut (ih hsizes.2)

theorem exists_walk (after : Option P) (hs : Ascending pos cmp s) (sizes : Nat → Nat)
    (hsizes : ∀ i, 0 < sizes i) :
    ∃ m, Walk pos cmp after ((List.range (m + 1)).map fun i => (s, sizes i))
      (s.filter (Keyset.isAfter pos cmp after)) := by
  induction hlen : (s.filter (Keyset.isAfter pos cmp after)).length using Nat.strongRecOn
    generalizing after sizes with
  | ind k ih =>
    cases hnext : (page pos cmp after (sizes 0) s).2 with
    | none =>
      refine ⟨0, ?_⟩
      rw [← page_last (hsizes 0) hnext]
      exact .last hnext
    | some next =>
      obtain ⟨front, u, back, hcut, rfl, hpage⟩ := page_next hnext
      have hback := filter_after hs hcut
      obtain ⟨m, hm⟩ := ih back.length (by rw [← hlen, hcut]; simp; omega) (some (pos u))
        (fun i => sizes (i + 1)) (fun i => hsizes (i + 1)) (by rw [hback])
      refine ⟨m + 1, ?_⟩
      have hwalk := Walk.more hnext hm
      rw [hpage, hback, List.append_assoc, List.singleton_append, ← hcut] at hwalk
      rw [List.range_succ_eq_map, List.map_cons, List.map_map]
      exact hwalk

end Walks

/-! ## Copies -/

section Copies

variable {T P : Type} (pos : T → P) (cmp : P → P → Ordering)

def isCopy (last : Option P) (t : T) : Bool :=
  match last with
  | none => false
  | some p => decide (cmp (pos t) p = .eq)

/-- Leave out the items at the position of the last one kept. -/
def collapse : Option P → List T → List T
  | _, [] => []
  | last, t :: ts =>
    if isCopy pos cmp last t then collapse last ts else t :: collapse (some (pos t)) ts

variable {pos cmp} {last : Option P} {ts : List T} {t : T}

theorem collapse_sublist : (collapse pos cmp last ts).Sublist ts := by
  induction ts generalizing last with
  | nil => exact .slnil
  | cons t ts ih =>
    unfold collapse
    split
    · exact ih.cons t
    · exact ih.cons_cons t

theorem isPrefix_collapse_append (xs ys : List T) :
    collapse pos cmp last xs <+: collapse pos cmp last (xs ++ ys) := by
  induction xs generalizing last with
  | nil => exact List.nil_prefix
  | cons t xs ih =>
    unfold collapse
    rw [List.cons_append]
    dsimp only
    split
    · exact ih
    · exact List.prefix_cons_iff.mpr (.inr ⟨_, rfl, ih⟩)

theorem exists_mem_collapse (ht : t ∈ ts) :
    isCopy pos cmp last t = true ∨ ∃ u ∈ collapse pos cmp last ts, u = t ∨
      cmp (pos t) (pos u) = .eq := by
  induction ts generalizing last with
  | nil => cases ht
  | cons u ts ih =>
    unfold collapse
    rcases List.mem_cons.mp ht with rfl | ht
    · split
      · exact .inl ‹_›
      · exact .inr ⟨t, List.mem_cons_self, .inl rfl⟩
    · split
      · exact ih ht
      · right
        rcases @ih (some (pos u)) ht with hcopy | ⟨v, hv, hsame⟩
        · exact ⟨u, List.mem_cons_self, .inr (of_decide_eq_true hcopy)⟩
        · exact ⟨v, List.mem_cons_of_mem _ hv, hsame⟩

variable [TransCmp cmp]

def Sorted (pos : T → P) (cmp : P → P → Ordering) (ts : List T) : Prop :=
  ts.Pairwise fun a b => cmp (pos a) (pos b) ≠ .gt

omit [TransCmp cmp] in
theorem lt_of_not_copy {p : P} [OrientedCmp cmp] (hle : cmp p (pos t) ≠ .gt)
    (hcopy : ¬isCopy pos cmp (some p) t = true) :
    cmp p (pos t) = .lt := by
  cases hcmp : cmp p (pos t) with
  | lt => rfl
  | gt => exact absurd hcmp hle
  | eq =>
    refine absurd ?_ hcopy
    exact decide_eq_true (OrientedCmp.eq_symm hcmp)

theorem ascending_collapse (hsorted : Sorted pos cmp ts)
    (hlast : ∀ p ∈ last, ∀ t ∈ ts, cmp p (pos t) ≠ .gt) :
    Ascending pos cmp (collapse pos cmp last ts) ∧ ∀ p ∈ last, ∀ t ∈ collapse pos cmp last ts,
      cmp p (pos t) = .lt := by
  induction ts generalizing last with
  | nil => exact ⟨List.Pairwise.nil, fun _ _ _ h => by cases h⟩
  | cons t ts ih =>
    obtain ⟨hhead, htail⟩ := List.pairwise_cons.mp hsorted
    unfold collapse
    split
    · exact ih htail fun p hp u hu => hlast p hp u (List.mem_cons_of_mem _ hu)
    · rename_i hcopy
      obtain ⟨hasc, hlater⟩ := @ih (some (pos t)) htail (by rintro p ⟨⟩; exact hhead)
      have hlater := hlater _ rfl
      refine ⟨List.pairwise_cons.mpr ⟨hlater, hasc⟩, ?_⟩
      rintro p ⟨⟩ u hu
      have hpt := lt_of_not_copy (hlast p rfl t List.mem_cons_self) hcopy
      rcases List.mem_cons.mp hu with rfl | hu
      · exact hpt
      · exact TransCmp.lt_trans hpt (hlater u hu)

/-- Copies are all kept or all left out by a filter on the position, so collapsing may come after
it. -/
theorem collapse_filter {q : T → Bool} (hq : ∀ t u, cmp (pos t) (pos u) = .eq → q t = q u)
    (hsorted : Sorted pos cmp ts) {last' : Option P}
    (hlast : ∀ p ∈ last', ∀ t ∈ ts, cmp p (pos t) ≠ .gt)
    (hsame : ∀ t ∈ ts, q t = true → isCopy pos cmp last t = isCopy pos cmp last' t) :
    collapse pos cmp last (ts.filter q) = (collapse pos cmp last' ts).filter q := by
  induction ts generalizing last last' with
  | nil => rfl
  | cons t ts ih =>
    obtain ⟨hhead, htail⟩ := List.pairwise_cons.mp hsorted
    have hlast' : ∀ p ∈ last', ∀ u ∈ ts, cmp p (pos u) ≠ .gt :=
      fun p hp u hu => hlast p hp u (List.mem_cons_of_mem _ hu)
    have hsame' : ∀ u ∈ ts, q u = true → isCopy pos cmp last u = isCopy pos cmp last' u :=
      fun u hu => hsame u (List.mem_cons_of_mem _ hu)
    have hnext : ∀ p ∈ some (pos t), ∀ u ∈ ts, cmp p (pos u) ≠ .gt := by
      rintro p ⟨⟩
      exact hhead
    cases hqt : q t with
    | true =>
      rw [List.filter_cons_of_pos hqt, collapse, collapse, hsame t List.mem_cons_self hqt]
      split
      · exact ih htail hlast' hsame'
      · rw [List.filter_cons_of_pos hqt, ih htail hnext fun _ _ _ => rfl]
    | false =>
      rw [List.filter_cons_of_neg (by simp [hqt]), collapse]
      split
      · exact ih htail hlast' hsame'
      · rename_i hcopy
        rw [List.filter_cons_of_neg (by simp [hqt])]
        refine ih htail hnext fun u hu hqu => ?_
        -- an item that stays is no copy of `t`, nor of what was kept before `t`
        have hne : cmp (pos t) (pos u) = .lt := by
          cases hcmp : cmp (pos t) (pos u) with
          | lt => rfl
          | gt => exact absurd hcmp (hhead u hu)
          | eq => rw [hq t u hcmp, hqu] at hqt; cases hqt
        have hnot : ∀ {p}, cmp p (pos u) = .lt → isCopy pos cmp (some p) u = false := by
          intro p hlt
          refine decide_eq_false fun heq => ?_
          rw [OrientedCmp.eq_symm heq] at hlt
          cases hlt
        rw [hsame' u hu hqu, hnot hne]
        cases last' with
        | none => rfl
        | some p =>
          exact hnot (TransCmp.lt_trans (lt_of_not_copy (hlast p rfl t List.mem_cons_self) hcopy)
            hne)

end Copies

end GoAtlas.Lib.Keyset
