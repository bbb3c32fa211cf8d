import Mathlib.Data.Set.Basic
import GoAtlas.FieldMask.RoundTrip

/-!
# The set algebra of masks

`Union`, `Intersection`, `Difference` and `Clone`. A mask stands for the paths at or below its
leaves. A `nil` mask at the top has no fields, as an empty one; below the top it is a leaf.
-/

namespace GoAtlas.FieldMask

namespace Mask

/-! ## The operations -/

/-- A loop over a map that writes into a new one: an entry for each key that `entry` has a value
for. -/
def build (keys : List String) (entry : String → Option Mask) : Mask :=
  keys.foldl (fun result field => (entry field).elim result (result.set field)) .empty

def clone : Mask → Mask
  | .leaf => .empty
  | .node keys sub =>
    build keys fun field => some (if (sub field).isLeaf then .leaf else (sub field).clone)

/-- A copied entry: `nil` stays `nil`. -/
def copied (nested : Mask) : Mask := if nested.isLeaf then .leaf else nested.clone

/-- The first loop of `Union` copies the receiver; the second one, here, meets the entries of that
copy. -/
def union : Mask → Mask → Mask
  | msk, .leaf => if msk.isEmpty then .empty else msk.clone
  | msk, .node keys sub =>
    if msk.isEmpty then (node keys sub).clone
    else if keys.isEmpty then msk.clone
    else keys.foldl (fun result field =>
      result.set field ((result.get? field).elim (copied (sub field)) fun nested =>
        if nested.isLeaf || (sub field).isLeaf then .leaf else nested.union (sub field))) msk.clone

def intersection : Mask → Mask → Mask
  | .leaf, _ => .empty
  | .node keys sub, other =>
    if keys.isEmpty || other.isEmpty then .empty
    else build keys fun field => (other.get? field).bind fun otherNested =>
      if (sub field).isLeaf && otherNested.isLeaf then some .leaf
      else if (sub field).isLeaf then some otherNested.clone
      else if otherNested.isLeaf then some (sub field).clone
      else if ((sub field).intersection otherNested).isEmpty then none
      else some ((sub field).intersection otherNested)

/-- A leaf of the receiver goes as a whole when the other mask has any part of it. -/
def difference : Mask → Mask → Mask
  | .leaf, _ => .empty
  | .node keys sub, other =>
    if keys.isEmpty then .empty
    else if other.isEmpty then (node keys sub).clone
    else build keys fun field => (other.get? field).elim (some (copied (sub field))) fun nested2 =>
      if !(sub field).isLeaf && !nested2.isLeaf then
        if ((sub field).difference nested2).isEmpty then none
          else some ((sub field).difference nested2)
      else none

/-! ## What a mask stands for -/

def fieldLeaves (m : Mask) : List Path := if m.isLeaf then [] else m.leaves

/-- The paths at or below the leaves. -/
def paths (m : Mask) : Set Path := { p | ∃ l ∈ m.fieldLeaves, l <+: p }

/-- No entry at any depth is an empty map. -/
def NoEmptyBranch : Mask → Prop
  | .leaf => True
  | .node keys sub =>
    ∀ s ∈ keys, ((sub s).isLeaf = true ∨ (sub s).isEmpty = false) ∧ (sub s).NoEmptyBranch

def Selects : Mask → Path → Prop
  | .leaf, _ => True
  | .node _ _, [] => False
  | .node keys sub, s :: p => s ∈ keys ∧ (sub s).Selects p

def SelectsAt (m : Mask) (s : String) (p : Path) : Prop := ∃ n, m.get? s = some n ∧ n.Selects p

variable {m n other : Mask} {s : String} {p : Path} {keys : List String} {sub : String → Mask}
    {m other : Mask}

theorem get?_eq_some_node : (node keys sub).get? s = some n ↔ s ∈ keys ∧ sub s = n := by
  simp [get?]

theorem selects_of_isLeaf (h : m.isLeaf = true) : m.Selects p := by
  cases m with
  | leaf => cases p <;> trivial
  | node keys sub => cases h

theorem selects_nil : m.Selects [] ↔ m.isLeaf = true := by
  cases m <;> simp [Selects, isLeaf]

theorem selects_cons (h : m.isLeaf = false) : m.Selects (s :: p) ↔ m.SelectsAt s p := by
  cases m with
  | leaf => cases h
  | node keys sub =>
    simp only [Selects, SelectsAt, get?_eq_some_node]
    constructor
    · rintro ⟨hs, hp⟩
      exact ⟨_, ⟨hs, rfl⟩, hp⟩
    · rintro ⟨_, ⟨hs, rfl⟩, hp⟩
      exact ⟨hs, hp⟩

theorem selects_iff_leaf : m.Selects p ↔ ∃ l ∈ m.leaves, l <+: p := by
  induction m generalizing p with
  | leaf => simp [leaves, selects_of_isLeaf (m := .leaf) rfl]
  | node keys sub ih =>
    cases p with
    | nil =>
      simp only [Selects, mem_leaves_node, false_iff, List.prefix_nil]
      rintro ⟨_, ⟨s, _, q, _, rfl⟩, h⟩
      cases h
    | cons s p =>
      simp only [Selects, mem_leaves_node]
      constructor
      · rintro ⟨hs, hp⟩
        obtain ⟨l, hl, hlp⟩ := ih s |>.mp hp
        exact ⟨s :: l, ⟨s, hs, l, hl, rfl⟩, List.cons_prefix_cons.mpr ⟨rfl, hlp⟩⟩
      · rintro ⟨_, ⟨s', hs, l, hl, rfl⟩, hlp⟩
        obtain ⟨rfl, hrest⟩ := List.cons_prefix_cons.mp hlp
        exact ⟨hs, ih _ |>.mpr ⟨l, hl, hrest⟩⟩

theorem nil_notMem_paths : [] ∉ m.paths := by
  cases m with
  | leaf =>
    rintro ⟨l, hl, -⟩
    cases hl
  | node keys sub =>
    intro h
    have hsel : (node keys sub).Selects [] := selects_iff_leaf.mpr h
    cases hsel

theorem cons_mem_paths : s :: p ∈ m.paths ↔ m.SelectsAt s p := by
  cases m with
  | leaf => simp [paths, fieldLeaves, isLeaf, SelectsAt, get?]
  | node keys sub =>
    rw [← selects_cons rfl, selects_iff_leaf]
    rfl

theorem isEmpty_iff : m.isEmpty = true ↔ ∀ s, m.get? s = none := by
  cases m with
  | leaf => simp [isEmpty, keys, get?]
  | node keys sub => simp [isEmpty, Mask.keys, get?, List.eq_nil_iff_forall_not_mem]

/-! ## Copies -/

theorem build_append (keys : List String) (entry : String → Option Mask) (init : Mask)
    (s : String) :
    (keys.foldl (fun result field => (entry field).elim result (result.set field)) init).get? s =
      if s ∈ keys then (entry s).or (init.get? s) else init.get? s := by
  induction keys generalizing init with
  | nil => simp
  | cons key keys ih =>
    rw [List.foldl_cons, ih]
    have hstep : ((entry key).elim init (init.set key)).get? s =
        if s = key then (entry s).or (init.get? s) else init.get? s := by
      cases hentry : entry key with
      | none =>
        by_cases hs : s = key
        · simp [hs, hentry]
        · simp [hs]
      | some value =>
        rw [Option.elim_some, get?_set]
        by_cases hs : s = key
        · simp [hs, hentry]
        · simp [hs]
    rw [hstep]
    by_cases hkey : s = key <;> by_cases hs : s ∈ keys <;> cases entry s <;> simp [hkey, hs]

@[simp] theorem get?_build (keys : List String) (entry : String → Option Mask) (s : String) :
    (build keys entry).get? s = if s ∈ keys then entry s else none := by
  rw [build, build_append]
  simp [empty, get?]

theorem get?_build_node {entry : String → Option Mask} {f : Mask → Option Mask}
    (h : entry s = f (sub s)) :
    (build keys entry).get? s = ((node keys sub).get? s).bind f := by
  rw [get?_build]
  by_cases hs : s ∈ keys
  · rw [if_pos hs, get?_node_of_mem hs, h]
    rfl
  · rw [if_neg hs, get?_node_of_not_mem hs]
    rfl

@[simp] theorem isLeaf_build (keys : List String) (entry : String → Option Mask) :
    (build keys entry).isLeaf = false := by
  have hloop : ∀ init : Mask, init.isLeaf = false →
      (keys.foldl (fun result field => (entry field).elim result (result.set field)) init).isLeaf =
        false := by
    induction keys with
    | nil => exact fun _ h => h
    | cons key keys ih =>
      intro init h
      rw [List.foldl_cons]
      apply ih
      cases entry key with
      | none => exact h
      | some value => exact isLeaf_set _ _ _
  exact hloop .empty rfl

@[simp] theorem isLeaf_clone (m : Mask) : m.clone.isLeaf = false := by
  cases m with
  | leaf => rfl
  | node keys sub => exact isLeaf_build _ _

@[simp] theorem get?_clone (m : Mask) (s : String) : m.clone.get? s = (m.get? s).map copied := by
  cases m with
  | leaf => simp [clone, empty, get?]
  | node keys sub =>
    rw [clone, Option.map_eq_bind]
    exact get?_build_node rfl

@[simp] theorem isLeaf_copied (m : Mask) : m.copied.isLeaf = m.isLeaf := by
  cases m with
  | leaf => rfl
  | node keys sub => exact isLeaf_clone _

@[simp] theorem isEmpty_clone (m : Mask) : m.clone.isEmpty = m.isEmpty := by
  rw [Bool.eq_iff_iff, isEmpty_iff, isEmpty_iff]
  simp

@[simp] theorem selects_copied : m.copied.Selects p ↔ m.Selects p := by
  induction m generalizing p with
  | leaf => rfl
  | node keys sub ih =>
    cases p with
    | nil => rw [selects_nil, selects_nil, isLeaf_copied]
    | cons s p =>
      rw [selects_cons (isLeaf_copied _), selects_cons rfl]
      simp only [SelectsAt, copied, isLeaf, Bool.false_eq_true, if_false, get?_clone]
      constructor
      · rintro ⟨n, hn, hp⟩
        obtain ⟨n, hget, rfl⟩ := Option.map_eq_some_iff.mp hn
        obtain ⟨hs, rfl⟩ := get?_eq_some_node.mp hget
        exact ⟨_, hget, ih s |>.mp hp⟩
      · rintro ⟨n, hget, hp⟩
        obtain ⟨hs, rfl⟩ := get?_eq_some_node.mp hget
        exact ⟨_, by rw [hget]; rfl, ih s |>.mpr hp⟩

@[simp] theorem selectsAt_clone : m.clone.SelectsAt s p ↔ m.SelectsAt s p := by
  simp only [SelectsAt, get?_clone, Option.map_eq_some_iff]
  constructor
  · rintro ⟨_, ⟨n, hget, rfl⟩, hp⟩
    exact ⟨n, hget, selects_copied.mp hp⟩
  · rintro ⟨n, hget, hp⟩
    exact ⟨_, ⟨n, hget, rfl⟩, selects_copied.mpr hp⟩

theorem not_selectsAt_of_isEmpty (h : m.isEmpty = true) : ¬ m.SelectsAt s p := by
  rintro ⟨n, hget, -⟩
  rw [isEmpty_iff.mp h s] at hget
  cases hget

/-! ## Union -/

/-- What one turn of the second loop of `Union` writes for a key. -/
def unite (entry : Option Mask) (nested : Mask) : Mask :=
  entry.elim (copied nested) fun old => if old.isLeaf ||
    nested.isLeaf then .leaf else old.union nested

def uniteAll (sub : String → Mask) (keys : List String) (init : Mask) : Mask :=
  keys.foldl (fun result field => result.set field (unite (result.get? field) (sub field))) init

theorem union_node (hm : m.isEmpty = false) (hkeys : keys.isEmpty = false) :
    m.union (node keys sub) = uniteAll sub keys m.clone := by
  rw [union, if_neg (by simp [hm]), if_neg (by simp [hkeys])]
  rfl

theorem isLeaf_uniteAll {init : Mask} (h : init.isLeaf = false) :
    (uniteAll sub keys init).isLeaf = false := by
  induction keys generalizing init with
  | nil => exact h
  | cons key keys ih => exact ih (isLeaf_set _ _ _)

theorem isLeaf_union (m other : Mask) : (m.union other).isLeaf = false := by
  cases other with
  | leaf =>
    rw [union]
    split
    · rfl
    · exact isLeaf_clone m
  | node keys sub =>
    cases hm : m.isEmpty with
    | true => rw [union, if_pos hm, isLeaf_clone]
    | false =>
      cases hkeys : keys.isEmpty with
      | true => rw [union, if_neg (by simp [hm]), if_pos hkeys, isLeaf_clone]
      | false =>
        rw [union_node hm hkeys]
        exact isLeaf_uniteAll (isLeaf_clone m)

theorem selectsAt_set {value : Mask} {key : String} :
    (m.set key value).SelectsAt s p ↔ if s = key then value.Selects p else m.SelectsAt s p := by
  simp only [SelectsAt, get?_set]
  split <;> simp

theorem selects_unite {entry : Option Mask} {nested : Mask}
    (hunion : ∀ (old : Mask) (s : String) (p : Path),
      (old.union nested).SelectsAt s p ↔ old.SelectsAt s p ∨ nested.SelectsAt s p) :
    (unite entry nested).Selects p ↔ (∃ old, entry = some old ∧ old.Selects p) ∨
    nested.Selects p := by
  cases entry with
  | none => simp [unite]
  | some old =>
    simp only [unite, Option.elim_some, Option.some.injEq, exists_eq_left']
    cases hold : old.isLeaf with
    | true => simp [selects_of_isLeaf hold, Selects]
    | false =>
      cases hnested : nested.isLeaf with
      | true => simp [selects_of_isLeaf hnested, Selects]
      | false =>
        simp only [Bool.or_false, Bool.false_eq_true, if_false]
        cases p with
        | nil => simp [selects_nil, isLeaf_union, hold, hnested]
        | cons s p =>
          rw [selects_cons (isLeaf_union _ _), selects_cons hold, selects_cons hnested, hunion]

theorem selectsAt_uniteAll (hunion : ∀ (key : String) (old : Mask) (s : String) (p : Path),
      (old.union (sub key)).SelectsAt s p ↔ old.SelectsAt s p ∨ (sub key).SelectsAt s p) (keys :
      List String) (init : Mask) :
    (uniteAll sub keys init).SelectsAt s p ↔ init.SelectsAt s p ∨ s ∈ keys ∧ (sub s).Selects p := by
  induction keys generalizing init with
  | nil => simp [uniteAll]
  | cons key keys ih =>
    rw [uniteAll, List.foldl_cons, ← uniteAll, ih, selectsAt_set, selects_unite (hunion key),
      List.mem_cons]
    by_cases hs : s = key
    · subst hs
      rw [if_pos rfl]
      simp only [SelectsAt, true_or, true_and]
      constructor
      · rintro (h | ⟨-, h⟩)
        · exact h
        · exact .inr h
      · exact .inl
    · simp [hs]

theorem selectsAt_union (m other : Mask) (s : String) (p : Path) :
    (m.union other).SelectsAt s p ↔ m.SelectsAt s p ∨ other.SelectsAt s p := by
  induction other generalizing m s p with
  | leaf =>
    have hleaf : ¬ Mask.leaf.SelectsAt s p := not_selectsAt_of_isEmpty rfl
    rw [union]
    split
    case isTrue h =>
      simp [hleaf, not_selectsAt_of_isEmpty h, not_selectsAt_of_isEmpty (m := .empty) rfl]
    case isFalse => simp [hleaf]
  | node keys sub ih =>
    cases hm : m.isEmpty with
    | true =>
      rw [union, if_pos hm, selectsAt_clone]
      simp [not_selectsAt_of_isEmpty hm]
    | false =>
      cases hkeys : keys.isEmpty with
      | true =>
        have hother : ¬ (node keys sub).SelectsAt s p := not_selectsAt_of_isEmpty hkeys
        rw [union, if_neg (by simp [hm]), if_pos hkeys, selectsAt_clone]
        simp [hother]
      | false =>
        rw [union_node hm hkeys, selectsAt_uniteAll ih, selectsAt_clone]
        simp [SelectsAt, get?_eq_some_node]

/-! ## Intersection -/

theorem isLeaf_intersection (m other : Mask) : (m.intersection other).isLeaf = false := by
  cases m with
  | leaf => rfl
  | node keys sub =>
    rw [intersection]
    split
    · rfl
    · exact isLeaf_build _ _

/-- The entry of an intersection for a key that both masks have. -/
def meet (nested otherNested : Mask) : Option Mask :=
  if nested.isLeaf && otherNested.isLeaf then some .leaf
  else if nested.isLeaf then some otherNested.clone
  else if otherNested.isLeaf then some nested.clone
  else if (nested.intersection otherNested).isEmpty then none
  else some (nested.intersection otherNested)

theorem get?_intersection (m other : Mask) (s : String) :
    (m.intersection other).get? s = (m.get? s).bind fun nested => (other.get? s).bind fun o =>
    meet nested o := by
  cases m with
  | leaf => rfl
  | node keys sub =>
    rw [intersection]
    split
    case isTrue h =>
      rcases Bool.or_eq_true _ _ |>.mp h with h | h
      · have hnone : (node keys sub).get? s = none := (isEmpty_iff (m := node keys sub)).mp h s
        rw [hnone]
        rfl
      · rw [isEmpty_iff.mp h s]
        cases (node keys sub).get? s <;> rfl
    case isFalse => exact get?_build_node rfl

theorem get?_intersection_node {other : Mask} :
    ((node keys sub).intersection other).get? s = some n ↔ s ∈ keys ∧ ∃ o, other.get? s = some o ∧
    meet (sub s) o = some n := by
  simp only [get?_intersection, Option.bind_eq_some_iff, get?_eq_some_node]
  constructor
  · rintro ⟨_, ⟨hs, rfl⟩, hmeet⟩
    exact ⟨hs, hmeet⟩
  · rintro ⟨hs, hmeet⟩
    exact ⟨_, ⟨hs, rfl⟩, hmeet⟩

theorem selects_clone (h : m.isLeaf = false) : m.clone.Selects p ↔ m.Selects p := by
  have hcopied : m.copied = m.clone := by rw [copied, h]; rfl
  rw [← hcopied, selects_copied]

theorem selectsAt_intersection (m other : Mask) (s : String) (p : Path) :
    (m.intersection other).SelectsAt s p ↔ m.SelectsAt s p ∧ other.SelectsAt s p := by
  induction m generalizing other s p with
  | leaf =>
    rw [intersection]
    simp [not_selectsAt_of_isEmpty (m := .empty) rfl, not_selectsAt_of_isEmpty (m := .leaf) rfl]
  | node keys sub ih =>
    -- both masks have an entry for the key; it is theirs in common
    have hmeet : ∀ o : Mask, (∃ n, meet (sub s) o = some n ∧ n.Selects p) ↔ (sub s).Selects p ∧
        o.Selects p := by
      intro o
      unfold meet
      cases hn : (sub s).isLeaf with
      | true =>
        cases ho : o.isLeaf with
        | true => simp [selects_of_isLeaf hn, selects_of_isLeaf ho, Selects]
        | false => simp [selects_of_isLeaf hn, selects_clone ho]
      | false =>
        cases ho : o.isLeaf with
        | true => simp [selects_of_isLeaf ho, selects_clone hn]
        | false =>
          have hboth : ((sub s).intersection o).Selects p ↔ (sub s).Selects p ∧ o.Selects p := by
            cases p with
            | nil => simp [selects_nil, isLeaf_intersection, hn]
            | cons s' p =>
              rw [selects_cons (isLeaf_intersection _ _), selects_cons hn, selects_cons ho, ih]
          simp only [Bool.and_self, Bool.false_eq_true, if_false]
          split
          case isTrue hempty =>
            rw [← hboth]
            simp only [reduceCtorEq, false_and, exists_false, false_iff]
            cases p with
            | nil => simp [selects_nil, isLeaf_intersection]
            | cons s' p =>
              rw [selects_cons (isLeaf_intersection _ _)]
              exact not_selectsAt_of_isEmpty hempty
          case isFalse => simp [hboth]
    simp only [SelectsAt, get?_intersection_node, get?_eq_some_node]
    constructor
    · rintro ⟨n, ⟨hs, o, ho, hmeets⟩, hp⟩
      obtain ⟨hnp, hop⟩ := (hmeet o).mp ⟨n, hmeets, hp⟩
      exact ⟨⟨_, ⟨hs, rfl⟩, hnp⟩, o, ho, hop⟩
    · rintro ⟨⟨_, ⟨hs, rfl⟩, hnp⟩, o, ho, hop⟩
      obtain ⟨n, hmeets, hp⟩ := (hmeet o).mpr ⟨hnp, hop⟩
      exact ⟨n, ⟨hs, o, ho, hmeets⟩, hp⟩

/-! ## Difference -/

theorem isLeaf_difference (m other : Mask) : (m.difference other).isLeaf = false := by
  cases m with
  | leaf => rfl
  | node keys sub =>
    rw [difference]
    split
    · rfl
    · split
      · exact isLeaf_clone _
      · exact isLeaf_build _ _

def without (nested1 : Mask) (entry : Option Mask) : Option Mask :=
  entry.elim (some (copied nested1)) fun nested2 =>
    if !nested1.isLeaf && !nested2.isLeaf then
      if (nested1.difference nested2).isEmpty then none else some (nested1.difference nested2)
    else none

theorem get?_difference (m other : Mask) (s : String) :
    (m.difference other).get? s = (m.get? s).bind fun nested1 =>
    without nested1 (other.get? s) := by
  cases m with
  | leaf => rfl
  | node keys sub =>
    rw [difference]
    split
    case isTrue h =>
      have hnone : (node keys sub).get? s = none := (isEmpty_iff (m := node keys sub)).mp h s
      rw [hnone]
      rfl
    case isFalse =>
      split
      case isTrue h =>
        rw [isEmpty_iff.mp h s, get?_clone]
        cases (node keys sub).get? s <;> rfl
      case isFalse => exact get?_build_node rfl

theorem get?_difference_node {other : Mask} :
    ((node keys sub).difference other).get? s = some n ↔ s ∈ keys ∧
    without (sub s) (other.get? s) = some n := by
  simp only [get?_difference, Option.bind_eq_some_iff, get?_eq_some_node]
  constructor
  · rintro ⟨_, ⟨hs, rfl⟩, hwithout⟩
    exact ⟨hs, hwithout⟩
  · rintro ⟨hs, hwithout⟩
    exact ⟨_, ⟨hs, rfl⟩, hwithout⟩

/-- Two branches are subtracted below, and an empty difference is left out. -/
theorem without_eq_some_iff {nested1 nested2 : Mask} :
    without nested1 (some nested2) = some n ↔
      nested1.isLeaf = false ∧ nested2.isLeaf = false ∧ n = nested1.difference nested2 ∧
        n.isEmpty = false := by
  simp only [without, Option.elim_some, Bool.and_eq_true, Bool.not_eq_true']
  constructor
  · intro h
    split at h
    case isTrue hboth =>
      split at h
      case isTrue => cases h
      case isFalse hne =>
        cases h
        exact ⟨hboth.1, hboth.2, rfl, by simpa using hne⟩
    case isFalse => cases h
  · rintro ⟨h1, h2, rfl, hne⟩
    rw [if_pos ⟨h1, h2⟩, if_neg (by simp [hne])]

theorem selectsAt_difference_subset {s : String} {p : Path}
    (h : (m.difference other).SelectsAt s p) : m.SelectsAt s p ∧ ¬ other.SelectsAt s p := by
  induction m generalizing other s p with
  | leaf => exact absurd h (not_selectsAt_of_isEmpty rfl)
  | node keys sub ih =>
    obtain ⟨n, hget, hp⟩ := h
    obtain ⟨hs, hwithout⟩ := get?_difference_node.mp hget
    have hnested : (node keys sub).get? s = some (sub s) := get?_node_of_mem hs
    cases hother : other.get? s with
    | none =>
      rw [hother] at hwithout
      cases hwithout
      refine ⟨⟨_, hnested, selects_copied.mp hp⟩, ?_⟩
      rintro ⟨o, ho, -⟩
      rw [hother] at ho
      cases ho
    | some o =>
      rw [hother, without_eq_some_iff] at hwithout
      obtain ⟨h1, h2, rfl, -⟩ := hwithout
      cases p with
      | nil =>
        rw [selects_nil, isLeaf_difference] at hp
        cases hp
      | cons s' p =>
        obtain ⟨hin, hout⟩ := ih s (selects_cons (isLeaf_difference _ _) |>.mp hp)
        refine ⟨⟨_, hnested, selects_cons h1 |>.mpr hin⟩, ?_⟩
        rintro ⟨o', ho', hsel⟩
        rw [hother] at ho'
        cases ho'
        exact hout (selects_cons h2 |>.mp hsel)

/-- No leaf of `m` has a node of `other` strictly below it. -/
def LeavesBelow (m other : Mask) : Prop :=
  ∀ l ∈ m.fieldLeaves, ∀ q, q ≠ [] → ¬ other.HasNode (l ++ q)

/-- An entry that is no empty map, nor has one below it. -/
def Whole (n : Mask) : Prop := (n.isLeaf = true ∨ n.isEmpty = false) ∧ n.NoEmptyBranch

theorem noEmptyBranch_iff : m.NoEmptyBranch ↔ ∀ s n, m.get? s = some n → n.Whole := by
  cases m with
  | leaf => simp [NoEmptyBranch, get?]
  | node keys sub =>
    simp only [NoEmptyBranch, get?_eq_some_node]
    constructor
    · rintro h s _ ⟨hs, rfl⟩
      exact h s hs
    · intro h s hs
      exact h s _ ⟨hs, rfl⟩

theorem hasNode_cons {m n : Mask} {s : String} {q : Path} (h : m.get? s = some n)
    (hq : n.HasNode q) : m.HasNode (s :: q) := by
  cases m with
  | leaf => cases h
  | node keys sub =>
    obtain ⟨hs, rfl⟩ := get?_eq_some_node.mp h
    exact ⟨hs, hq⟩

theorem mem_fieldLeaves_node {l : Path} :
    l ∈ (node keys sub).fieldLeaves ↔ ∃ s ∈ keys, ∃ q ∈ (sub s).leaves, l = s :: q :=
  mem_leaves_node

theorem selectsAt_difference_of_leavesBelow {s : String} {p : Path}
    (hbelow : m.LeavesBelow other) (hother : other.NoEmptyBranch) (hin : m.SelectsAt s p)
    (hout : ¬ other.SelectsAt s p) :
    (m.difference other).SelectsAt s p := by
  induction m generalizing other s p with
  | leaf => exact absurd hin (not_selectsAt_of_isEmpty rfl)
  | node keys sub ih =>
    obtain ⟨_, hnested, hp⟩ := hin
    obtain ⟨hs, rfl⟩ := get?_eq_some_node.mp hnested
    rw [SelectsAt, get?_difference, hnested, Option.bind_some]
    cases hget : other.get? s with
    | none => exact ⟨_, rfl, selects_copied.mpr hp⟩
    | some o =>
      have hnot : ¬ o.Selects p := fun h => hout ⟨o, hget, h⟩
      have ho : o.isLeaf = false := by
        by_contra h
        exact hnot (selects_of_isLeaf (by simpa using h))
      obtain ⟨hne, hob⟩ := noEmptyBranch_iff.mp hother s o hget
      -- the other entry has a key, so a leaf here would be above a node
      have hsub : (sub s).isLeaf = false := by
        by_contra h
        have hleaf : sub s = .leaf := by
          cases hsub : sub s with
          | leaf => rfl
          | node _ _ => simp [hsub, isLeaf] at h
        obtain ⟨k, hk⟩ : ∃ k, k ∈ o.keys := by
          rw [ho, isEmpty] at hne
          exact List.exists_mem_of_ne_nil _ (by simpa using hne)
        exact hbelow [s] (mem_fieldLeaves_node.mpr ⟨s, hs, [], by simp [hleaf, leaves], rfl⟩)
          [k] (by simp)
          (hasNode_cons hget (hasNode_of_mem_keys hk))
      have hbelow' : (sub s).LeavesBelow o := by
        intro l hl q hq hnode
        rw [fieldLeaves, hsub] at hl
        exact hbelow (s :: l) (mem_fieldLeaves_node.mpr ⟨s, hs, l, hl, rfl⟩) q hq
          (hasNode_cons hget hnode)
      cases p with
      | nil =>
        rw [selects_nil, hsub] at hp
        cases hp
      | cons s' p =>
        have hdiff := ih s hbelow' hob (selects_cons hsub |>.mp hp) fun h =>
          hnot (selects_cons ho |>.mpr h)
        refine ⟨_, without_eq_some_iff.mpr ⟨hsub, ho, rfl, ?_⟩, selects_cons (isLeaf_difference _ _)
          |>.mpr hdiff⟩
        by_contra h
        exact not_selectsAt_of_isEmpty (by simpa using h) hdiff

/-! ## Empty branches -/

theorem whole_leaf : Whole .leaf := ⟨.inl rfl, trivial⟩

theorem Whole.copied (h : n.Whole) : n.copied.Whole := by
  induction n with
  | leaf => exact whole_leaf
  | node keys sub ih =>
    have hcopied : (node keys sub).copied = (node keys sub).clone := rfl
    rw [hcopied]
    refine ⟨.inr ?_, noEmptyBranch_iff.mpr ?_⟩
    · rw [isEmpty_clone]
      exact h.1.resolve_left (by simp [isLeaf])
    · intro s n hget
      rw [get?_clone, Option.map_eq_some_iff] at hget
      obtain ⟨_, hnested, rfl⟩ := hget
      obtain ⟨hs, rfl⟩ := get?_eq_some_node.mp hnested
      exact ih s (noEmptyBranch_iff.mp h.2 s _ hnested)

theorem NoEmptyBranch.clone (h : m.NoEmptyBranch) : m.clone.NoEmptyBranch := by
  rw [noEmptyBranch_iff]
  intro s n hget
  rw [get?_clone, Option.map_eq_some_iff] at hget
  obtain ⟨n, hnested, rfl⟩ := hget
  exact (noEmptyBranch_iff.mp h s n hnested).copied

theorem Whole.clone (h : n.Whole) (hleaf : n.isLeaf = false) : n.clone.Whole :=
  ⟨.inr (by rw [isEmpty_clone]; exact h.1.resolve_left (by simp [hleaf])), h.2.clone⟩

theorem noEmptyBranch_empty : Mask.empty.NoEmptyBranch := by
  intro s hs
  cases hs

theorem isEmpty_eq_false_of_get? (h : m.get? s = some n) : m.isEmpty = false := by
  by_contra hempty
  rw [isEmpty_iff.mp (by simpa using hempty) s] at h
  cases h

theorem NoEmptyBranch.set {value : Mask} {key : String} (h : m.NoEmptyBranch)
    (hvalue : value.Whole) :
    (m.set key value).NoEmptyBranch := by
  rw [noEmptyBranch_iff] at h ⊢
  intro s n hget
  rw [get?_set] at hget
  split at hget
  · cases hget
    exact hvalue
  · exact h s n hget

theorem Whole.unite {entry : Option Mask} {nested : Mask} (h : nested.Whole)
    (hentry : ∀ old ∈ entry, old.Whole) (hunion : ∀ old : Mask, old.NoEmptyBranch →
      (old.union nested).NoEmptyBranch ∧
      (old.isEmpty = false → (old.union nested).isEmpty = false)) :
    (unite entry nested).Whole := by
  cases entry with
  | none => exact h.copied
  | some old =>
    have hold := hentry old rfl
    rw [Mask.unite, Option.elim_some]
    split
    case isTrue => exact whole_leaf
    case isFalse hleaf =>
      simp only [Bool.or_eq_true, not_or, Bool.not_eq_true] at hleaf
      obtain ⟨hbranch, hfull⟩ := hunion old hold.2
      exact ⟨.inr (hfull (hold.1.resolve_left (by simp [hleaf.1]))), hbranch⟩

theorem NoEmptyBranch.uniteAll {init : Mask} {keys : List String}
    (hsub : ∀ key ∈ keys, (sub key).Whole)
    (hunion : ∀ (key : String) (old : Mask), old.NoEmptyBranch → (sub key).NoEmptyBranch →
      (old.union (sub key)).NoEmptyBranch ∧
    (old.isEmpty = false → (old.union (sub key)).isEmpty = false)) (hinit : init.NoEmptyBranch)
    (hne : init.isEmpty = false) :
    (uniteAll sub keys init).NoEmptyBranch ∧ (uniteAll sub keys init).isEmpty = false := by
  induction keys generalizing init with
  | nil => exact ⟨hinit, hne⟩
  | cons key keys ih =>
    have hkey : (sub key).Whole := hsub key List.mem_cons_self
    refine ih (fun k hk => hsub k (List.mem_cons_of_mem _ hk)) (hinit.set ?_)
      (isEmpty_eq_false_of_get? (s := key) (by rw [get?_set, if_pos rfl]))
    exact hkey.unite (fun old hget => noEmptyBranch_iff.mp hinit key old hget) fun old hold =>
      hunion key old hold hkey.2

theorem union_keeps (m other : Mask) (hm : m.NoEmptyBranch) (hother : other.NoEmptyBranch) :
    (m.union other).NoEmptyBranch ∧ (m.isEmpty = false → (m.union other).isEmpty = false) := by
  induction other generalizing m with
  | leaf =>
    rw [union]
    split
    case isTrue h => exact ⟨noEmptyBranch_empty, fun hne => absurd h (by simp [hne])⟩
    case isFalse => exact ⟨hm.clone, fun hne => by rw [isEmpty_clone, hne]⟩
  | node keys sub ih =>
    cases hempty : m.isEmpty with
    | true =>
      rw [union, if_pos hempty]
      exact ⟨hother.clone, fun h => by cases h⟩
    | false =>
      cases hkeys : keys.isEmpty with
      | true =>
        rw [union, if_neg (by simp [hempty]), if_pos hkeys, isEmpty_clone]
        exact ⟨hm.clone, fun _ => hempty⟩
      | false =>
        rw [union_node hempty hkeys]
        obtain ⟨hbranch, hne⟩ :=
          NoEmptyBranch.uniteAll hother ih hm.clone (by rw [isEmpty_clone, hempty])
        exact ⟨hbranch, fun _ => hne⟩

theorem NoEmptyBranch.intersection (hm : m.NoEmptyBranch) (hother : other.NoEmptyBranch) :
    (m.intersection other).NoEmptyBranch := by
  induction m generalizing other with
  | leaf => exact noEmptyBranch_empty
  | node keys sub ih =>
    rw [noEmptyBranch_iff]
    intro s n hget
    obtain ⟨hs, o, ho, hmeet⟩ := get?_intersection_node.mp hget
    have howhole : o.Whole := noEmptyBranch_iff.mp hother s o ho
    unfold meet at hmeet
    split at hmeet
    case isTrue =>
      cases hmeet
      exact whole_leaf
    case isFalse hnot =>
      split at hmeet
      case isTrue hleaf =>
        cases hmeet
        exact howhole.clone (by simpa [hleaf] using hnot)
      case isFalse hleaf =>
        split at hmeet
        case isTrue =>
          cases hmeet
          exact Whole.clone (hm s hs) (by simpa using hleaf)
        case isFalse =>
          split at hmeet
          case isTrue => cases hmeet
          case isFalse hne =>
            cases hmeet
            exact ⟨.inr (by simpa using hne), ih s (hm s hs).2 howhole.2⟩

theorem NoEmptyBranch.difference (hm : m.NoEmptyBranch) :
    (m.difference other).NoEmptyBranch := by
  induction m generalizing other with
  | leaf => exact noEmptyBranch_empty
  | node keys sub ih =>
    rw [noEmptyBranch_iff]
    intro s n hget
    obtain ⟨hs, hwithout⟩ := get?_difference_node.mp hget
    cases hother : other.get? s with
    | none =>
      rw [hother] at hwithout
      cases hwithout
      exact Whole.copied (hm s hs)
    | some o =>
      rw [hother, without_eq_some_iff] at hwithout
      obtain ⟨-, -, rfl, hne⟩ := hwithout
      exact ⟨.inr hne, ih s (hm s hs).2⟩

/-! ## The algebra -/

theorem paths_ext {m : Mask} {P : Set Path} (hnil : [] ∉ P)
    (h : ∀ s p, m.SelectsAt s p ↔ s :: p ∈ P) : m.paths = P := by
  ext p
  cases p with
  | nil => exact ⟨fun hp => absurd hp nil_notMem_paths, fun hp => absurd hp hnil⟩
  | cons s p => rw [cons_mem_paths, h]

/-- Union and intersection are those of the sets of paths. A difference loses the leaves of the
receiver that are above a node of the other mask, and nothing else. None of them makes an empty
branch. -/
theorem set_algebra (m other : Mask) (hm : m.NoEmptyBranch) (hother : other.NoEmptyBranch) :
    (m.union other).paths = m.paths ∪ other.paths ∧
    (m.intersection other).paths = m.paths ∩ other.paths ∧
    (m.difference other).paths ⊆ m.paths \ other.paths ∧
    (m.LeavesBelow other → (m.difference other).paths = m.paths \ other.paths) ∧
    (m.union other).NoEmptyBranch ∧ (m.intersection other).NoEmptyBranch ∧
    (m.difference other).NoEmptyBranch ∧
    m.clone.paths = m.paths ∧ m.clone.NoEmptyBranch := by
  have hsubset : (m.difference other).paths ⊆ m.paths \ other.paths := by
    intro p hp
    cases p with
    | nil => exact absurd hp nil_notMem_paths
    | cons s p =>
      obtain ⟨hin, hout⟩ := selectsAt_difference_subset (cons_mem_paths.mp hp)
      exact ⟨cons_mem_paths.mpr hin, fun h => hout (cons_mem_paths.mp h)⟩
  refine ⟨?_, ?_, hsubset, ?_, (union_keeps m other hm hother).1, hm.intersection hother,
    hm.difference, ?_, hm.clone⟩
  · refine paths_ext (fun h => h.elim nil_notMem_paths nil_notMem_paths) fun s p => ?_
    rw [Set.mem_union, cons_mem_paths, cons_mem_paths, selectsAt_union]
  · refine paths_ext (fun h => nil_notMem_paths h.1) fun s p => ?_
    rw [Set.mem_inter_iff, cons_mem_paths, cons_mem_paths, selectsAt_intersection]
  · intro hbelow
    refine hsubset.antisymm fun p hp => ?_
    cases p with
    | nil => exact absurd hp.1 nil_notMem_paths
    | cons s p =>
      exact cons_mem_paths.mpr (selectsAt_difference_of_leavesBelow hbelow hother
        (cons_mem_paths.mp hp.1)
        fun h => hp.2 (cons_mem_paths.mpr h))
  · refine paths_ext nil_notMem_paths fun s p => ?_
    rw [selectsAt_clone, cons_mem_paths]

def addressMask : Mask :=
  .node ["address", "name"] fun s => if s = "address" then .node ["city"] fun _ => .leaf else .leaf

def nameMask : Mask := .node ["name"] fun _ => .leaf

theorem set_algebra_address :
    (addressMask.difference nameMask).paths = addressMask.paths \ nameMask.paths := by
  have haddress : addressMask.NoEmptyBranch := by
    simp [addressMask, NoEmptyBranch, isLeaf, isEmpty, Mask.keys]
  have hname : nameMask.NoEmptyBranch := by simp [nameMask, NoEmptyBranch, isLeaf]
  refine (set_algebra addressMask nameMask haddress hname).2.2.2.1 ?_
  have hleaf : ∀ q, q ≠ [] → ¬ leaf.HasNode q := by
    intro q hq
    cases q with
    | nil => exact absurd rfl hq
    | cons s q => exact id
  simpa [LeavesBelow, fieldLeaves, addressMask, nameMask, isLeaf, leaves, HasNode] using hleaf

end Mask

end GoAtlas.FieldMask
