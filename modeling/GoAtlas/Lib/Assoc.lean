import Mathlib.Data.List.Nodup

/-!
# Association lists

A map as the list of its entries, read by `List.lookup`. The order of the entries means nothing.
-/

namespace GoAtlas.Lib.Assoc

variable {κ α : Type} [DecidableEq κ] {l : List (κ × α)} {key k : κ} {v v' : α}

theorem mem_of_lookup (h : l.lookup key = some v) : (key, v) ∈ l := by
  obtain ⟨front, back, rfl, -⟩ := List.lookup_eq_some_iff.mp h
  simp

def remove (l : List (κ × α)) (key : κ) : List (κ × α) := l.filter fun e => e.1 ≠ key

def put (l : List (κ × α)) (key : κ) (v : α) : List (κ × α) := (key, v) :: remove l key

theorem remove_cons (e : κ × α) (l : List (κ × α)) (key : κ) :
    remove (e :: l) key = if e.1 = key then remove l key else e :: remove l key := by
  by_cases h : e.1 = key <;> simp [remove, h]

theorem lookup_remove (l : List (κ × α)) (key k : κ) :
    (remove l key).lookup k = if k = key then none else l.lookup k := by
  induction l with
  | nil => simp [remove]
  | cons e l ih =>
    rw [remove_cons]
    by_cases he : e.1 = key
    · rw [if_pos he, ih, List.lookup_cons]
      split_ifs with hk
      · rfl
      · rw [beq_eq_false_iff_ne.mpr fun h => hk (h.trans he)]
    · rw [if_neg he, List.lookup_cons, ih, List.lookup_cons]
      by_cases hk : k = e.1
      · have hne : k ≠ key := fun h => he (hk ▸ h)
        simp only [beq_iff_eq.mpr hk, if_neg hne]
      · rw [beq_eq_false_iff_ne.mpr hk]

theorem lookup_put (l : List (κ × α)) (key : κ) (v : α) (k : κ) :
    (put l key v).lookup k = if k = key then some v else l.lookup k := by
  rw [put, List.lookup_cons, lookup_remove]
  by_cases hk : k = key
  · simp [hk]
  · simp [beq_eq_false_iff_ne.mpr hk, hk]

theorem lookup_isSome (l : List (κ × α)) (key : κ) :
    (l.lookup key).isSome = true ↔ key ∈ l.map Prod.fst := by
  rw [List.lookup_isSome_iff, List.mem_map]
  exact exists_congr fun e => and_congr_right fun _ => by rw [beq_iff_eq, eq_comm]

theorem nodup_remove (h : (l.map Prod.fst).Nodup) (key : κ) : ((remove l key).map Prod.fst).Nodup :=
  h.sublist (List.filter_sublist.map _)

theorem nodup_put (h : (l.map Prod.fst).Nodup) (key : κ) (v : α) :
    ((put l key v).map Prod.fst).Nodup := by
  rw [put, List.map_cons, List.nodup_cons]
  exact ⟨by simp [remove], nodup_remove h key⟩

theorem remove_of_lookup (h : l.lookup key = none) : remove l key = l := by
  rw [remove, List.filter_eq_self]
  intro e he
  have hne := List.lookup_eq_none_iff.mp h e he
  rw [bne_iff_ne] at hne
  exact decide_eq_true (Ne.symm hne)

theorem perm_of_lookup (hnodup : (l.map Prod.fst).Nodup) (h : l.lookup key = some v) :
    l.Perm (put l key v) := by
  induction l with
  | nil => cases h
  | cons e l ih =>
    obtain ⟨hnot, hnodup⟩ := List.nodup_cons.mp hnodup
    rw [List.lookup_cons] at h
    rw [put, remove_cons]
    by_cases he : e.1 = key
    · rw [beq_iff_eq.mpr he.symm, Option.some.injEq] at h
      have hnone : l.lookup key = none := by
        rw [← Option.not_isSome_iff_eq_none, lookup_isSome, ← he]
        exact hnot
      rw [if_pos he, remove_of_lookup hnone, ← he, ← h]
    · rw [beq_eq_false_iff_ne.mpr (Ne.symm he)] at h
      rw [if_neg he]
      exact ((ih hnodup h).cons e).trans (.swap _ _ _)

theorem length_put_of_some (hnodup : (l.map Prod.fst).Nodup) (h : l.lookup key = some v) :
    (put l key v').length = l.length := by
  rw [(perm_of_lookup hnodup h).length_eq]
  rfl

theorem lookup_eq_some_iff_mem (hnodup : (l.map Prod.fst).Nodup) :
    l.lookup key = some v ↔ (key, v) ∈ l := by
  refine ⟨mem_of_lookup, fun hmem => ?_⟩
  have hsome := (lookup_isSome l key).mpr (List.mem_map_of_mem hmem)
  obtain ⟨v', hv'⟩ := Option.isSome_iff_exists.mp hsome
  have heq := List.inj_on_of_nodup_map hnodup (mem_of_lookup hv') hmem rfl
  rw [hv', (Prod.mk.inj heq).2]

end GoAtlas.Lib.Assoc
