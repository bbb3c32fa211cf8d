import Mathlib.Data.List.Basic

/-!
# Splitting a list at a separator

The parts of a list between its separators, of which there is always at least one. A list with a
separator in the middle splits like its two sides.
-/

namespace GoAtlas.Lib

variable {α : Type} [DecidableEq α] {sep : α}

def splitAtSep (sep : α) : List α → List (List α)
  | [] => [[]]
  | a :: l =>
    if a = sep then [] :: splitAtSep sep l
    else match splitAtSep sep l with
      | part :: parts => (a :: part) :: parts
      | [] => [[a]]

theorem splitAtSep_ne_nil (sep : α) (l : List α) : splitAtSep sep l ≠ [] := by
  cases l with
  | nil => simp [splitAtSep]
  | cons a l =>
    simp only [splitAtSep]
    split
    · simp
    · split <;> simp

theorem splitAtSep_of_not_mem {l : List α} (h : sep ∉ l) : splitAtSep sep l = [l] := by
  induction l with
  | nil => rfl
  | cons a l ih =>
    rw [List.mem_cons, not_or] at h
    simp [splitAtSep, Ne.symm h.1, ih h.2]

theorem splitAtSep_append (sep : α) (l l' : List α) :
    splitAtSep sep (l ++ sep :: l') = splitAtSep sep l ++ splitAtSep sep l' := by
  induction l with
  | nil => simp [splitAtSep]
  | cons a l ih =>
    by_cases ha : a = sep
    · simp [splitAtSep, ha, ih]
    · cases hs : splitAtSep sep l with
      | nil => exact absurd hs (splitAtSep_ne_nil sep l)
      | cons part parts => simp [splitAtSep, ha, ih, hs]

theorem splitAtSep_front {w : List α} (hw : sep ∉ w) (l : List α) :
    ∃ part parts, splitAtSep sep l = part :: parts ∧ splitAtSep sep (w ++ l) =
      (w ++ part) :: parts := by
  induction w with
  | nil =>
    cases hs : splitAtSep sep l with
    | nil => exact absurd hs (splitAtSep_ne_nil sep l)
    | cons part parts => exact ⟨part, parts, rfl, by simpa using hs⟩
  | cons a w ih =>
    rw [List.mem_cons, not_or] at hw
    obtain ⟨part, parts, hl, hwl⟩ := ih hw.2
    exact ⟨part, parts, hl, by simp [splitAtSep, Ne.symm hw.1, hwl]⟩

theorem not_mem_of_mem_splitAtSep {l w : List α} (hw : w ∈ splitAtSep sep l) :
    sep ∉ w := by
  induction l generalizing w with
  | nil =>
    rw [List.mem_singleton.mp hw]
    exact List.not_mem_nil
  | cons a l ih =>
    simp only [splitAtSep] at hw
    split at hw
    · rcases List.mem_cons.mp hw with rfl | hw
      · exact List.not_mem_nil
      · exact ih hw
    · rename_i hne
      split at hw
      · rename_i part parts hl
        rw [hl] at ih
        rcases List.mem_cons.mp hw with rfl | hw
        · rw [List.mem_cons, not_or]
          exact ⟨Ne.symm hne, ih List.mem_cons_self⟩
        · exact ih (List.mem_cons_of_mem _ hw)
      · rename_i hl
        exact absurd hl (splitAtSep_ne_nil sep l)

theorem eq_of_splitAtSep {l w : List α} {ws : List (List α)} (h : splitAtSep sep l = w :: ws) :
    l = w ++ ws.flatMap (sep :: ·) := by
  induction l generalizing w ws with
  | nil =>
    cases h
    rfl
  | cons a l ih =>
    simp only [splitAtSep] at h
    split at h
    · rename_i ha
      cases h
      cases hl : splitAtSep sep l with
      | nil => exact absurd hl (splitAtSep_ne_nil sep l)
      | cons part parts => simp [ha, ← ih hl]
    · split at h
      · rename_i part parts hl
        cases h
        rw [ih hl, List.cons_append]
      · rename_i hl
        exact absurd hl (splitAtSep_ne_nil sep l)

theorem splitAtSep_parts {w : List α} {ws : List (List α)} (h : ∀ x ∈ w :: ws, sep ∉ x) :
    splitAtSep sep (w ++ ws.flatMap (sep :: ·)) = w :: ws := by
  induction ws generalizing w with
  | nil => simpa using splitAtSep_of_not_mem (h w List.mem_cons_self)
  | cons x ws ih =>
    rw [List.forall_mem_cons] at h
    rw [List.flatMap_cons, List.cons_append, splitAtSep_append, splitAtSep_of_not_mem h.1, ih h.2]
    rfl

def cut (sep : α) : List α → Option (List α × List α)
  | [] => none
  | a :: l =>
    if a = sep then some ([], l) else (cut sep l).map fun (front, rest) => (a :: front, rest)

theorem cut_append {w : List α} (hw : sep ∉ w) (l : List α) :
    cut sep (w ++ sep :: l) = some (w, l) := by
  induction w with
  | nil => simp [cut]
  | cons a w ih =>
    rw [List.mem_cons, not_or] at hw
    simp [cut, Ne.symm hw.1, ih hw.2]

end GoAtlas.Lib
