import Mathlib.Data.List.Infix

/-!
# A store by its writes

A key-value store is the list of its writes, the newest first, and a stored value is known by the
number of writes before its own. What a reader got is then described by when it read: `ReadAfter n`
says that at least `n` writes were there.
-/

namespace GoAtlas.Lib

variable {κ α : Type}

structure Write (κ α : Type) where
  key : κ
  value : Option α
  deriving DecidableEq

structure Stored (α : Type) where
  value : α
  stamp : Nat
  deriving DecidableEq

abbrev History (κ α : Type) := List (Write κ α)

namespace History

def get [DecidableEq κ] : History κ α → κ → Option (Stored α)
  | [], _ => none
  | w :: h, k => if w.key = k then w.value.map (⟨·, h.length⟩) else get h k

def At : History κ α → Nat → Write κ α → Prop
  | [], _, _ => False
  | w' :: h, n, w => (n = h.length ∧ w' = w) ∨ At h n w

variable {h h' : History κ α} {k : κ} {n m : Nat} {w w' : Write κ α}

theorem At.lt (hat : h.At n w) : n < h.length := by
  induction h with
  | nil => exact hat.elim
  | cons w' h ih =>
    rcases hat with ⟨hn, -⟩ | hat
    · simp [hn]
    · exact Nat.lt_succ_of_lt (ih hat)

theorem At.suffix (hat : h.At n w) (hs : h <:+ h') : h'.At n w := by
  induction h' with
  | nil =>
    rw [List.suffix_nil.mp hs] at hat
    exact hat
  | cons w' h' ih =>
    rcases List.suffix_cons_iff.mp hs with rfl | hs
    · exact hat
    · exact .inr (ih hs)

section Get

variable [DecidableEq κ]

theorem at_of_get {v : Stored α} (hget : h.get k = some v) : h.At v.stamp ⟨k, some v.value⟩ := by
  induction h with
  | nil => cases hget
  | cons w h ih =>
    simp only [get] at hget
    split at hget
    · rename_i hkey
      obtain ⟨x, hx, rfl⟩ := Option.map_eq_some_iff.mp hget
      refine .inl ⟨rfl, ?_⟩
      cases w
      cases hkey
      cases hx
      rfl
    · exact .inr (ih hget)

end Get

/-! ## When a reader read -/

variable [DecidableEq κ]

/-- What a reader of `k` got when at least `n` writes were there. -/
def ReadAfter (h : History κ α) (n : Nat) (k : κ) (r : Option (Stored α)) : Prop :=
  ∃ h', h' <:+ h ∧ n ≤ h'.length ∧ get h' k = r

namespace ReadAfter

variable {r : Option (Stored α)} {v : Stored α}

theorem now (hn : n ≤ h.length) : ReadAfter h n k (h.get k) := ⟨h, List.suffix_rfl, hn, rfl⟩

theorem mono (hr : ReadAfter h n k r) (hm : m ≤ n) : ReadAfter h m k r := by
  obtain ⟨h', hs, hn, hget⟩ := hr
  exact ⟨h', hs, hm.trans hn, hget⟩

theorem suffix (hr : ReadAfter h n k r) (hs : h <:+ h') : ReadAfter h' n k r := by
  obtain ⟨h₀, hs₀, hn, hget⟩ := hr
  exact ⟨h₀, hs₀.trans hs, hn, hget⟩

theorem stored (hr : ReadAfter h n k (some v)) : h.At v.stamp ⟨k, some v.value⟩ := by
  obtain ⟨h', hs, -, hget⟩ := hr
  exact (at_of_get hget).suffix hs

end ReadAfter

end History

end GoAtlas.Lib
