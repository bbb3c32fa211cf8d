import GoAtlas.Keyset.Codec
import GoAtlas.Lib.Framing

/-!
# Composed keys

`keys.Compose` writes an ordered tuple of strings as one string, and `NewBindings` and `ComposeKey`
use it for the filter of a page token and for a storage key of the idempotency store. A string is
its bytes.
-/

namespace GoAtlas.Keys

open Lib

/-- The loop that writes the length, a colon and the bytes of each part. -/
def compose (parts : List Bytes) : Bytes :=
  parts.foldl (fun b part => b ++ decimal part.length ++ [colon] ++ part) []

/-- `idk:v2:` -/
def keyFormatPrefix : Bytes := [105, 100, 107, 58, 118, 50, 58]

/-- `ComposeKey` of `data/idempotency`. -/
def composeKey (parts : List Bytes) : Bytes := keyFormatPrefix ++ compose parts

/-- `NewBindings` of `data/keyset`. -/
def newBindings (subject sort : Bytes) (filter : List Bytes) : Keyset.Bindings :=
  { subject, sort, filter := compose filter }

theorem compose_eq_frames (parts : List Bytes) : compose parts = frames parts := by
  -- over a loop that starts with what was written before
  have hloop : ∀ b, parts.foldl (fun b part => b ++ decimal part.length ++ [colon] ++ part) b =
      b ++ frames parts := by
    induction parts with
    | nil => simp [frames]
    | cons part parts ih =>
      intro b
      rw [List.foldl_cons, ih]
      simp [frames, frame]
  exact (hloop []).trans (List.nil_append _)

theorem compose_inj {p q : List Bytes} (h : compose p = compose q) : p = q := by
  rw [compose_eq_frames, compose_eq_frames] at h
  exact frames_inj h

/-! ## Keys of keys -/

/-- A tuple of tuples, `d` levels deep. -/
def Nested : Nat → Type
  | 0 => Bytes
  | d + 1 => List (Nested d)

def nestedKey : (d : Nat) → Nested d → Bytes
  | 0, s => s
  | d + 1, parts => compose (parts.map (nestedKey d))

theorem nestedKey_inj {d : Nat} {x y : Nested d} (h : nestedKey d x = nestedKey d y) : x = y := by
  induction d with
  | zero => exact h
  | succ d ih =>
    have hparts : x.map (nestedKey d) = y.map (nestedKey d) := compose_inj h
    exact List.map_injective_iff.mpr (fun _ _ => ih) hparts

/-- Different tuples have different keys, whatever their parts are and how many, and so do tuples
whose parts are themselves composed; and therefore different bindings and different storage keys. -/
theorem composed_keys_distinct :
    (∀ p q, compose p = compose q → p = q) ∧
    (∀ d (x y : Nested d), nestedKey d x = nestedKey d y → x = y) ∧
    (∀ subject sort filter subject' sort' filter',
      newBindings subject sort filter = newBindings subject' sort' filter' →
        subject = subject' ∧ sort = sort' ∧ filter = filter') ∧
    ∀ p q, composeKey p = composeKey q → p = q := by
  refine ⟨fun _ _ => compose_inj, fun _ _ _ => nestedKey_inj, ?_, ?_⟩
  · intro subject sort filter subject' sort' filter' h
    rw [newBindings, newBindings, Keyset.Bindings.mk.injEq] at h
    obtain ⟨hsort, hfilter, hsubject⟩ := h
    exact ⟨hsubject, hsort, compose_inj hfilter⟩
  · intro p q h
    exact compose_inj (List.append_cancel_left h)

end GoAtlas.Keys
