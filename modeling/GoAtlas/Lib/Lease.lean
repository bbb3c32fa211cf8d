/-!
# Leases

A server grants a resource to one holder for some time. A holder that judges by a clock of its own
how much of the time remains is backed if the server's lease is its own and lasts at least as long.
Two holders who have time remaining are not both backed. A holder stays backed while the clocks
advance, if the server's is not the faster one, and through every change that leaves a running lease
to its holder.
-/

namespace GoAtlas.Lib

/-- What the server has granted; nothing is left of a lease that has expired. -/
structure Lease (ι : Type) where
  holder : ι
  left : Int

variable {ι : Type} {l l' : Option (Lease ι)} {c c' : ι} {rem rem' : Int}

/-- While time remains for it, the holder has the lease, for at least that time. -/
def Backed (l : Option (Lease ι)) (c : ι) (rem : Int) : Prop :=
  0 < rem → ∃ left, l = some ⟨c, left⟩ ∧ rem ≤ left

namespace Backed

theorem eq (h : Backed l c rem) (h' : Backed l c' rem') (hrem : 0 < rem) (hrem' : 0 < rem') :
    c = c' := by
  obtain ⟨left, hl, -⟩ := h hrem
  obtain ⟨left', hl', -⟩ := h' hrem'
  cases hl.symm.trans hl'
  rfl

theorem granted {left : Int} (h : rem ≤ left) : Backed (some ⟨c, left⟩) c rem :=
  fun _ => ⟨left, rfl, h⟩

theorem elapse {d e : Int} (h : Backed l c rem) (hd : 0 ≤ d) (hed : e ≤ d) :
    Backed (l.map fun x => { x with left := x.left - e }) c (rem - d) := by
  intro hrem
  obtain ⟨left, rfl, hle⟩ := h (by omega)
  exact ⟨left - e, rfl, by omega⟩

theorem change (h : Backed l c rem)
    (hkeep : ∀ left, l = some ⟨c, left⟩ → rem ≤ left → 0 < rem → ∃ left', l' = some ⟨c, left'⟩ ∧
    rem ≤ left') :
    Backed l' c rem := by
  intro hrem
  obtain ⟨left, hl, hle⟩ := h hrem
  exact hkeep left hl hle hrem

end Backed

end GoAtlas.Lib
