import Mathlib.Data.Fintype.EquivFin
import Mathlib.Data.List.Lex
import Mathlib.Data.List.Perm.Subperm
import Mathlib.Data.Set.Finite.Basic
import Mathlib.Order.WellFounded

/-!
# The least of all orders that respect a relation

Elements of a finite list are to be ordered such that what must come before an element does. An
element is ready when all that must come before it is done. Taking the ready element of the lowest
rank each time gives the order that is lexicographically least by rank, and gets stuck only if the
relation has a cycle.
-/

namespace GoAtlas.Lib

variable {α : Type} {vs : List α} {before : α → α → Prop} {rank : α → Nat}

/-- All that must come before `v` is done, and `v` is not. -/
structure Ready (vs : List α) (before : α → α → Prop) (done : List α) (v : α) : Prop where
  mem : v ∈ vs
  notMem : v ∉ done
  before : ∀ a ∈ vs, before a v → a ∈ done

/-- Each element is ready in its turn. -/
def ReadyOrder (vs : List α) (before : α → α → Prop) : List α → List α → Prop
  | _, [] => True
  | done, v :: l => Ready vs before done v ∧ ReadyOrder vs before (v :: done) l

/-- The ready element of the lowest rank each time, until none is ready. -/
inductive Greedy (vs : List α) (before : α → α → Prop) (rank : α → Nat) :
    List α → List α → Prop where
  | stop {done : List α} (h : ∀ v, ¬ Ready vs before done v) : Greedy vs before rank done []
  | step {done out : List α} {v : α} (hv : Ready vs before done v)
    (hmin : ∀ u, Ready vs before done u → rank v ≤ rank u)
      (h : Greedy vs before rank (v :: done) out) : Greedy vs before rank done (v :: out)

/-- A permutation of the elements in which what must come before an element does. -/
structure IsOrder (vs : List α) (before : α → α → Prop) (l : List α) : Prop where
  perm : l.Perm vs
  before : ∀ l₁ v l₂, l = l₁ ++ v :: l₂ → ∀ a ∈ vs, before a v → a ∈ l₁

/-- One of the elements must come before itself, by way of others. -/
def Cyclic (vs : List α) (before : α → α → Prop) : Prop :=
  ∃ a, Relation.TransGen (fun a b => a ∈ vs ∧ b ∈ vs ∧ before a b) a a

variable {done done' l out : List α} {v : α}

/-! ## Orders -/

theorem Ready.congr (h : ∀ x, x ∈ done ↔ x ∈ done') (hv : Ready vs before done v) :
    Ready vs before done' v :=
  ⟨hv.mem, fun hmem => hv.notMem ((h v).mpr hmem), fun a ha hb => (h a).mp (hv.before a ha hb)⟩

theorem ReadyOrder.congr (h : ∀ x, x ∈ done ↔ x ∈ done') (hl : ReadyOrder vs before done l) :
    ReadyOrder vs before done' l := by
  induction l generalizing done done' with
  | nil => trivial
  | cons v l ih => exact ⟨hl.1.congr h, ih (fun x => by simp [h x]) hl.2⟩

theorem readyOrder_iff (hnodup : l.Nodup) (hsub : ∀ v ∈ l, v ∈ vs ∧ v ∉ done) :
    ReadyOrder vs before done l ↔
      ∀ l₁ v l₂, l = l₁ ++ v :: l₂ → ∀ a ∈ vs, before a v → a ∈ done ∨ a ∈ l₁ := by
  induction l generalizing done with
  | nil =>
    refine ⟨fun _ l₁ v l₂ heq => ?_, fun _ => trivial⟩
    simp at heq
  | cons u l ih =>
    obtain ⟨hu, hnodup⟩ := List.nodup_cons.mp hnodup
    have hsub' : ∀ v ∈ l, v ∈ vs ∧ v ∉ u :: done := fun v hv =>
      ⟨(hsub v (List.mem_cons_of_mem _ hv)).1, by
        rw [List.mem_cons, not_or]
        exact ⟨fun heq => hu (heq ▸ hv), (hsub v (List.mem_cons_of_mem _ hv)).2⟩⟩
    have hrest := ih hnodup hsub'
    rw [ReadyOrder, hrest]
    constructor
    · rintro ⟨hready, hl⟩ l₁ v l₂ heq a ha hb
      cases l₁ with
      | nil =>
        cases heq
        exact .inl (hready.before a ha hb)
      | cons x l₁ =>
        cases heq
        rcases hl l₁ v l₂ rfl a ha hb with hmem | hmem
        · rcases List.mem_cons.mp hmem with rfl | hmem
          · exact .inr List.mem_cons_self
          · exact .inl hmem
        · exact .inr (List.mem_cons_of_mem _ hmem)
    · intro hl
      refine ⟨⟨(hsub u List.mem_cons_self).1, (hsub u List.mem_cons_self).2, fun a ha hb => ?_⟩,
        fun l₁ v l₂ heq a ha hb => ?_⟩
      · exact (hl [] u l rfl a ha hb).resolve_right (by simp)
      · rcases hl (u :: l₁) v l₂ (by rw [heq]; rfl) a ha hb with hmem | hmem
        · exact .inl (List.mem_cons_of_mem _ hmem)
        · rcases List.mem_cons.mp hmem with rfl | hmem
          · exact .inl List.mem_cons_self
          · exact .inr hmem

theorem IsOrder.readyOrder (hvs : vs.Nodup) (h : IsOrder vs before l) : ReadyOrder vs before [] l :=
  (readyOrder_iff (h.perm.nodup_iff.mpr hvs) fun v hv => ⟨h.perm.mem_iff.mp hv, by simp⟩).mpr
    fun l₁ v l₂ heq a ha hb => .inr (h.before l₁ v l₂ heq a ha hb)

theorem ReadyOrder.erase [DecidableEq α] (hl : ReadyOrder vs before done l)
    (hv : Ready vs before done v) :
    ReadyOrder vs before (v :: done) (l.erase v) := by
  induction l generalizing done with
  | nil => trivial
  | cons u l ih =>
    obtain ⟨hu, hl⟩ := hl
    by_cases heq : u = v
    · subst heq
      rw [List.erase_cons_head]
      exact hl
    · rw [List.erase_cons_tail (by simpa using heq)]
      refine ⟨⟨hu.mem, ?_, fun a ha hb => List.mem_cons_of_mem _ (hu.before a ha hb)⟩, ?_⟩
      · rw [List.mem_cons, not_or]
        exact ⟨heq, hu.notMem⟩
      · have hv' : Ready vs before (u :: done) v :=
          ⟨hv.mem, by rw [List.mem_cons, not_or]; exact ⟨fun h => heq h.symm, hv.notMem⟩,
            fun a ha hb => List.mem_cons_of_mem _ (hv.before a ha hb)⟩
        refine (ih hl hv').congr fun x => ?_
        simp only [List.mem_cons]
        exact or_left_comm

/-! ## The greedy order -/

theorem Greedy.readyOrder (h : Greedy vs before rank done out) : ReadyOrder vs before done out := by
  induction h with
  | stop => trivial
  | step hv _ _ ih => exact ⟨hv, ih⟩

theorem Greedy.nodup (h : Greedy vs before rank done out) :
    out.Nodup ∧ ∀ v ∈ out, v ∈ vs ∧ v ∉ done := by
  induction h with
  | stop => exact ⟨List.nodup_nil, by simp⟩
  | step hv _ _ ih =>
    obtain ⟨hnodup, hsub⟩ := ih
    refine ⟨List.nodup_cons.mpr ⟨fun hmem => (hsub _ hmem).2 List.mem_cons_self, hnodup⟩,
      fun u hu => ?_⟩
    rcases List.mem_cons.mp hu with rfl | hu
    · exact ⟨hv.mem, hv.notMem⟩
    · exact ⟨(hsub u hu).1, fun hmem => (hsub u hu).2 (List.mem_cons_of_mem _ hmem)⟩

/-- Against an order of all that is not done: the same elements, and no higher by rank. -/
theorem Greedy.le_of_order [DecidableEq α] (hrank : ∀ a ∈ vs, ∀ b ∈ vs, rank a = rank b → a = b)
    (h : Greedy vs before rank done out) (hl : ReadyOrder vs before done l)
    (hall : ∀ v ∈ vs, v ∉ done → v ∈ l) :
    out.map rank ≤ l.map rank ∧ l.Perm out := by
  induction h generalizing l with
  | stop hstop =>
    cases l with
    | nil => exact ⟨le_rfl, .nil⟩
    | cons u l => exact absurd hl.1 (hstop u)
  | @step done out v hv hmin hg ih =>
    have hmem : v ∈ l := hall v hv.mem hv.notMem
    obtain ⟨hle, hperm⟩ := ih (hl.erase hv) fun u hu hnot => by
      rw [List.mem_cons, not_or] at hnot
      exact (List.mem_erase_of_ne hnot.1).mpr (hall u hu hnot.2)
    refine ⟨?_, (List.perm_cons_erase hmem).trans (hperm.cons v)⟩
    cases l with
    | nil => cases hmem
    | cons u l =>
      rw [List.map_cons, List.map_cons]
      rcases Nat.lt_or_eq_of_le (hmin u hl.1) with hlt | heq
      · exact le_of_lt (List.Lex.rel hlt)
      · obtain rfl := hrank v hv.mem u hl.1.mem heq
        rw [List.erase_cons_head] at hle
        exact List.cons_le_cons _ hle

theorem Greedy.stuck (h : Greedy vs before rank done out) :
    ∃ last, (∀ x, x ∈ last ↔ x ∈ out ∨ x ∈ done) ∧ ∀ v, ¬ Ready vs before last v := by
  induction h with
  | @stop done hstop => exact ⟨done, fun x => by simp, hstop⟩
  | @step done out v hv hmin hg ih =>
    obtain ⟨last, hlast, hstuck⟩ := ih
    refine ⟨last, fun x => ?_, hstuck⟩
    rw [hlast, List.mem_cons, List.mem_cons]
    exact or_left_comm.trans or_assoc.symm

/-! ## Cycles -/

theorem IsOrder.not_cyclic [DecidableEq α] (hvs : vs.Nodup) (h : IsOrder vs before l) :
    ¬ Cyclic vs before := by
  have hnodup : l.Nodup := h.perm.nodup_iff.mpr hvs
  have hlt : ∀ a b, a ∈ vs ∧ b ∈ vs ∧ before a b → l.idxOf a < l.idxOf b := by
    rintro a b ⟨ha, hb, hab⟩
    obtain ⟨l₁, l₂, heq⟩ := List.append_of_mem (h.perm.mem_iff.mpr hb)
    have hmem := h.before l₁ b l₂ heq a ha hab
    have hnot : b ∉ l₁ := by
      rw [heq] at hnodup
      exact fun hb' => (List.disjoint_of_nodup_append hnodup) hb' List.mem_cons_self
    rw [heq, List.idxOf_append_of_mem hmem, List.idxOf_append_of_notMem hnot]
    have := List.idxOf_lt_length_iff.mpr hmem
    omega
  rintro ⟨a, ha⟩
  have hless : ∀ b, Relation.TransGen (fun a b => a ∈ vs ∧ b ∈ vs ∧ before a b) a b →
      l.idxOf a < l.idxOf b := by
    intro b hb
    induction hb with
    | single hab => exact hlt _ _ hab
    | tail _ hbc ih => exact ih.trans (hlt _ _ hbc)
  exact Nat.lt_irrefl _ (hless a ha)

theorem cyclic_of_stuck (hstuck : ∀ v, ¬ Ready vs before done v) (hv : v ∈ vs) (hnot : v ∉ done) :
    Cyclic vs before := by
  by_contra hacyclic
  let edge : { x // x ∈ vs } → { x // x ∈ vs } → Prop :=
    Relation.TransGen fun a b => a.1 ∈ vs ∧ b.1 ∈ vs ∧ before a.1 b.1
  have hirrefl : ∀ a, ¬ edge a a := fun a ha =>
    hacyclic ⟨a.1, Relation.TransGen.lift Subtype.val (fun _ _ h => h) a a ha⟩
  have hwf : WellFounded edge := by
    have : Finite { x // x ∈ vs } := (List.finite_toSet vs).to_subtype
    have : IsTrans _ edge := ⟨fun _ _ _ => Relation.TransGen.trans⟩
    have : Std.Irrefl edge := ⟨hirrefl⟩
    exact Finite.wellFounded_of_trans_of_irrefl edge
  obtain ⟨⟨u, hu⟩, hundone, hmin⟩ := hwf.has_min { x | x.1 ∉ done } ⟨⟨v, hv⟩, hnot⟩
  refine hstuck u ⟨hu, hundone, fun a ha hb => ?_⟩
  by_contra hadone
  exact hmin ⟨a, ha⟩ hadone (.single ⟨ha, hu, hb⟩)

/-- The greedy order of all elements is the least order, unless there is a cycle; then it is not of
all elements. -/
theorem Greedy.spec [DecidableEq α] (hvs : vs.Nodup)
    (hrank : ∀ a ∈ vs, ∀ b ∈ vs, rank a = rank b → a = b) (h : Greedy vs before rank [] out) :
    (¬ Cyclic vs before →
      IsOrder vs before out ∧ ∀ l, IsOrder vs before l → out.map rank ≤ l.map rank) ∧
    (Cyclic vs before → out.length < vs.length) := by
  obtain ⟨hnodup, hsub⟩ := h.nodup
  obtain ⟨last, hlast, hstuck⟩ := h.stuck
  have hsubset : out ⊆ vs := fun v hv => (hsub v hv).1
  have hbefore := (readyOrder_iff hnodup hsub).mp h.readyOrder
  have horder : (∀ v ∈ vs, v ∈ out) → IsOrder vs before out := fun hall =>
    ⟨(List.perm_ext_iff_of_nodup hnodup hvs).mpr fun v => ⟨fun hv => hsubset hv, hall v⟩,
      fun l₁ v l₂ heq a ha hb => (hbefore l₁ v l₂ heq a ha hb).resolve_left (by simp)⟩
  constructor
  · intro hacyclic
    have hall : ∀ v ∈ vs, v ∈ out := by
      intro v hv
      by_contra hnot
      exact hacyclic (cyclic_of_stuck hstuck hv (by rw [hlast]; simpa using hnot))
    refine ⟨horder hall, fun l hl => ?_⟩
    exact (h.le_of_order hrank (hl.readyOrder hvs) fun v hv _ => hl.perm.mem_iff.mpr hv).1
  · intro hcyclic
    by_contra hlen
    have hperm : out.Perm vs := (hnodup.subperm hsubset).perm_of_length_le (by omega)
    exact (horder fun v hv => hperm.mem_iff.mpr hv).not_cyclic hvs hcyclic

end GoAtlas.Lib
