import GoAtlas.Lib.Assoc
import Mathlib.Data.List.Infix
import Mathlib.Data.List.Perm.Basic

/-!
# Trees of named values

A directory names values and other directories. `look` says what is at a path. `put` sets a value at
a path: it makes the directories that are missing, replaces whatever is at the path, and does
nothing if a value stands in the way. What `put` does to the paths is a function of what was at them
(`Layout.put`), and there two puts commute unless they are at the same path.
-/

namespace GoAtlas.Lib

inductive PathTree (κ ν : Type) where
  | leaf (v : ν)
  | node (children : List (κ × PathTree κ ν))

abbrev Dir (κ ν : Type) : Type := List (κ × PathTree κ ν)

theorem PathTree.induct {κ ν : Type} {P : PathTree κ ν → Prop} (leaf : ∀ v, P (.leaf v))
    (node : ∀ d : Dir κ ν, (∀ e ∈ d, P e.2) → P (.node d)) (t : PathTree κ ν) : P t :=
  @PathTree.rec κ ν P (fun d => ∀ e ∈ d, P e.2) (fun e => P e.2) leaf node
    (fun _ h => absurd h List.not_mem_nil)
    (fun _ _ he hd => List.forall_mem_cons.mpr ⟨he, hd⟩) (fun _ _ ht => ht) t

inductive Spot (ν : Type) where
  | leaf (v : ν)
  | dir

variable {κ ν : Type}

namespace PathTree

variable [DecidableEq κ]

def look : Dir κ ν → List κ → Option (Spot ν)
  | _, [] => some .dir
  | d, s :: p =>
    match d.lookup s with
    | none => none
    | some (.leaf v) => if p = [] then some (.leaf v) else none
    | some (.node d') => look d' p

def put : Dir κ ν → List κ → ν → Dir κ ν
  | d, [], _ => d
  | d, [s], v => Assoc.put d s (.leaf v)
  | d, s :: t :: p, v =>
    match d.lookup s with
    | none => Assoc.put d s (.node (put [] (t :: p) v))
    | some (.leaf _) => d
    | some (.node d') => Assoc.put d s (.node (put d' (t :: p) v))

end PathTree

/-! ## Layouts -/

abbrev Layout (κ ν : Type) : Type := List κ → Option (Spot ν)

/-- `p` is a proper prefix of `q`. -/
def Below (p q : List κ) : Prop := p <+: q ∧ p ≠ q

namespace Layout

open Classical

variable {L : Layout κ ν} {p q r : List κ} {v w : ν}

/-- A value stands in the way of the path. -/
def Blocked (L : Layout κ ν) (p : List κ) : Prop := ∃ q w, Below q p ∧ L q = some (.leaf w)

noncomputable def put (L : Layout κ ν) (p : List κ) (v : ν) : Layout κ ν :=
  if Blocked L p then L
  else fun q => if q = p then some (.leaf v)
    else if p <+: q then none else if q <+: p then some .dir else L q

theorem put_of_blocked (h : Blocked L p) : L.put p v = L := by
  unfold put
  rw [if_pos h]

theorem put_apply (h : ¬Blocked L p) : L.put p v q =
    if q = p then some (.leaf v) else if p <+: q then none else if q <+: p then some .dir
      else L q := by
  unfold put
  rw [if_neg h]

theorem put_eq_leaf (h : ¬Blocked L p) :
    L.put p v q = some (.leaf w) ↔ (q = p ∧ w = v) ∨
      (¬p <+: q ∧ ¬q <+: p ∧ L q = some (.leaf w)) := by
  rw [put_apply h]
  split_ifs with h₁ h₂ h₃
  · subst h₁
    simp [eq_comm]
  · simp [h₁, h₂]
  · simp [h₁, h₃]
  · simp [h₁, h₂, h₃]

theorem blocked_put (h : ¬Blocked L q) : Blocked (L.put q w) p ↔ Below q p ∨ Blocked L p := by
  constructor
  · rintro ⟨s, u, hs, hleaf⟩
    rcases (put_eq_leaf h).mp hleaf with ⟨rfl, -⟩ | ⟨-, -, hleaf⟩
    · exact .inl hs
    · exact .inr ⟨s, u, hs, hleaf⟩
  · rintro (hqp | ⟨s, u, hs, hleaf⟩)
    · exact ⟨q, w, hqp, (put_eq_leaf h).mpr (.inl ⟨rfl, rfl⟩)⟩
    · by_cases hqs : q <+: s
      · -- the value was replaced by the one at `q`, which is in the way as well
        have hqp : Below q p := by
          refine ⟨hqs.trans hs.1, ?_⟩
          rintro rfl
          exact hs.2 (hs.1.eq_of_length (Nat.le_antisymm hs.1.length_le hqs.length_le))
        exact ⟨q, w, hqp, (put_eq_leaf h).mpr (.inl ⟨rfl, rfl⟩)⟩
      · by_cases hsq : s <+: q
        · refine absurd ⟨s, u, ⟨hsq, ?_⟩, hleaf⟩ h
          rintro rfl
          exact hqs (List.prefix_refl _)
        · exact ⟨s, u, hs, (put_eq_leaf h).mpr (.inr ⟨hqs, hsq, hleaf⟩)⟩

theorem Blocked.mono (h : Blocked L q) (hqp : q <+: p) : Blocked L p := by
  obtain ⟨s, u, ⟨hsq, hne⟩, hleaf⟩ := h
  refine ⟨s, u, ⟨hsq.trans hqp, ?_⟩, hleaf⟩
  rintro rfl
  exact hne (hsq.eq_of_length (Nat.le_antisymm hsq.length_le hqp.length_le))

theorem put_put_of_below (hqp : Below q p) :
    (L.put p v).put q w = L.put q w ∧ (L.put q w).put p v = L.put q w := by
  by_cases hq : Blocked L q
  · have hp := hq.mono hqp.1
    rw [put_of_blocked hp, put_of_blocked hq]
    exact ⟨rfl, put_of_blocked hp⟩
  · refine ⟨?_, put_of_blocked ((blocked_put hq).mpr (.inl hqp))⟩
    by_cases hp : Blocked L p
    · rw [put_of_blocked hp]
    · have hpq : ¬Below p q := by
        rintro ⟨hle, hne⟩
        exact hne (hle.eq_of_length (Nat.le_antisymm hle.length_le hqp.1.length_le))
      have hq' : ¬Blocked (L.put p v) q := by
        rw [blocked_put hp]
        exact not_or.mpr ⟨hpq, hq⟩
      funext r
      rw [put_apply hq', put_apply hq]
      split_ifs with h₁ h₂ h₃
      · rfl
      · rfl
      · rfl
      · have hpr : ¬p <+: r := fun h => h₂ (hqp.1.trans h)
        have hrp : ¬r <+: p := fun h => (List.prefix_or_prefix_of_prefix h hqp.1).elim h₃ h₂
        have hne : r ≠ p := fun h => hpr (h ▸ List.prefix_refl _)
        rw [put_apply hp, if_neg hne, if_neg hpr, if_neg hrp]

theorem put_comm (hne : p ≠ q) : (L.put p v).put q w = (L.put q w).put p v := by
  by_cases hqp : q <+: p
  · have h := put_put_of_below (L := L) (v := v) (w := w) ⟨hqp, hne.symm⟩
    rw [h.1, h.2]
  by_cases hpq : p <+: q
  · have h := put_put_of_below (L := L) (v := w) (w := v) ⟨hpq, hne⟩
    rw [h.1, h.2]
  by_cases hp : Blocked L p
  · rw [put_of_blocked hp]
    by_cases hq : Blocked L q
    · rw [put_of_blocked hq, put_of_blocked hp]
    · rw [put_of_blocked ((blocked_put hq).mpr (.inr hp))]
  by_cases hq : Blocked L q
  · rw [put_of_blocked hq, put_of_blocked ((blocked_put hp).mpr (.inr hq))]
  have hq' : ¬Blocked (L.put p v) q := by
    rw [blocked_put hp]
    exact not_or.mpr ⟨fun h => hpq h.1, hq⟩
  have hp' : ¬Blocked (L.put q w) p := by
    rw [blocked_put hq]
    exact not_or.mpr ⟨fun h => hqp h.1, hp⟩
  funext r
  rw [put_apply hq', put_apply hp', put_apply hp, put_apply hq]
  -- no path extends both `p` and `q`
  have hboth : ¬(p <+: r ∧ q <+: r) :=
    fun h => (List.prefix_or_prefix_of_prefix h.1 h.2).elim hpq hqp
  have hleft : r <+: p → ¬q <+: r := fun h h' => hqp (h'.trans h)
  have hright : r <+: q → ¬p <+: r := fun h h' => hpq (h'.trans h)
  have hselfp : r = p → p <+: r := fun h => h ▸ List.prefix_refl _
  have hselfq : r = q → q <+: r := fun h => h ▸ List.prefix_refl _
  split_ifs <;> first | rfl | tauto

theorem foldl_put_perm {l l' : List (List κ × ν)} (hperm : l.Perm l')
    (hnodup : (l.map Prod.fst).Nodup) (L : Layout κ ν) :
    l.foldl (fun L e => L.put e.1 e.2) L = l'.foldl (fun L e => L.put e.1 e.2) L := by
  apply hperm.foldl_eq'
  intro e he f hf L
  by_cases heq : e.1 = f.1
  · rw [List.inj_on_of_nodup_map hnodup he hf heq]
  · exact put_comm heq

def root : Layout κ ν := fun p => if p = [] then some .dir else none

theorem foldl_put_origin (l : List (List κ × ν)) {p : List κ} :
    (∀ v, l.foldl (fun L e => L.put e.1 e.2) root p = some (.leaf v) → (p, v) ∈ l) ∧
      (l.foldl (fun L e => L.put e.1 e.2) root p = some .dir → p = [] ∨ ∃ e ∈ l, Below p e.1) := by
  induction l using List.reverseRecOn with
  | nil =>
    constructor
    · intro v h
      unfold List.foldl root at h
      split at h <;> cases h
    · intro h
      unfold List.foldl root at h
      split at h
      · exact .inl ‹_›
      · cases h
  | append_singleton l e ih =>
    rw [List.foldl_concat]
    have hold : (p = [] ∨ ∃ e ∈ l, Below p e.1) → p = [] ∨ ∃ f ∈ l ++ [e], Below p f.1 :=
      Or.imp_right fun ⟨f, hf, hbelow⟩ => ⟨f, List.mem_append_left _ hf, hbelow⟩
    by_cases hblocked : Blocked (l.foldl (fun L e => L.put e.1 e.2) root) e.1
    · rw [put_of_blocked hblocked]
      exact ⟨fun v h => List.mem_append_left _ (ih.1 v h), fun h => hold (ih.2 h)⟩
    · constructor
      · intro v h
        rcases (put_eq_leaf hblocked).mp h with ⟨rfl, rfl⟩ | ⟨-, -, h⟩
        · simp
        · exact List.mem_append_left _ (ih.1 v h)
      · intro h
        rw [put_apply hblocked] at h
        split_ifs at h with h₁ h₂ h₃
        · cases h
        · exact .inr ⟨e, by simp, h₃, h₁⟩
        · exact hold (ih.2 h)

/-- If no path is below another, all values are there, and the directories above them. -/
theorem foldl_put_apart {l : List (List κ × ν)} (hapart : ∀ e ∈ l, ∀ f ∈ l, ¬Below e.1 f.1)
    (hnodup : (l.map Prod.fst).Nodup) {e : List κ × ν} (he : e ∈ l) {p : List κ} :
    l.foldl (fun L e => L.put e.1 e.2) root e.1 = some (.leaf e.2) ∧
      (Below p e.1 → l.foldl (fun L e => L.put e.1 e.2) root p = some .dir) := by
  -- put the entry last: nothing can be in its way
  have hperm : l.Perm (l.erase e ++ [e]) :=
    (List.perm_cons_erase he).trans (List.perm_append_singleton _ _).symm
  rw [foldl_put_perm hperm hnodup, List.foldl_concat]
  have hfree : ¬Blocked ((l.erase e).foldl (fun L e => L.put e.1 e.2) root) e.1 := by
    rintro ⟨q, w, hq, hleaf⟩
    exact hapart _ (List.mem_of_mem_erase ((foldl_put_origin _).1 w hleaf)) e he hq
  refine ⟨by rw [put_apply hfree, if_pos rfl], fun hp => ?_⟩
  have hnot : ¬e.1 <+: p :=
    fun h => hp.2 (hp.1.eq_of_length (Nat.le_antisymm hp.1.length_le h.length_le))
  rw [put_apply hfree, if_neg hp.2, if_neg hnot, if_pos hp.1]

/-- The values of a layout, and no directory but those that lead to them. -/
def Spans (L : Layout κ ν) (S : List κ → ν → Prop) : Prop :=
  (∀ p v, L p = some (.leaf v) ↔ S p v) ∧ ∀ p, L p = some .dir ↔ p = [] ∨ ∃ q v, Below p q ∧ S q v

theorem Spans.unique {L' : Layout κ ν} {S : List κ → ν → Prop} (h : L.Spans S) (h' : L'.Spans S) :
    L = L' := by
  funext p
  have hleaf := fun v => (h.1 p v).trans (h'.1 p v).symm
  have hdir := (h.2 p).trans (h'.2 p).symm
  cases hp : L p with
  | some x =>
    cases x with
    | leaf v => exact ((hleaf v).mp hp).symm
    | dir => exact (hdir.mp hp).symm
  | none =>
    cases hp' : L' p with
    | none => rfl
    | some x =>
      cases x with
      | leaf v => cases hp.symm.trans ((hleaf v).mpr hp')
      | dir => cases hp.symm.trans (hdir.mpr hp')

theorem spans_foldl_put {l : List (List κ × ν)} (hapart : ∀ e ∈ l, ∀ f ∈ l, ¬Below e.1 f.1)
    (hnodup : (l.map Prod.fst).Nodup) (hne : ∀ e ∈ l, e.1 ≠ []) :
    Spans (l.foldl (fun L e => L.put e.1 e.2) root) fun p v => (p, v) ∈ l := by
  constructor
  · intro p v
    exact ⟨(foldl_put_origin l).1 v, fun h => (foldl_put_apart (p := p) hapart hnodup h).1⟩
  · intro p
    constructor
    · intro h
      rcases (foldl_put_origin l).2 h with rfl | ⟨⟨q, v⟩, he, hb⟩
      · exact .inl rfl
      · exact .inr ⟨q, v, hb, he⟩
    · rintro (rfl | ⟨q, v, hb, he⟩)
      · cases l with
        | nil => simp [root]
        | cons e l =>
          have he := hne e List.mem_cons_self
          exact (foldl_put_apart hapart hnodup List.mem_cons_self).2 ⟨List.nil_prefix, he.symm⟩
      · exact (foldl_put_apart hapart hnodup he).2 hb

variable {s : κ}

theorem below_cons_iff : Below (s :: q) (s :: p) ↔ Below q p := by
  simp [Below]

theorem blocked_cons {L : Layout κ ν} (hroot : ∀ w, L [] ≠ some (.leaf w)) :
    L.Blocked (s :: p) ↔ Layout.Blocked (fun q => L (s :: q)) p := by
  constructor
  · rintro ⟨q, w, hq, hleaf⟩
    cases q with
    | nil => exact absurd hleaf (hroot w)
    | cons t q =>
      obtain rfl : t = s := (List.cons_prefix_cons.mp hq.1).1
      exact ⟨q, w, below_cons_iff.mp hq, hleaf⟩
  · rintro ⟨q, w, hq, hleaf⟩
    exact ⟨s :: q, w, below_cons_iff.mpr hq, hleaf⟩

theorem put_cons {L : Layout κ ν} (hroot : L [] = some .dir) :
    L.put (s :: p) v [] = some .dir ∧ (∀ t q, t ≠ s → L.put (s :: p) v (t :: q) = L (t :: q)) ∧
      ∀ q, L.put (s :: p) v (s :: q) = Layout.put (fun q => L (s :: q)) p v q := by
  have hleaf : ∀ w, L [] ≠ some (.leaf w) := by simp [hroot]
  by_cases hblocked : L.Blocked (s :: p)
  · rw [put_of_blocked hblocked, put_of_blocked ((blocked_cons hleaf).mp hblocked)]
    exact ⟨hroot, fun _ _ _ => rfl, fun _ => rfl⟩
  · have hrest : ¬Layout.Blocked (fun q => L (s :: q)) p :=
      fun h => hblocked ((blocked_cons hleaf).mpr h)
    refine ⟨?_, fun t q hne => ?_, fun q => ?_⟩
    · simp [put_apply hblocked]
    · simp [put_apply hblocked, hne, Ne.symm hne]
    · simp only [put_apply hblocked, put_apply hrest, List.cons.injEq, true_and,
        List.cons_prefix_cons]

/-- Only what is beside the path, and values in its way, matter to a put. -/
theorem put_congr {L L' : Layout κ ν} (hleaf : ∀ q w, L q = some (.leaf w) ↔ L' q = some (.leaf w))
    (hrest : ∀ q, q ≠ [] → L q = L' q) (q : List κ) (hblocked : ¬L.Blocked p) :
    L.put p v q = L'.put p v q := by
  have hblocked' : ¬L'.Blocked p := by
    rintro ⟨r, w, hr, h⟩
    exact hblocked ⟨r, w, hr, (hleaf r w).mpr h⟩
  rw [put_apply hblocked, put_apply hblocked']
  cases q with
  | nil => simp
  | cons t q => rw [hrest _ (List.cons_ne_nil t q)]

end Layout

namespace PathTree

variable [DecidableEq κ] {d : Dir κ ν} {s t : κ} {p q : List κ} {v w : ν}

open Classical in
theorem look_nil_dir : look ([] : Dir κ ν) = Layout.root := by
  funext p
  cases p <;> rfl

theorem look_put_same (n : PathTree κ ν) (q : List κ) :
    look (Assoc.put d s n) (s :: q) = look [(s, n)] (s :: q) := by
  simp [look, Assoc.lookup_put]

theorem look_put_other (n : PathTree κ ν) (hne : t ≠ s) (q : List κ) :
    look (Assoc.put d s n) (t :: q) = look d (t :: q) := by
  simp [look, Assoc.lookup_put, hne]

theorem look_put (hp : p ≠ []) : look (put d p v) = Layout.put (look d) p v := by
  induction p generalizing d with
  | nil => exact absurd rfl hp
  | cons s p ih =>
    cases p with
    | nil =>
      have hfree : ¬Layout.Blocked (look d) [s] := by
        rintro ⟨q, w, ⟨hq, hne⟩, hleaf⟩
        rcases List.prefix_cons_iff.mp hq with rfl | ⟨q', rfl, hq'⟩
        · cases hleaf
        · exact hne (by rw [List.prefix_nil.mp hq'])
      funext q
      rw [Layout.put_apply hfree, put]
      cases q with
      | nil => simp [look]
      | cons t q =>
        by_cases hts : t = s
        · subst hts
          rw [look_put_same]
          by_cases hq : q = []
          · simp [look, hq]
          · simp [look, hq]
        · rw [look_put_other _ hts]
          simp [hts, Ne.symm hts]
    | cons t p =>
      obtain ⟨hnil, hother, hsame⟩ :=
        Layout.put_cons (s := s) (p := t :: p) (v := v) (L := look d) rfl
      -- what becomes of the directory at `s`
      have hput : ∀ d', put d (s :: t :: p) v = Assoc.put d s (.node d') →
          (∀ q, look d' q = Layout.put (fun q => look d (s :: q)) (t :: p) v q) →
          look (put d (s :: t :: p) v) = Layout.put (look d) (s :: t :: p) v := by
        intro d' hd hlook
        funext q
        rw [hd]
        cases q with
        | nil => exact hnil.symm
        | cons u q =>
          by_cases hus : u = s
          · subst hus
            rw [look_put_same, hsame, ← hlook]
            simp [look]
          · rw [look_put_other _ hus, hother u q hus]
      cases hs : d.lookup s with
      | none =>
        have hempty : ∀ q, look d (s :: q) = none := fun q => by simp [look, hs]
        apply hput (put [] (t :: p) v) (by rw [put, hs])
        intro q
        rw [ih (List.cons_ne_nil t p)]
        apply Layout.put_congr
        · intro q w
          rw [hempty]
          cases q <;> simp [look]
        · intro q hq
          rw [hempty]
          cases q with
          | nil => exact absurd rfl hq
          | cons u q => rfl
        · rintro ⟨q, w, -, hleaf⟩
          cases q <;> cases hleaf
      | some n =>
        cases n with
        | leaf w =>
          have hblocked : Layout.Blocked (look d) (s :: t :: p) :=
            ⟨[s], w, ⟨by simp, by simp⟩, by simp [look, hs]⟩
          rw [Layout.put_of_blocked hblocked, put, hs]
        | node d' =>
          apply hput (put d' (t :: p) v) (by rw [put, hs])
          intro q
          rw [ih (List.cons_ne_nil t p)]
          congr 1
          funext q
          simp [look, hs]

/-! ## The values of a tree -/

theorem look_above {q : List κ} (h : (look d q).isSome) (hp : Below p q) :
    look d p = some .dir := by
  induction p generalizing d q with
  | nil => rfl
  | cons s p ih =>
    cases q with
    | nil => exact absurd (List.prefix_nil.mp hp.1) (List.cons_ne_nil s p)
    | cons t q =>
      obtain rfl : s = t := (List.cons_prefix_cons.mp hp.1).1
      have hp := Layout.below_cons_iff.mp hp
      unfold look at h ⊢
      split at h
      · cases h
      · split at h
        · rename_i hq
          subst hq
          exact absurd (List.prefix_nil.mp hp.1) hp.2
        · cases h
      · exact ih h hp

mutual

def leaves : PathTree κ ν → List (List κ × ν)
  | .leaf v => [([], v)]
  | .node d => leavesDir d

def leavesDir : List (κ × PathTree κ ν) → List (List κ × ν)
  | [] => []
  | e :: d => leavesEntry e ++ leavesDir d

def leavesEntry : κ × PathTree κ ν → List (List κ × ν)
  | (s, t) => t.leaves.map fun l => (s :: l.1, l.2)

end

omit [DecidableEq κ] in
theorem mem_leavesDir :
    (p, v) ∈ leavesDir d ↔ ∃ e ∈ d, ∃ q, (q, v) ∈ e.2.leaves ∧ p = e.1 :: q := by
  induction d with
  | nil => simp [leavesDir]
  | cons e d ih =>
    obtain ⟨s, t⟩ := e
    rw [leavesDir, List.mem_append, ih, leavesEntry]
    simp only [List.mem_map, Prod.mk.injEq, Prod.exists, List.mem_cons, exists_eq_or_imp]
    constructor
    · rintro (⟨q, w, hq, rfl, rfl⟩ | h)
      · exact .inl ⟨q, hq, rfl⟩
      · exact .inr h
    · rintro (⟨q, hq, rfl⟩ | h)
      · exact .inl ⟨q, v, hq, rfl, rfl⟩
      · exact .inr h

/-- Every directory in the tree is as `P` says. -/
inductive All (P : Dir κ ν → Prop) : PathTree κ ν → Prop where
  | leaf (v : ν) : All P (.leaf v)
  | node {d : Dir κ ν} (hd : P d) (hall : ∀ e ∈ d, All P e.2) : All P (.node d)

omit [DecidableEq κ] in
theorem All.imp {P Q : Dir κ ν → Prop} (hPQ : ∀ d, P d → Q d) {t : PathTree κ ν} (h : All P t) :
    All Q t := by
  induction h with
  | leaf v => exact .leaf v
  | node hd _ ih => exact .node (hPQ _ hd) ih

def Distinct (d : Dir κ ν) : Prop := (d.map Prod.fst).Nodup

theorem mem_leaves {t : PathTree κ ν} (h : All Distinct t) :
    (p, v) ∈ t.leaves ↔ match t with
      | .leaf w => p = [] ∧ v = w
      | .node d => look d p = some (.leaf v) := by
  induction h generalizing p with
  | leaf w => simp [leaves]
  | @node d hd hall ih =>
    dsimp only
    rw [leaves, mem_leavesDir]
    constructor
    · rintro ⟨⟨s, t⟩, he, q, hq, rfl⟩
      have hlookup : d.lookup s = some t := (Assoc.lookup_eq_some_iff_mem hd).mpr he
      have hq := (ih _ he).mp hq
      cases t with
      | leaf w =>
        obtain ⟨rfl, rfl⟩ := hq
        simp [look, hlookup]
      | node d' => simpa [look, hlookup] using hq
    · intro h
      cases p with
      | nil => cases h
      | cons s q =>
        unfold look at h
        split at h
        · cases h
        · rename_i w hlookup
          split at h
          · rename_i hq
            cases h
            exact ⟨(s, .leaf v), Assoc.mem_of_lookup hlookup, q, by simp [leaves, hq], rfl⟩
          · cases h
        · rename_i d' hlookup
          have he := Assoc.mem_of_lookup hlookup
          exact ⟨(s, .node d'), he, q, (ih _ he).mpr h, rfl⟩

omit [DecidableEq κ] in
theorem leaves_ne_nil {t : PathTree κ ν} (h : All (· ≠ []) t) : t.leaves ≠ [] := by
  induction h with
  | leaf v => simp [leaves]
  | @node d hd hall ih =>
    obtain ⟨e, he⟩ := List.exists_mem_of_ne_nil d hd
    obtain ⟨l, hl⟩ := List.exists_mem_of_ne_nil _ (ih e he)
    rw [leaves]
    exact List.ne_nil_of_mem (mem_leavesDir.mpr ⟨e, he, l.1, hl, rfl⟩)

theorem exists_dir {P : Dir κ ν → Prop} (hall : ∀ e ∈ d, All P e.2) (hp : p ≠ [])
    (h : look d p = some .dir) :
    ∃ d', All P (.node d') ∧ ∀ q, look d (p ++ q) = look d' q := by
  induction p generalizing d with
  | nil => exact absurd rfl hp
  | cons s p ih =>
    unfold look at h
    split at h
    · cases h
    · split at h <;> cases h
    · rename_i d' hlookup
      have hd' := hall _ (Assoc.mem_of_lookup hlookup)
      by_cases hnil : p = []
      · subst hnil
        exact ⟨d', hd', fun q => by simp [look, hlookup]⟩
      · cases hd' with
        | node hd hall' =>
          obtain ⟨d'', hd'', hlook⟩ := ih hall' hnil h
          exact ⟨d'', hd'', fun q => by simp [look, hlookup, hlook]⟩

theorem exists_leaf (hall : ∀ e ∈ d, All (fun d => Distinct d ∧ d ≠ []) e.2) (hp : p ≠ [])
    (h : look d p = some .dir) :
    ∃ q v, Below p q ∧ look d q = some (.leaf v) := by
  obtain ⟨d', hd', hlook⟩ := exists_dir hall hp h
  obtain ⟨⟨q, v⟩, hl⟩ := List.exists_mem_of_ne_nil _ (leaves_ne_nil (hd'.imp fun _ h => h.2))
  have hleaf : look d' q = some (.leaf v) := (mem_leaves (hd'.imp fun _ h => h.1)).mp hl
  refine ⟨p ++ q, v, ⟨List.prefix_append p q, ?_⟩, by rw [hlook, hleaf]⟩
  intro heq
  obtain rfl : q = [] := by simpa using heq
  cases hleaf

theorem spans_look (hall : ∀ e ∈ d, All (fun d => Distinct d ∧ d ≠ []) e.2) :
    Layout.Spans (look d) fun p v => look d p = some (.leaf v) := by
  refine ⟨fun _ _ => Iff.rfl, fun p => ⟨fun h => ?_, ?_⟩⟩
  · by_cases hp : p = []
    · exact .inl hp
    · exact .inr (exists_leaf hall hp h)
  · rintro (rfl | ⟨q, v, hb, h⟩)
    · rfl
    · exact look_above (by rw [h]; rfl) hb

theorem distinct_put (h : All Distinct (.node d)) : All Distinct (.node (put d p v)) := by
  have hput : ∀ {d : Dir κ ν} {s t}, All Distinct (.node d) → All Distinct t →
      All Distinct (.node (Assoc.put d s t)) := by
    intro d s t hd ht
    cases hd with
    | node hd hall =>
      refine .node (Assoc.nodup_put hd s t) fun e he => ?_
      rcases List.mem_cons.mp he with rfl | he
      · exact ht
      · exact hall e (List.mem_filter.mp he).1
  induction p generalizing d with
  | nil => exact h
  | cons s p ih =>
    cases p with
    | nil => exact hput h (.leaf v)
    | cons t p =>
      rw [put]
      cases hlookup : d.lookup s with
      | none => exact hput h (ih (.node List.nodup_nil nofun))
      | some n =>
        cases n with
        | leaf w => exact h
        | node d' =>
          refine hput h (ih ?_)
          cases h with
          | node _ hall => exact hall _ (Assoc.mem_of_lookup hlookup)

theorem exists_look_eq (l : List (List κ × ν)) (hne : ∀ e ∈ l, e.1 ≠ []) :
    ∃ d, All Distinct (.node d) ∧
      look d = l.foldl (fun L e => Layout.put L e.1 e.2) Layout.root := by
  induction l using List.reverseRecOn with
  | nil => exact ⟨[], .node List.nodup_nil nofun, look_nil_dir⟩
  | append_singleton l e ih =>
    obtain ⟨d, hd, hlook⟩ := ih fun e he => hne e (List.mem_append_left _ he)
    refine ⟨put d e.1 e.2, distinct_put hd, ?_⟩
    rw [look_put (hne e (by simp)), hlook, List.foldl_append, List.foldl_cons, List.foldl_nil]

end PathTree

end GoAtlas.Lib
