import GoAtlas.FieldMask.Update

/-!
# What the steps of an update do to a mask

Each step is described by the entries of the mask it returns.
-/

namespace GoAtlas.FieldMask

variable {σ : Type} {S : Schema σ} {t : Fin S.types} {f : Fields σ} {m : Mask} {md : Fin S.types}

namespace Ctx

variable {τ : Type}

def type : Ctx τ → τ
  | message t | list t | map t => t

def card : Ctx τ → Card
  | message _ => .singular
  | list _ => .list
  | map _ => .map

end Ctx

theorem FieldDesc.below?_eq_some {τ : Type} {fd : FieldDesc σ τ} {ctx : Ctx τ} :
    fd.below? = some ctx ↔ fd.kind = .message ctx.type ∧ fd.card = ctx.card := by
  unfold FieldDesc.below?
  cases hc : fd.card <;> cases hk : fd.kind <;> cases ctx <;> simp [Ctx.type, Ctx.card]

theorem FieldDesc.expandable?_eq_some {τ : Type} {fd : FieldDesc σ τ} {t : τ} :
    fd.expandable? = some t ↔ fd.below? = some (.message t) := by
  unfold FieldDesc.below? FieldDesc.expandable?
  cases fd.card <;> cases fd.kind <;> simp

/-! ## Fields taken out -/

theorem isLeaf_withoutFields (r : S.Removal) (m : Mask) (ctx : Ctx (Fin S.types)) :
    (S.withoutFields r m ctx).isLeaf = m.isLeaf := by
  cases m with
  | leaf => rfl
  | node keys sub => cases ctx <;> rfl

/-- Whether the mask gives a set identifier an entry of its own. -/
def IsSetIdentifier (S : Schema σ) (t : Fin S.types) (f : Fields σ) (name : String) : Prop :=
  ∃ fd, S.field? t name = some fd ∧ fd.serverManagedBehavior = .identifier ∧ (f name).has = true

instance (t : Fin S.types) (f : Fields σ) (name : String) :
    Decidable (IsSetIdentifier S t f name) :=
  decidable_of_iff (∃ fd ∈ S.field? t name, fd.serverManagedBehavior = .identifier ∧
    (f name).has = true)
    Iff.rfl

/-! ## Identifiers added -/

theorem mem_identifierFields {fd : S.Field} :
    fd ∈ S.identifierFields t ↔ fd ∈ S.fields t ∧ fd.serverManagedBehavior = .identifier := by
  simp [Schema.identifierFields]

/-- The entries after the identifiers of `l` were added. -/
theorem get?_foldl_addIdentifier (f : Fields σ) (l : List S.Field) (m : Mask) (name : String) :
    (l.foldl (fun msk fd =>
      if (f fd.name).has ∧ msk.get? fd.name = none then msk.set fd.name .leaf else msk)
        m).get? name =
      (m.get? name).or
        (if (f name).has ∧ ∃ fd ∈ l, fd.name = name then some .leaf else none) := by
  induction l generalizing m with
  | nil => simp
  | cons fd l ih =>
    rw [List.foldl_cons, ih]
    by_cases hname : fd.name = name
    · subst hname
      by_cases hhas : (f fd.name).has = true
      · cases hget : m.get? fd.name with
        | none => simp [hhas, Mask.get?_set]
        | some sub => simp [hhas, hget]
      · simp [hhas]
    · have hne : name ≠ fd.name := fun h => hname h.symm
      simp only [List.mem_cons, exists_eq_or_imp, hname, false_or]
      split_ifs <;> simp [Mask.get?_set, hne]

theorem get?_addIdentifiers (t : Fin S.types) (f : Fields σ) (m : Mask) (name : String) :
    (S.addIdentifiers t f m).get? name =
      (m.get? name).or (if IsSetIdentifier S t f name then some .leaf else none) := by
  rw [Schema.addIdentifiers, get?_foldl_addIdentifier]
  congr 1
  refine if_congr ⟨?_, ?_⟩ rfl rfl
  · rintro ⟨hhas, fd, hfd, rfl⟩
    obtain ⟨hmem, hid⟩ := mem_identifierFields.mp hfd
    exact ⟨fd, Schema.field?_of_mem hmem, hid, hhas⟩
  · rintro ⟨fd, hfd, hid, hhas⟩
    obtain ⟨hmem, hname⟩ := Schema.mem_of_field? hfd
    exact ⟨hhas, fd, mem_identifierFields.mpr ⟨hmem, hid⟩, hname⟩

theorem isLeaf_addIdentifiers (h : m.isLeaf = false) :
    (S.addIdentifiers t f m).isLeaf = false := by
  unfold Schema.addIdentifiers
  refine List.foldlRecOn (motive := fun (m : Mask) => m.isLeaf = false) _ _ h fun m hm fd _ => ?_
  split_ifs
  exacts [Mask.isLeaf_set _ _ _, hm]

def preserved (S : Schema σ) (t : Fin S.types) (f : Fields σ) (name : String) (sub : Mask) : Mask :=
  if sub.isLeaf then sub
  else match S.field? t name with
    | none => sub
    | some fd => if (f name).has then S.preserve (f name) fd.kind fd.card sub else sub

theorem get?_preserve_message (t : Fin S.types) (f : Fields σ) (m : Mask) (name : String) :
    (S.preserve (.message f) (.message t) .singular m).get? name =
      ((m.get? name).or (if IsSetIdentifier S t f name then some .leaf else none)).map
        (preserved S t f name) := by
  rw [← get?_addIdentifiers, Schema.preserve]
  cases S.addIdentifiers t f m with
  | leaf => rfl
  | node keys sub =>
    by_cases hmem : name ∈ keys
    · rw [Mask.get?_node_of_mem hmem, Mask.get?_node_of_mem hmem]
      rfl
    · rw [Mask.get?_node_of_not_mem hmem, Mask.get?_node_of_not_mem hmem]
      rfl

theorem field?_wildcard (t : Fin S.types) : S.field? t wildcardSegment = none :=
  Schema.field?_of_not_isIdentifier (by decide +kernel)

theorem get?_preserve_of_not_field {name : String} (h : S.field? t name = none)
    (v : Val σ) (m : Mask) : (S.preserve v (.message t) .singular m).get? name = m.get? name := by
  cases v with
  | message f =>
    rw [get?_preserve_message]
    have hid : ¬IsSetIdentifier S t f name := by
      rintro ⟨fd, hfd, _⟩
      rw [h] at hfd
      cases hfd
    have hsame : preserved S t f name = id := by
      funext sub
      simp [preserved, h]
    rw [if_neg hid, Option.or_none, hsame, Option.map_id_fun, id]
  | _ => rfl

theorem isLeaf_preserve_message (h : m.isLeaf = false) (t : Fin S.types) (f : Fields σ) :
    (S.preserve (.message f) (.message t) .singular m).isLeaf = false := by
  have hadd := isLeaf_addIdentifiers (S := S) (t := t) (f := f) h
  rw [Schema.preserve]
  cases hm : S.addIdentifiers t f m with
  | leaf => simp [hm, Mask.isLeaf] at hadd
  | node keys sub => rfl

/-- The mask that all elements of a list have added to it, one after the other. -/
def preserveAll (S : Schema σ) (t : Fin S.types) (n : Nat) (e : Nat → Val σ) (m : Mask) : Mask :=
  (List.range n).foldl (fun m i => S.preserve (e i) (.message t) .singular m) m

/-- What holds of a mask and of what any message adds to it holds after all elements of a list. -/
theorem preserveAll_induct {P : Mask → Prop} {n : Nat} {e : Nat → Val σ} (h : P m)
    (hstep : ∀ i m, P m → P (S.preserve (e i) (.message t) .singular m)) :
    P (preserveAll S t n e m) :=
  List.foldlRecOn (motive := P) _ _ h fun m hm i _ => hstep i m hm

/-- A list changes the mask of its elements: the wildcard's, or its own. -/
theorem preserve_list_cases (t : Fin S.types) (n : Nat) (e : Nat → Val σ) (m : Mask) :
    S.preserve (.list n e) (.message t) .list m = m ∨
      (∃ w, m.get? wildcardSegment = some w ∧ w.isLeaf = false ∧
        S.preserve (.list n e) (.message t) .list m =
          m.set wildcardSegment (preserveAll S t n e w)) ∨
      (m.get? wildcardSegment = none ∧
        S.preserve (.list n e) (.message t) .list m = preserveAll S t n e m) := by
  rw [Schema.preserve]
  cases hw : m.get? wildcardSegment with
  | some w =>
    dsimp only
    split_ifs with hskip
    · exact .inl rfl
    · simp only [Bool.or_eq_true, not_or, Bool.not_eq_true] at hskip
      exact .inr (.inl ⟨w, rfl, hskip.1, rfl⟩)
  | none =>
    dsimp only
    split_ifs
    exacts [.inl rfl, .inr (.inr ⟨rfl, rfl⟩)]

/-- What holds of the mask of a map, and stays when an entry that is not a leaf gets what a message
adds to it, holds after the entries of a map. -/
theorem preserve_map_induct {P : Mask → Prop} {keys : List String} {e : String → Val σ} (h : P m)
    (hstep : ∀ key at_ m sub, P m → m.get? at_ = some sub → sub.isLeaf = false →
      P (m.set at_ (S.preserve (e key) (.message t) .singular sub))) :
    P (S.preserve (.map keys e) (.message t) .map m) := by
  rw [Schema.preserve]
  cases m.get? wildcardSegment with
  | none =>
    refine List.foldlRecOn (motive := P) _ _ h fun acc hacc key _ => ?_
    cases hsub : acc.get? key with
    | none => exact hacc
    | some sub =>
      dsimp only
      split_ifs with hskip
      · exact hacc
      · simp only [Bool.or_eq_true, not_or, Bool.not_eq_true] at hskip
        exact hstep key key acc sub hacc hsub hskip.1.1
  | some _ =>
    dsimp only
    split_ifs
    · exact h
    refine List.foldlRecOn (motive := P) _ _ h fun acc hacc key _ => ?_
    generalize (if (acc.get? key).isSome = true then key else wildcardSegment) = at_
    cases hsub : acc.get? at_ with
    | none => exact hacc
    | some sub =>
      dsimp only
      split_ifs with hleaf
      · exact hacc
      · exact hstep key at_ acc sub hacc hsub (by simpa using hleaf)

theorem isLeaf_preserve (v : Val σ) (ctx : Ctx (Fin S.types)) (h : m.isLeaf = false) :
    (S.preserve v (.message ctx.type) ctx.card m).isLeaf = false := by
  induction v generalizing ctx m with
  | message f _ =>
    cases ctx with
    | message t => exact isLeaf_preserve_message h t f
    | _ => exact h
  | list n e ih =>
    cases ctx with
    | list t =>
      have hall := preserveAll_induct (n := n) (P := fun m => m.isLeaf = false) h
        fun i m hm => ih i (.message t) hm
      show (S.preserve (.list n e) (.message t) .list m).isLeaf = false
      obtain heq | ⟨w, _, _, heq⟩ | ⟨_, heq⟩ := preserve_list_cases t n e m
      · rwa [heq]
      · rw [heq, Mask.isLeaf_set]
      · rwa [heq]
    | _ => exact h
  | map keys e _ =>
    cases ctx with
    | map t =>
      exact preserve_map_induct (P := fun m => m.isLeaf = false) h
        fun _ _ _ _ _ _ _ => Mask.isLeaf_set _ _ _
    | _ => exact h
  | _ => cases ctx <;> exact h

/-! ## Defaults -/

theorem setField_self (t : Fin S.types) (f : Fields σ) (fd : S.Field) (v : Val σ) :
    S.setField t f fd v fd.name = v := if_pos rfl

theorem setField_of_ne {fd : S.Field} {v : Val σ} {name : String} (h : name ≠ fd.name) :
    S.setField t f fd v name = f name ∨ S.setField t f fd v name = .unset := by
  unfold Schema.setField
  rw [if_neg h]
  split_ifs
  exacts [.inr rfl, .inl rfl]

theorem setDefault_cases {name : String} {fd : S.Field}
    (hfd : S.field? t name = some fd) (f : Fields σ) (isLeaf : Bool)
    (below : Fin S.types → Fields σ → Fields σ) :
    (f name).has = true ∧ (∀ t', isLeaf = false → fd.expandable? ≠ some t') ∧
        S.setDefault t name isLeaf below f = f ∨
      (∃ t', (f name).has = true ∧ isLeaf = false ∧ fd.expandable? = some t' ∧
        S.setDefault t name isLeaf below f =
          Function.update f name (.message (below t' (f name).fields))) ∨
      (f name).has = false ∧ S.setDefault t name isLeaf below f =
        S.setField t f fd (S.defaultOf fd isLeaf below) := by
  simp only [Schema.setDefault, hfd]
  by_cases hhas : (f name).has = true
  · rw [if_pos hhas]
    cases isLeaf with
    | true => exact .inl ⟨hhas, by simp, rfl⟩
    | false =>
      cases hex : fd.expandable? with
      | none => exact .inl ⟨hhas, by simp, rfl⟩
      | some t' => exact .inr (.inl ⟨t', hhas, rfl, rfl, rfl⟩)
  · rw [if_neg hhas]
    exact .inr (.inr ⟨by simpa using hhas, rfl⟩)

/-! ## The call -/

theorem checkUpdateMask_ok {mode : Schema.PathValidationMode} {msk : Mask}
    {reported : List ValidationError} (h : S.checkUpdateMask mode msk md f = .ok reported) :
    S.validateFieldBehaviors msk md f "" = [] := by
  by_contra hne
  simp only [Schema.checkUpdateMask, ne_eq, hne, not_false_eq_true, if_true] at h
  cases hreject : msk.toPaths.findSome? (S.rejectIndexedRepeatedAccess md) <;> rw [hreject] at h <;>
    dsimp only at h <;> split at h <;> cases h

theorem applyUpdateMask_ok {ord : Schema.Order} {mode : Schema.PathValidationMode} {msk : Mask}
    {r : Schema.Applied σ} (h : S.applyUpdateMask ord mode msk md f = .ok r) :
    S.validateFieldBehaviors msk md f "" = [] ∧ r.msk = S.appliedMask msk md f ∧
      r.fields = S.setDefaultsForUnsetFields ord (S.appliedMask msk md f) [] md
        ((S.appliedMask msk md f).iterateFilter (.message f)).fields := by
  unfold Schema.applyUpdateMask at h
  cases hcheck : S.checkUpdateMask mode msk md f with
  | error e => simp [hcheck, Except.map] at h
  | ok reported =>
    simp only [hcheck, Except.map, Except.ok.injEq] at h
    subst h
    exact ⟨checkUpdateMask_ok hcheck, rfl, rfl⟩

theorem checkUpdateMask_disabled {msk : Mask}
    (hreject : msk.toPaths.findSome? (S.rejectIndexedRepeatedAccess md) = none)
    (hchecked : S.validateFieldBehaviors msk md f "" = []) :
    S.checkUpdateMask .disabled msk md f = .ok [] := by
  simp [Schema.checkUpdateMask, hreject, hchecked]

end GoAtlas.FieldMask
