import GoAtlas.FieldMask.Protected

/-!
# Server-managed fields in an updated message

What a guarded mask leaves in a message is clean, and setting defaults keeps it clean: an identifier
that was set is kept, whatever else it is, and no other server-managed field is.
-/

namespace GoAtlas.FieldMask

variable {σ : Type} {S : Schema σ} {t : Fin S.types} {fd : S.Field}
    {below : Ctx (Fin S.types) → Prop} {v : Val σ} {ctx : Ctx (Fin S.types)}

def FieldClean {S : Schema σ} (fd : S.Field) (v : Val σ) (below : Ctx (Fin S.types) → Prop) :
    Prop :=
  v.has = true → fd.hasBehavior .outputOnly = false ∧
    (fd.hasBehavior .identifier = true ∨
      (fd.hasBehavior .immutable = false ∧ ∀ ctx, fd.below? = some ctx → below ctx))

/-- The message, and every message that is reached from it without passing through an identifier or
through a collection or an element that the mask names whole, has clean fields. Below a message
named whole, the mask is a leaf. -/
def Clean (S : Schema σ) : Val σ → Mask → Ctx (Fin S.types) → Prop
  | .message f, m, .message t => ∀ name fd, S.field? t name = some fd →
    FieldClean fd (f name) fun ctx => Clean S (f name) ((m.get? name).getD .leaf) ctx
  | .list n e, m, .list t =>
    let element := (m.get? wildcardSegment).getD m
    element.isLeaf = false → ∀ i < n, Clean S (e i) element (.message t)
  | .map keys e, m, .map t => m.isLeaf = false → ∀ key ∈ keys, ∃ element,
    m.keyed? key = some element ∧ (element.isLeaf = false → Clean S (e key) element (.message t))
  | _, _, _ => True

theorem fieldClean_of_unspecified (h : fd.serverManagedBehavior = .unspecified)
    (hbelow : ∀ ctx, fd.below? = some ctx → below ctx) :
    FieldClean fd v below := by
  intro _
  unfold FieldDesc.serverManagedBehavior at h
  split_ifs at h with hout hid him
  exact ⟨by simpa using hout, .inr ⟨by simpa using him, hbelow⟩⟩

theorem fieldClean_of_identifier
    (h : fd.serverManagedBehavior = .identifier) : FieldClean fd v below := by
  intro _
  unfold FieldDesc.serverManagedBehavior at h
  split_ifs at h with hout hid
  exact ⟨by simpa using hout, .inl hid⟩

theorem fieldClean_of_not_has (h : v.has = false) : FieldClean fd v below := by
  intro hhas
  rw [h] at hhas
  cases hhas

theorem FieldClean.imp {v w : Val σ} {p q : Ctx (Fin S.types) → Prop}
    (h : FieldClean fd v p) (hv : v.has = true) (hpq : ∀ ctx, fd.below? = some ctx →
    p ctx → q ctx) :
    FieldClean fd w q := by
  intro _
  obtain ⟨hout, hid | ⟨him, hbelow⟩⟩ := h hv
  · exact ⟨hout, .inl hid⟩
  · exact ⟨hout, .inr ⟨him, fun ctx hctx => hpq ctx hctx (hbelow ctx hctx)⟩⟩

/-! ## Filter -/

theorem clean_collection_leaf (h : ctx.card ≠ .singular) :
    Clean S v .leaf ctx := by
  cases ctx with
  | message t => exact absurd rfl h
  | list t => cases v <;> first | trivial | exact fun hl => Bool.noConfusion hl
  | map t => cases v <;> first | trivial | exact fun hl => Bool.noConfusion hl

theorem clean_leaf (v : Val σ) (h : ¬HoldsManaged S t) :
    Clean S v .leaf (.message t) := by
  induction v generalizing t with
  | message f ih =>
    intro name fd hfd
    have hmem := (Schema.mem_of_field? hfd).1
    have hm : fd.serverManagedBehavior = .unspecified := by
      by_contra hm
      exact h (.here hmem hm)
    refine fieldClean_of_unspecified hm fun ctx hctx => ?_
    cases ctx with
    | message t' =>
      exact ih name fun hm' => h (.inside hmem (FieldDesc.expandable?_eq_some.mpr hctx) hm')
    | list t' => exact clean_collection_leaf (by simp [Ctx.card])
    | map t' => exact clean_collection_leaf (by simp [Ctx.card])
  | _ => trivial

theorem EntryOk.fieldClean {name : String} {sub : Mask} {w : Val σ}
    (h : EntryOk S true t name sub (GuardedMask S true sub)) (hfd : S.field? t name = some fd)
    (hbelow : sub.isLeaf = false → ∀ ctx, fd.below? = some ctx → GuardedMask S true sub ctx →
      Clean S w sub ctx) :
    FieldClean fd w fun ctx => Clean S w sub ctx := by
  obtain ⟨_, hid, _⟩ | ⟨hm, hwhole, hok⟩ := h fd hfd
  · exact fieldClean_of_identifier hid
  refine fieldClean_of_unspecified hm fun ctx hctx => ?_
  cases hsub : sub.isLeaf with
  | false => exact hbelow hsub ctx hctx (hok hsub ctx hctx)
  | true =>
    cases sub with
    | node _ _ => cases hsub
    | leaf =>
      cases ctx with
      | message t' => exact clean_leaf w (hwhole rfl t' (FieldDesc.expandable?_eq_some.mpr hctx))
      | list t' => exact clean_collection_leaf (by simp [Ctx.card])
      | map t' => exact clean_collection_leaf (by simp [Ctx.card])

theorem clean_walk (v : Val σ) {m : Mask} (h : GuardedMask S true m ctx) :
    Clean S (walk filterOp v m) m ctx := by
  induction v generalizing m ctx with
  | message f ih =>
    cases ctx with
    | message t =>
      intro name fd hfd
      dsimp only
      cases hsub : m.get? name with
      | none => exact fieldClean_of_not_has rfl
      | some sub =>
        refine (guardedMask_message.mp h name sub hsub).fieldClean hfd fun hl ctx _ hguard => ?_
        simp only [hl, Bool.false_eq_true, if_false]
        exact ih name hguard
    | _ => trivial
  | list n e ih =>
    cases ctx with
    | list t =>
      obtain ⟨hown, hwild⟩ := guardedMask_list.mp h
      simp only [walk]
      cases hw : m.get? wildcardSegment with
      | none =>
        intro _ i _
        simp only [hw, Option.getD_none]
        exact ih i hown
      | some w =>
        dsimp only
        split_ifs with hl
        · intro hl'
          simp [hw, hl] at hl'
        · intro _ i _
          simp only [hw, Option.getD_some]
          exact ih i (hwild w hw)
    | message t => simp only [walk]; split <;> (try split_ifs) <;> trivial
    | map t => simp only [walk]; split <;> (try split_ifs) <;> trivial
  | map keys e ih =>
    cases ctx with
    | map t =>
      rw [guardedMask_map] at h
      intro _ key hkey
      simp only [List.mem_filter] at hkey
      cases hentry : m.keyed? key with
      | none => simp [hentry, filterOp] at hkey
      | some sub =>
        refine ⟨sub, rfl, fun hl => ?_⟩
        simp only [hentry, hl, Bool.false_eq_true, if_false]
        obtain hget | ⟨_, hget⟩ := Option.or_eq_some_iff.mp hentry
        · exact ih key (h key sub hget)
        · exact ih key (h wildcardSegment sub hget)
    | _ => trivial
  | unset => cases ctx <;> trivial
  | scalar s => cases ctx <;> trivial
  | struct keys e _ => cases ctx <;> trivial
  | listValue n e _ => cases ctx <;> trivial

/-! ## Defaults -/

theorem clean_empty (m : Mask) (t : Fin S.types) :
    Clean S (.message fun _ => .unset) m (.message t) :=
  fun _ _ _ => fieldClean_of_not_has rfl

theorem Clean.fields {m : Mask} (h : Clean S v m (.message t)) :
    Clean S (.message v.fields) m (.message t) := by
  cases v with
  | message f => exact h
  | _ => exact clean_empty m t

theorem Clean.of_changed {f g : Fields σ} {m : Mask} (name : String)
    (h : Clean S (.message f) m (.message t))
    (hother : ∀ other, other ≠ name → g other = f other ∨ g other = .unset)
    (hname : ∀ fd, S.field? t name = some fd →
      FieldClean fd (g name) fun ctx => Clean S (g name) ((m.get? name).getD .leaf) ctx) :
    Clean S (.message g) m (.message t) := by
  intro other fd hfd
  by_cases heq : other = name
  · subst heq
    exact hname fd hfd
  · obtain hsame | hunset := hother other heq
    · rw [hsame]
      exact h other fd hfd
    · rw [hunset]
      exact fieldClean_of_not_has rfl

theorem clean_defaultOf {sub : Mask} {below : Fin S.types → Fields σ → Fields σ}
    (hctx : fd.below? = some ctx)
    (hbelow : ∀ t', ctx = .message t' → Clean S (.message (below t' fun _ => .unset)) sub ctx) :
    Clean S (S.defaultOf fd sub.isLeaf below) sub ctx := by
  obtain ⟨hkind, hcard⟩ := FieldDesc.below?_eq_some.mp hctx
  cases ctx with
  | message t =>
    simp only [Schema.defaultOf, hkind, hcard, Ctx.card, Ctx.type]
    split_ifs
    · exact clean_empty sub t
    · exact hbelow t rfl
  | list t =>
    simp only [Schema.defaultOf, hkind, hcard, Ctx.card]
    exact fun _ i hi => absurd hi (Nat.not_lt_zero i)
  | map t =>
    simp only [Schema.defaultOf, hkind, hcard, Ctx.card]
    exact fun _ key hkey => absurd hkey List.not_mem_nil

theorem clean_setDefault {f : Fields σ} {m sub : Mask} {name : String}
    {below : Fin S.types → Fields σ → Fields σ}
    (hsub : m.get? name = some sub) (hentry : EntryOk S true t name sub (GuardedMask S true sub))
    (hbelow : ∀ t' g, GuardedMask S true sub (.message t') →
    Clean S (.message g) sub (.message t') →
      Clean S (.message (below t' g)) sub (.message t'))
    (h : Clean S (.message f) m (.message t)) :
    Clean S (.message (S.setDefault t name sub.isLeaf below f)) m (.message t) := by
  cases hfd : S.field? t name with
  | none => rwa [Schema.setDefault, hfd]
  | some fd =>
    have hname := (Schema.mem_of_field? hfd).2
    obtain ⟨_, _, heq⟩ | ⟨t', hhas, hleaf, hex, heq⟩ | ⟨_, heq⟩ :=
      setDefault_cases hfd f sub.isLeaf below
    · rwa [heq]
    · rw [heq]
      refine h.of_changed name (fun other hne => .inl (Function.update_of_ne hne _ _)) ?_
      intro fd' hfd'
      cases hfd.symm.trans hfd'
      obtain ⟨_, _, hl⟩ | ⟨_, _, hok⟩ := hentry fd hfd
      · rw [hleaf] at hl
        cases hl
      rw [Function.update_self, hsub]
      refine (h name fd hfd).imp hhas fun ctx hctx hclean => ?_
      cases (FieldDesc.expandable?_eq_some.mp hex).symm.trans hctx
      rw [hsub] at hclean
      exact hbelow t' _ (hok hleaf _ hctx) hclean.fields
    · rw [heq]
      refine h.of_changed name (fun other hne => setField_of_ne (hname ▸ hne)) ?_
      intro fd' hfd'
      cases hfd.symm.trans hfd'
      rw [← hname, setField_self, hname, hsub]
      refine hentry.fieldClean hfd fun hl ctx hctx hguard => clean_defaultOf hctx ?_
      rintro t' rfl
      exact hbelow t' _ hguard (clean_empty sub t')

theorem clean_setDefaults (ord : Schema.Order) {m : Mask} {path : Path}
    {f : Fields σ} (hm : GuardedMask S true m (.message t))
    (h : Clean S (.message f) m (.message t)) :
    Clean S (.message (S.setDefaultsForUnsetFields ord m path t f)) m (.message t) := by
  induction m generalizing path t f with
  | leaf => exact h
  | node keys sub ih =>
    refine List.foldlRecOn (motive := fun f => Clean S (.message f) (.node keys sub) (.message t))
      _ _ h ?_
    intro f hf name hname
    have hmem : name ∈ keys := List.mem_dedup.mp ((ord.perm path keys.dedup).mem_iff.mp hname)
    exact clean_setDefault (Mask.get?_node_of_mem hmem) (hm name hmem)
      (fun t' g hg hclean => ih name hg hclean) hf

/-! ## ApplyUpdateMask -/

def accountSchema : Schema String where
  types := 1
  fullName _ := "Account"
  fields _ := [⟨"id", .singular, .scalar, [.identifier, .immutable], false, "", none⟩,
    ⟨"title", .singular, .scalar, [], false, "", none⟩]
  nodup := by decide
  ident := by decide +kernel
  oneof := by decide

def accountSchema.account : Fin accountSchema.types := ⟨0, by decide⟩

def account : Fields String := fun name =>
  if name = "id" then .scalar "a1" else if name = "title" then .scalar "first" else .unset

def titleMask : Mask := fromPaths ["title"]

theorem titleMask_check :
    accountSchema.checkUpdateMask .disabled titleMask accountSchema.account account = .ok [] := by
  have hpaths : titleMask.toPaths = ["title"] := List.mergeSort_singleton _
  have hkeys : sortedKeys ["title"] = ["title"] := List.mergeSort_singleton _
  refine checkUpdateMask_disabled ?_ ?_
  · rw [hpaths]
    decide
  · show (sortedKeys ["title"]).flatMap _ = []
    rw [hkeys]
    decide

theorem account_update_ok :
    ∃ r, accountSchema.applyUpdateMask .asListed .disabled titleMask accountSchema.account account =
      .ok r ∧
      (r.fields "id").has = true :=
  ⟨_, by rw [Schema.applyUpdateMask, titleMask_check]; rfl, rfl⟩

end GoAtlas.FieldMask
