import GoAtlas.FieldMask.UpdateSpec
import GoAtlas.Lib.Search

/-!
# Server-managed fields in an update

A mask is guarded when it selects no server-managed field and no singular message that holds one.
The checks and the removal of the `OUTPUT_ONLY` fields leave a guarded mask; the identifiers that
are added are the only server-managed fields of the mask that is applied, and `DropIdentifiers`
takes them out again. What a guarded mask leaves in a message is clean: the only server-managed
fields that are set are the identifiers it was given.
-/

namespace GoAtlas.FieldMask

variable {σ : Type} {S : Schema σ} {t : Fin S.types}
    {below : Ctx (Fin S.types) → List FieldViolation} {fd : S.Field} {ctx : Ctx (Fin S.types)}
    {m : Mask} {name : String} {isLeaf : Bool} {ids : Bool} {sub : Mask}

/-! ## Message types that hold a server-managed field -/

/-- The type has a server-managed field, itself or in a singular message below it. -/
inductive HoldsManaged (S : Schema σ) : Fin S.types → Prop where
  | here {t : Fin S.types} {fd : S.Field} : fd ∈ S.fields t →
      fd.serverManagedBehavior ≠ .unspecified → HoldsManaged S t
  | inside {t t' : Fin S.types} {fd : S.Field} : fd ∈ S.fields t → fd.expandable? = some t' →
      HoldsManaged S t' → HoldsManaged S t

def Descends (S : Schema σ) (t t' : Fin S.types) : Prop :=
  ∃ fd ∈ S.fields t, fd.serverManagedBehavior = .unspecified ∧ fd.expandable? = some t'

theorem HoldsManaged.reaches (h : HoldsManaged S t) :
    ∃ t', Relation.ReflTransGen (Descends S) t t' ∧
      ∃ fd ∈ S.fields t', fd.serverManagedBehavior ≠ .unspecified := by
  induction h with
  | @here t fd hfd hm => exact ⟨t, .refl, fd, hfd, hm⟩
  | @inside t t' fd hfd hex _ ih =>
    by_cases hm : fd.serverManagedBehavior = .unspecified
    · obtain ⟨t'', hreach, hmanaged⟩ := ih
      exact ⟨t'', .head ⟨fd, hfd, hm, hex⟩ hreach, hmanaged⟩
    · exact ⟨t, .refl, fd, hfd, hm⟩

/-- A search that reports nothing has seen everything that can be reached: `fuel` covers the types
that are not on the way. -/
theorem protectedLoop_complete (fuel : Nat) {t t' : Fin S.types} {pre : String}
    {visited : List (Fin S.types)} (hnil : S.protectedLoop fuel t pre visited = [])
    (ht : t ∉ visited) (hfuel : Lib.Search.unvisited visited ≤ fuel)
    (hreach : Lib.Search.Avoids (Descends S) visited t t') :
    ∀ fd ∈ S.fields t', fd.serverManagedBehavior = .unspecified := by
  induction fuel generalizing t pre visited with
  | zero => exact absurd hfuel (Nat.not_le.mpr (Lib.Search.unvisited_pos ht))
  | succ fuel ih =>
    rw [Schema.protectedLoop, List.flatMap_eq_nil_iff] at hnil
    have hfield : ∀ fd ∈ S.fields t, fd.serverManagedBehavior = .unspecified := by
      intro fd hfd
      by_contra hm
      have := hnil fd hfd
      simp [hm] at this
    obtain rfl | ⟨c, ⟨fd, hfd, hm, hex⟩, hc, hreach'⟩ := hreach.split
    · exact hfield
    · have hchild := hnil fd hfd
      simp only [hm, ne_eq, not_true_eq_false, if_false, hex, hc] at hchild
      exact ih hchild hc
        (Nat.le_of_lt_succ (Nat.lt_of_lt_of_le (Lib.Search.unvisited_cons_lt ht) hfuel))
        hreach'

theorem not_holdsManaged_of_nil {pre : String}
    (h : S.protectedDescendants t pre = []) : ¬HoldsManaged S t := by
  intro hm
  obtain ⟨t', hreach, fd, hfd, hmanaged⟩ := hm.reaches
  refine hmanaged (protectedLoop_complete S.types h List.not_mem_nil ?_
    (Lib.Search.avoids_nil hreach) fd hfd)
  exact (Finset.card_le_univ _).trans_eq (Fintype.card_fin _)

/-! ## Guarded masks -/

/-- What the entry of a field may be: an identifier that was added, if `ids` allows it, or a field
that is not server-managed and, named whole, holds none. -/
def EntryOk (S : Schema σ) (ids : Bool) (t : Fin S.types) (name : String) (sub : Mask)
    (below : Ctx (Fin S.types) → Prop) : Prop :=
  ∀ fd, S.field? t name = some fd →
    (ids = true ∧ fd.serverManagedBehavior = .identifier ∧ sub.isLeaf = true) ∨
      (fd.serverManagedBehavior = .unspecified ∧
        (sub.isLeaf = true → ∀ t', fd.expandable? = some t' → ¬HoldsManaged S t') ∧
        (sub.isLeaf = false → ∀ ctx, fd.below? = some ctx → below ctx))

/-- The mask selects no server-managed field (but for identifiers, if `ids` allows them), and no
singular message that holds one; a collection or an element may be named whole. -/
def GuardedMask (S : Schema σ) (ids : Bool) : Mask → Ctx (Fin S.types) → Prop
  | .leaf, _ => True
  | .node keys sub, ctx => match ctx with
    | .message t => ∀ name ∈ keys, EntryOk S ids t name (sub name) (GuardedMask S ids (sub name))
    | .list t => (∀ name ∈ keys, EntryOk S ids t name (sub name) (GuardedMask S ids (sub name))) ∧
      (wildcardSegment ∈ keys → GuardedMask S ids (sub wildcardSegment) (.message t))
    | .map t => ∀ key ∈ keys, GuardedMask S ids (sub key) (.message t)

theorem guardedMask_message :
    GuardedMask S ids m (.message t) ↔
      ∀ name sub, m.get? name = some sub → EntryOk S ids t name sub (GuardedMask S ids sub) := by
  cases m with
  | leaf => simp [GuardedMask, Mask.get?]
  | node keys sub => simp [GuardedMask, Mask.get?]

theorem guardedMask_list :
    GuardedMask S ids m (.list t) ↔ GuardedMask S ids m (.message t) ∧
      ∀ sub, m.get? wildcardSegment = some sub → GuardedMask S ids sub (.message t) := by
  cases m with
  | leaf => simp [GuardedMask, Mask.get?]
  | node keys sub => simp [GuardedMask, Mask.get?]

theorem guardedMask_map :
    GuardedMask S ids m (.map t) ↔
      ∀ key sub, m.get? key = some sub → GuardedMask S ids sub (.message t) := by
  cases m with
  | leaf => simp [GuardedMask, Mask.get?]
  | node keys sub => simp [GuardedMask, Mask.get?]

theorem EntryOk.allow
    {p q : Ctx (Fin S.types) → Prop} (h : EntryOk S ids t name sub p) (hpq : ∀ ctx, p ctx → q ctx) :
    EntryOk S true t name sub q := by
  intro fd hfd
  obtain ⟨_, hid⟩ | ⟨hm, hwhole, hbelow⟩ := h fd hfd
  · exact .inl ⟨rfl, hid⟩
  · exact .inr ⟨hm, hwhole, fun hl ctx hctx => hpq ctx (hbelow hl ctx hctx)⟩

theorem GuardedMask.allow (h : GuardedMask S false m ctx) :
    GuardedMask S true m ctx := by
  induction m generalizing ctx with
  | leaf => trivial
  | node keys sub ih =>
    cases ctx with
    | message t => exact fun name hname => (h name hname).allow fun _ => ih name
    | list t =>
      exact ⟨fun name hname => (h.1 name hname).allow fun _ => ih name, fun hw => ih _ (h.2 hw)⟩
    | map t => exact fun key hkey => ih key (h key hkey)

theorem hasBehavior_of_managed (h : fd.serverManagedBehavior = .identifier) :
    fd.hasBehavior .identifier = true := by
  unfold FieldDesc.serverManagedBehavior at h
  split_ifs at h with _ hid
  exact hid

/-! ## The checks -/

theorem mem_sortedKeys {keys : List String} :
    name ∈ sortedKeys keys ↔ name ∈ keys := List.mem_mergeSort

structure Checked (S : Schema σ) (fd : S.Field) (isLeaf : Bool)
    (below : Ctx (Fin S.types) → List FieldViolation) : Prop where
  unmanaged : fd.hasBehavior .outputOnly = true ∨ fd.serverManagedBehavior = .unspecified
  whole : fd.hasBehavior .outputOnly = false → isLeaf = true →
    ∀ t, fd.expandable? = some t → ¬HoldsManaged S t
  below : fd.hasBehavior .outputOnly = false → isLeaf = false →
    ∀ ctx, fd.below? = some ctx → below ctx = []

theorem checked_of_selectionViolations {path : String}
    (hm : fd.serverManagedBehavior = .unspecified) (h : S.selectionViolations fd path isLeaf below =
    []) : Checked S fd isLeaf below where
  unmanaged := .inr hm
  whole _ hleaf t ht := by
    simp only [Schema.selectionViolations, hleaf, if_true, ht] at h
    exact not_holdsManaged_of_nil h
  below _ hleaf ctx hctx := by
    simpa only [Schema.selectionViolations, hleaf, Bool.false_eq_true, if_false, hctx] using h

theorem checked_of_outputOnly (h : fd.hasBehavior .outputOnly = true) :
    Checked S fd isLeaf below where
  unmanaged := .inl h
  whole hout := by simp [h] at hout
  below hout := by simp [h] at hout

theorem checked_of_schemaViolations {name path : String}
    (hfd : S.field? t name = some fd) (h : S.schemaViolations t name path isLeaf below = []) :
    Checked S fd isLeaf below := by
  simp only [Schema.schemaViolations, hfd] at h
  by_cases hout : fd.hasBehavior .outputOnly = true
  · exact checked_of_outputOnly hout
  have hm : fd.serverManagedBehavior = .unspecified := by
    unfold FieldDesc.serverManagedBehavior at h ⊢
    split_ifs at h ⊢; rfl
  rw [hm] at h
  exact checked_of_selectionViolations hm h

theorem checked_of_fieldViolations {f : Fields σ} {name path : String}
    (hfd : S.field? t name = some fd) (h : S.fieldViolations t f name path isLeaf below = []) :
    Checked S fd isLeaf below := by
  simp only [Schema.fieldViolations, hfd] at h
  split_ifs at h with hout hid him
  · exact checked_of_outputOnly hout
  · exact checked_of_selectionViolations (by simp [FieldDesc.serverManagedBehavior, hout, hid, him])
      h

/-! ## The mask without the output-only fields -/

def outputOnlyRemoval (S : Schema σ) : S.Removal := ⟨fun fd => fd.hasBehavior .outputOnly, false⟩

/-- A field that is not server-managed, as the entry `sub` of a mask of which fields are taken
out. -/
structure Unmanaged (r : S.Removal) (fd : S.Field) (sub : Mask) : Prop where
  unspecified : fd.serverManagedBehavior = .unspecified
  whole : sub.isLeaf = true → ∀ t, fd.expandable? = some t → ¬HoldsManaged S t
  below : sub.isLeaf = false → ∀ ctx, fd.below? = some ctx →
    GuardedMask S false (S.withoutFields r sub ctx) ctx

theorem Unmanaged.entryOk {r : S.Removal}
    (h : ∀ fd, S.field? t name = some fd → Unmanaged r fd sub) :
    EntryOk S false t name (S.entryRest t name sub (S.withoutFields r sub))
      (GuardedMask S false (S.entryRest t name sub (S.withoutFields r sub))) := by
  intro fd hfd
  have hrest : ∀ ctx, fd.below? = some ctx →
      S.entryRest t name sub (S.withoutFields r sub) = S.withoutFields r sub ctx := by
    intro ctx hctx
    simp only [Schema.entryRest, hfd, Option.bind_some, hctx]
  refine .inr ⟨(h fd hfd).unspecified, fun hl t' ht' => ?_, fun hl ctx hctx => ?_⟩
  · rw [hrest _ (FieldDesc.expandable?_eq_some.mp ht'), isLeaf_withoutFields] at hl
    exact (h fd hfd).whole hl t' ht'
  · rw [hrest ctx hctx] at hl ⊢
    rw [isLeaf_withoutFields] at hl
    exact (h fd hfd).below hl ctx hctx

theorem drops_of_entryStays {r : S.Removal}
    {edit : Ctx (Fin S.types) → Mask} (hfd : S.field? t name = some fd)
    (h : S.entryStays r t name sub edit = true) : r.drops fd = false := by
  simp only [Schema.entryStays, hfd, Bool.and_eq_true, Bool.not_eq_true'] at h
  exact h.1

/-- A mask is guarded when the fields that are not taken out of it are not server-managed, and the
masks of whole elements are guarded. -/
theorem guardedMask_withoutFields {r : S.Removal} {keys : List String} {sub : String → Mask}
    (hfield : ctx.card ≠ .map → ∀ name ∈ keys, ∀ fd, S.field? ctx.type name = some fd →
      r.drops fd = false → Unmanaged r fd (sub name))
    (helem : ∀ key ∈ keys, ctx.card = .map ∨ ctx.card = .list ∧ key = wildcardSegment →
      GuardedMask S false (S.withoutFields r (sub key) (.message ctx.type)) (.message ctx.type)) :
    GuardedMask S false (S.withoutFields r (.node keys sub) ctx) ctx := by
  cases ctx with
  | message t =>
    intro name hname
    obtain ⟨hmem, hstays⟩ := List.mem_filter.mp hname
    exact Unmanaged.entryOk fun fd hfd =>
      hfield (by simp [Ctx.card]) name hmem fd hfd (drops_of_entryStays hfd hstays)
  | list t =>
    refine ⟨fun name hname => ?_, fun hname => ?_⟩
    · obtain ⟨hmem, hstays⟩ := List.mem_filter.mp hname
      by_cases hw : name = wildcardSegment
      · intro fd hfd
        rw [hw, field?_wildcard] at hfd
        cases hfd
      · rw [if_neg hw] at hstays
        simp only [hw, if_false]
        exact Unmanaged.entryOk fun fd hfd =>
          hfield (by simp [Ctx.card]) name hmem fd hfd (drops_of_entryStays hfd hstays)
    · simp only [if_true]
      exact helem _ (List.mem_filter.mp hname).1 (.inr ⟨rfl, rfl⟩)
  | map t => exact fun key hkey => helem key (List.mem_filter.mp hkey).1 (.inl rfl)

theorem Checked.unmanaged_of_kept
    {violations : Ctx (Fin S.types) → List FieldViolation} (h : Checked S fd sub.isLeaf violations)
    (hout : fd.hasBehavior .outputOnly = false)
    (hbelow : ∀ ctx, violations ctx = [] →
      GuardedMask S false (S.withoutFields (outputOnlyRemoval S) sub ctx) ctx) :
    Unmanaged (outputOnlyRemoval S) fd sub where
  unspecified := h.unmanaged.resolve_left (by simp [hout])
  whole := h.whole hout
  below hleaf ctx hctx := hbelow ctx (h.below hout hleaf ctx hctx)

theorem guardedMask_of_schema (m : Mask) (ctx : Ctx (Fin S.types)) (pre : String)
    (h : S.validateSchemaBehaviors m ctx pre = []) :
    GuardedMask S false (S.withoutFields (outputOnlyRemoval S) m ctx) ctx := by
  induction m generalizing ctx pre with
  | leaf => trivial
  | node keys sub ih =>
    refine guardedMask_withoutFields (fun hctx name hname fd hfd hout => ?_)
      (fun key hkey hctx => ?_)
    · have hnil : S.schemaViolations ctx.type name (joinPath pre name) (sub name).isLeaf
          (fun ctx => S.validateSchemaBehaviors (sub name) ctx (joinPath pre name)) = [] := by
        cases ctx with
        | message t =>
          simp only [Schema.validateSchemaBehaviors, List.flatMap_eq_nil_iff] at h
          exact h name (mem_sortedKeys.mpr hname)
        | list t =>
          simp only [Schema.validateSchemaBehaviors, List.append_eq_nil_iff,
            List.flatMap_eq_nil_iff] at h
          exact h.1 name (mem_sortedKeys.mpr hname)
        | map t => exact absurd rfl hctx
      exact (checked_of_schemaViolations hfd hnil).unmanaged_of_kept hout fun ctx hctx =>
        ih name ctx _ hctx
    · cases ctx with
      | message t => simp [Ctx.card] at hctx
      | list t =>
        obtain ⟨_, rfl⟩ := hctx.resolve_left (by simp [Ctx.card])
        simp only [Schema.validateSchemaBehaviors, List.append_eq_nil_iff, if_pos hkey] at h
        exact ih _ _ _ h.2
      | map t =>
        simp only [Schema.validateSchemaBehaviors, List.flatMap_eq_nil_iff] at h
        exact ih key _ _ (h key (mem_sortedKeys.mpr hkey))

/-- The checks of a call leave a guarded mask. -/
theorem guardedMask_of_message (m : Mask) (t : Fin S.types) (f : Fields σ) (pre : String)
    (h : S.validateFieldBehaviors m t f pre = []) :
    GuardedMask S false (S.removeOutputOnlyFields m t) (.message t) := by
  induction m generalizing t f pre with
  | leaf => trivial
  | node keys sub ih =>
    simp only [Schema.validateFieldBehaviors, List.flatMap_eq_nil_iff] at h
    refine guardedMask_withoutFields (fun _ name hname fd hfd hout => ?_) (fun key _ hctx => ?_)
    · refine (checked_of_fieldViolations hfd (h name (mem_sortedKeys.mpr hname))).unmanaged_of_kept
        hout ?_
      intro ctx hctx
      cases ctx with
      | message t' => exact ih name t' _ _ hctx
      | list t' => exact guardedMask_of_schema (sub name) _ _ hctx
      | map t' => exact guardedMask_of_schema (sub name) _ _ hctx
    · simp [Ctx.card] at hctx

/-! ## The identifiers added -/

theorem guardedMask_preserve_message {f : Fields σ} (h : GuardedMask S true m (.message t))
    (hbelow : ∀ name ctx sub, GuardedMask S true sub ctx →
      GuardedMask S true (S.preserve (f name) (.message ctx.type) ctx.card sub) ctx) :
    GuardedMask S true (S.preserve (.message f) (.message t) .singular m) (.message t) := by
  rw [guardedMask_message] at h ⊢
  intro name sub hsub
  rw [get?_preserve_message] at hsub
  obtain ⟨sub, hor, rfl⟩ := Option.map_eq_some_iff.mp hsub
  have hentry : EntryOk S true t name sub (GuardedMask S true sub) := by
    obtain hget | ⟨_, hadded⟩ := Option.or_eq_some_iff.mp hor
    · exact h name sub hget
    · -- an identifier that was added, as a leaf
      obtain ⟨⟨fd, hfd, hid, _⟩, heq⟩ := Option.ite_none_right_eq_some.mp hadded
      cases heq
      intro fd' hfd'
      rw [hfd] at hfd'
      cases hfd'
      exact .inl ⟨rfl, hid, rfl⟩
  intro fd hfd
  by_cases hleaf : sub.isLeaf = true
  · rw [preserved, if_pos hleaf]
    exact hentry fd hfd
  · have hstep : preserved S t f name sub =
        if (f name).has then S.preserve (f name) fd.kind fd.card sub else sub := by
      rw [preserved, if_neg hleaf, hfd]
    rw [hstep]
    split_ifs
    · obtain ⟨_, _, hl⟩ | ⟨hm, _, hok⟩ := hentry fd hfd
      · exact absurd hl hleaf
      refine .inr ⟨hm, fun hl t' ht' => ?_, fun _ ctx hctx => ?_⟩
      · obtain ⟨hkind, hcard⟩ := FieldDesc.below?_eq_some.mp (FieldDesc.expandable?_eq_some.mp ht')
        rw [hkind, hcard, isLeaf_preserve _ _ (by simpa using hleaf)] at hl
        cases hl
      · obtain ⟨hkind, hcard⟩ := FieldDesc.below?_eq_some.mp hctx
        rw [hkind, hcard]
        exact hbelow name ctx sub (hok (by simpa using hleaf) ctx hctx)
    · exact hentry fd hfd

theorem guardedMask_preserve (v : Val σ) (h : GuardedMask S true m ctx) :
    GuardedMask S true (S.preserve v (.message ctx.type) ctx.card m) ctx := by
  induction v generalizing ctx m with
  | message f ih =>
    cases ctx with
    | message t => exact guardedMask_preserve_message h fun name ctx sub hsub => ih name hsub
    | _ => exact h
  | list n e ih =>
    cases ctx with
    | list t =>
      show GuardedMask S true (S.preserve (.list n e) (.message t) .list m) (.list t)
      obtain heq | ⟨w, hw, _, heq⟩ | ⟨_, heq⟩ := preserve_list_cases t n e m
      · rwa [heq]
      · have hall := preserveAll_induct (n := n) (P := fun m => GuardedMask S true m (.message t))
          ((guardedMask_list.mp h).2 w hw) fun i m hm => ih i hm
        rw [heq, guardedMask_list, guardedMask_message]
        refine ⟨fun name sub hsub => ?_, fun sub hsub => ?_⟩
        · rw [Mask.get?_set] at hsub
          split_ifs at hsub with hname
          · intro fd hfd
            rw [hname, field?_wildcard] at hfd
            cases hfd
          · exact guardedMask_message.mp (guardedMask_list.mp h).1 name sub hsub
        · rw [Mask.get?_set, if_pos rfl, Option.some.injEq] at hsub
          exact hsub ▸ hall
      · rw [heq]
        refine preserveAll_induct (P := fun m => GuardedMask S true m (.list t)) h fun i m hm => ?_
        rw [guardedMask_list] at hm ⊢
        rw [get?_preserve_of_not_field (field?_wildcard t)]
        exact ⟨ih i hm.1, hm.2⟩
    | _ => exact h
  | map keys e ih =>
    cases ctx with
    | map t =>
      refine preserve_map_induct (P := fun m => GuardedMask S true m (.map t)) h ?_
      intro key at_ m sub hm hsub _
      rw [guardedMask_map] at hm ⊢
      intro key' sub' hsub'
      rw [Mask.get?_set] at hsub'
      split_ifs at hsub'
      · cases hsub'
        exact ih key (hm at_ sub hsub)
      · exact hm key' sub' hsub'
    | _ => exact h
  | _ => cases ctx <;> exact h

theorem GuardedMask.dropIdentifiers (h : GuardedMask S true m ctx) :
    GuardedMask S false (S.withoutFields ⟨fun fd => fd.hasBehavior .identifier, true⟩ m ctx)
      ctx := by
  induction m generalizing ctx with
  | leaf => trivial
  | node keys sub ih =>
    refine guardedMask_withoutFields (fun hctx name hname fd hfd hdrop => ?_)
      (fun key hkey hctx => ?_)
    · have hentry : EntryOk S true ctx.type name (sub name) (GuardedMask S true (sub name)) := by
        cases ctx with
        | message t => exact h name hname
        | list t => exact h.1 name hname
        | map t => exact absurd rfl hctx
      obtain ⟨_, hid, _⟩ | ⟨hm, hwhole, hbelow⟩ := hentry fd hfd
      · have hhas := hasBehavior_of_managed hid
        simp [hhas] at hdrop
      · exact ⟨hm, hwhole, fun hl ctx' hctx' => ih name (hbelow hl ctx' hctx')⟩
    · cases ctx with
      | message t => simp [Ctx.card] at hctx
      | list t =>
        obtain ⟨_, rfl⟩ := hctx.resolve_left (by simp [Ctx.card])
        exact ih _ (h.2 hkey)
      | map t => exact ih key (h key hkey)

end GoAtlas.FieldMask
