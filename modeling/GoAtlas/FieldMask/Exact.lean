import GoAtlas.FieldMask.Selection

/-!
# When a mask selects what its paths say

`Filter` and `Prune` do exactly what the paths say on a message if and only if the rules of the mask
match the same of its leaves. They do when no path is empty or has an empty segment, and no list is
entered both with `*` and without an element segment; two paths that enter a list in both ways are a
case where they do not.
-/

namespace GoAtlas.FieldMask

variable {σ : Type}

/-! ## The mask of a list of paths -/

/-- The paths as the mask takes them: empty ones are left out, and empty segments at the end. -/
def maskPaths (paths : List String) : List Path :=
  (paths.filter (· ≠ "")).map fun path => trimPath (splitPath path)

def follows? (paths : List String) (loc : List Step) : Bool := reaches follow (maskPaths paths) loc

theorem trimPath_ne_nil {s : String} (hs : s ≠ "") (p : Path) : trimPath (s :: p) ≠ [] := by
  rw [trimPath, Ne, List.rdropWhile_eq_nil_iff]
  exact fun h => hs (by simpa using h s List.mem_cons_self)

theorem trimPath_eq_self {p : Path} (h : "" ∉ p) : trimPath p = p := by
  rw [trimPath, List.rdropWhile_eq_self_iff]
  intro hp hlast
  rw [beq_iff_eq] at hlast
  exact h (hlast ▸ List.getLast_mem hp)

theorem splitLoop_ne_nil (cs current : List Char) (inQuotes : Bool) :
    splitLoop cs current inQuotes ≠ [] := by
  induction cs generalizing current inQuotes with
  | nil => simp [splitLoop]
  | cons c cs ih =>
    simp only [splitLoop]
    split
    · exact ih _ _
    · split
      · simp
      · exact ih _ _

section Paths

variable {S : Schema σ} {t : Fin S.types}

theorem Resolves.of_append {p q : Path} {k : Kind (Fin S.types)} {c : Card}
    (h : Resolves S (p ++ q) k c) : Resolves S p k c := by
  induction p generalizing k c with
  | nil => simp [Resolves]
  | cons s p ih =>
    cases c with
    | singular =>
      cases k with
      | scalar => exact h
      | message t =>
        obtain ⟨fd, hfd, hp⟩ := h
        exact ⟨fd, hfd, ih hp⟩
      | dynamic d => trivial
    | list =>
      rw [List.cons_append, resolves_list] at h
      rw [resolves_list]
      split
      · rename_i hs
        rw [if_pos hs] at h
        exact ih h
      · rename_i hs
        rw [if_neg hs] at h
        cases k with
        | scalar => exact h
        | message t =>
          obtain ⟨fd, hfd, hp⟩ := h
          exact ⟨fd, hfd, ih hp⟩
        | dynamic d => trivial
    | map =>
      rw [List.cons_append, resolves_map] at h
      exact resolves_map.mpr (ih h)

theorem trimPath_resolves {path : String} (hne : path ≠ "")
    (h : Resolves S (splitPath path) (.message t) .singular) :
    trimPath (splitPath path) ≠ [] ∧
      Resolves S (trimPath (splitPath path)) (.message t) .singular := by
  refine ⟨?_, ?_⟩
  · cases hp : splitPath path with
    | nil =>
      rw [splitPath, if_neg hne] at hp
      exact absurd hp (splitLoop_ne_nil _ _ _)
    | cons s p =>
      rw [hp] at h
      obtain ⟨fd, hfd, -⟩ := h
      refine trimPath_ne_nil ?_ p
      rintro rfl
      rw [Schema.field?_of_not_isIdentifier (by decide +kernel)] at hfd
      cases hfd
  · obtain ⟨q, hq⟩ := List.rdropWhile_prefix (· == "") (l := splitPath path)
    rw [← hq] at h
    exact h.of_append

theorem denotes_foldl (paths : List String) {m : Mask} {ps : List Path} (hm : Denotes m ps)
    (hps : [] ∉ ps) (hne : ∀ path ∈ paths, trimPath (splitPath path) ≠ []) :
    Denotes (paths.foldl fromPath m) (ps ++ paths.map fun path => trimPath (splitPath path)) := by
  induction paths generalizing m ps with
  | nil => simpa using hm
  | cons path paths ih =>
    have hp := hne path List.mem_cons_self
    have hstep := hm.fromPathParts _ hp hps
    have hrest := ih hstep (by simp [hps, Ne.symm hp]) fun p hp => hne p (List.mem_cons_of_mem _ hp)
    rw [List.append_assoc] at hrest
    exact hrest

def ValidPaths (S : Schema σ) (t : Fin S.types) (paths : List String) : Prop :=
  ∀ path ∈ paths, S.validatePath t path = none ∧ S.rejectIndexedRepeatedAccess t path = none

instance (paths : List String) : Decidable (ValidPaths S t paths) :=
  inferInstanceAs (Decidable (∀ path ∈ paths, _ ∧ _))

theorem ValidPaths.maskPaths {paths : List String} (h : ValidPaths S t paths) :
    Denotes (fromPaths paths) (maskPaths paths) ∧ [] ∉ maskPaths paths ∧
      ∀ p ∈ maskPaths paths, Resolves S p (.message t) .singular := by
  have htrim : ∀ path ∈ paths.filter (· ≠ ""), trimPath (splitPath path) ≠ [] ∧
      Resolves S (trimPath (splitPath path)) (.message t) .singular := by
    intro path hp
    rw [List.mem_filter, decide_eq_true_eq] at hp
    obtain ⟨hv, hi⟩ := h path hp.1
    exact trimPath_resolves hp.2 (resolves_of_valid hv hi)
  refine ⟨?_, ?_, ?_⟩
  · have hempty : Denotes Mask.empty [] := ⟨List.not_mem_nil, fun s => by simp⟩
    exact denotes_foldl _ hempty List.not_mem_nil fun path hp => (htrim path hp).1
  · intro hmem
    obtain ⟨path, hp, hnil⟩ := List.mem_map.mp hmem
    exact (htrim path hp).1 hnil
  · intro p hmem
    obtain ⟨path, hp, rfl⟩ := List.mem_map.mp hmem
    exact (htrim path hp).2

end Paths

/-! ## Exactness -/

/-- `Filter` keeps exactly the leaves that the paths match, and `Prune` removes exactly those. -/
structure Exact (paths : List String) (v : Val σ) : Prop where
  filter : ∀ loc, ((fromPaths paths).filter v).leaf? loc =
    if matches? (paths.map splitPath) loc then v.leaf? loc else none
  prune : ∀ loc, ((fromPaths paths).prune v).leaf? loc =
    if matches? (paths.map splitPath) loc then none else v.leaf? loc

section Exact

variable {S : Schema σ} {t : Fin S.types} {v : Val σ} {paths : List String}

theorem leaf?_of_ne_nil (hS : S.Static) (hv : v.Fits S (.message t) .singular)
    (h : ValidPaths S t paths) (hne : maskPaths paths ≠ []) (loc : List Step) :
    ((fromPaths paths).filter v).leaf? loc =
        (if follows? paths loc then v.leaf? loc else none) ∧
      ((fromPaths paths).prune v).leaf? loc =
        if follows? paths loc then none else v.leaf? loc := by
  obtain ⟨hden, hnil, hres⟩ := h.maskPaths
  have hkeys : (fromPaths paths).isEmpty = false := by
    obtain ⟨p, hp⟩ := List.exists_mem_of_ne_nil _ hne
    cases p with
    | nil => exact absurd hp hnil
    | cons s p =>
      cases hm : fromPaths paths with
      | leaf =>
        rw [hm] at hden
        exact absurd hden hnil
      | node keys sub =>
        rw [hm] at hden
        obtain ⟨fd, hfd, -⟩ := hres _ hp
        have hs : s ≠ "" := by
          rintro rfl
          rw [Schema.field?_of_not_isIdentifier (by decide +kernel)] at hfd
          cases hfd
        have hmem : s ∈ keys := (hden.2 s).1.mpr
          ⟨hs, List.ne_nil_of_mem (mem_tails.mpr hp)⟩
        simpa [Mask.isEmpty, Mask.keys] using List.ne_nil_of_mem hmem
  have hkeep :=
    stays_walk filterOp_keeps hS v (.message t) .singular _ _ (by simp) hv hden hnil hne hres loc
  have hcut :=
    stays_walk pruneOp_keeps hS v (.message t) .singular _ _ (by simp) hv hden hnil hne hres loc
  constructor
  · rw [Mask.filter, hkeys]
    exact hkeep
  · rw [Mask.prune, hkeys]
    refine hcut.trans ?_
    unfold follows?
    cases reaches follow (FieldMask.maskPaths paths) loc <;> rfl

theorem exact_iff (hS : S.Static) (hv : v.Fits S (.message t) .singular) (hne : paths ≠ [])
    (h : ValidPaths S t paths) :
    Exact paths v ↔ ∀ loc, (v.leaf? loc).isSome = true →
      matches? (paths.map splitPath) loc = follows? paths loc := by
  by_cases hnil : maskPaths paths = []
  · -- every path is empty: they match every leaf, and their mask is empty
    have hempty : ∀ path ∈ paths, path = "" := by
      intro path hp
      by_contra hpne
      have hmem : path ∈ paths.filter (· ≠ "") := List.mem_filter.mpr ⟨hp, by simpa using hpne⟩
      rw [List.map_eq_nil_iff.mp hnil] at hmem
      cases hmem
    have hmask : fromPaths paths = .empty := by rw [fromPaths, List.map_eq_nil_iff.mp hnil]; rfl
    have hall (loc : List Step) : matches? (paths.map splitPath) loc = true := by
      obtain ⟨path, hp⟩ := List.exists_mem_of_ne_nil paths hne
      refine reaches_of_mem (List.mem_map.mpr ⟨path, hp, ?_⟩) loc
      rw [hempty path hp]
      rfl
    have hnone (loc : List Step) : follows? paths loc = false := by
      rw [follows?, hnil, reaches_follow_nil]
    constructor
    · intro hex loc hleaf
      have hp := hex.prune loc
      rw [hall, if_pos rfl, hmask] at hp
      rw [show v.leaf? loc = none from hp] at hleaf
      cases hleaf
    · intro hsame
      have hleaf (loc : List Step) : v.leaf? loc = none := by
        by_contra hno
        have heq := hsame loc (Option.isSome_iff_ne_none.mpr hno)
        rw [hall, hnone] at heq
        cases heq
      refine ⟨fun loc => ?_, fun loc => ?_⟩
      · rw [hall, if_pos rfl, hmask]
        rfl
      · rw [hall, if_pos rfl, hmask]
        exact hleaf loc
  · have hdo := leaf?_of_ne_nil hS hv h hnil
    constructor
    · intro hex loc hleaf
      obtain ⟨x, hx⟩ := Option.isSome_iff_exists.mp hleaf
      have hf := hex.filter loc
      rw [(hdo loc).1, hx] at hf
      cases hm : matches? (paths.map splitPath) loc <;> cases hw : follows? paths loc <;>
        simp [hm, hw] at hf ⊢
    · intro hsame
      refine ⟨fun loc => ?_, fun loc => ?_⟩
      · rw [(hdo loc).1]
        cases hx : v.leaf? loc with
        | none => simp
        | some x => rw [hsame loc (by simp [hx])]
      · rw [(hdo loc).2]
        cases hx : v.leaf? loc with
        | none => simp
        | some x => rw [hsame loc (by simp [hx])]

end Exact

/-! ## Plain paths -/

def LeadsToList (S : Schema σ) : Path → Kind (Fin S.types) → Card → Prop
  | [], _, c => c = .list
  | s :: p, .message t, .singular => ∃ fd, S.field? t s = some fd ∧ LeadsToList S p fd.kind fd.card
  | s :: p, .message t, .list =>
    if s = wildcardSegment then LeadsToList S p (.message t) .singular
    else ∃ fd, S.field? t s = some fd ∧ LeadsToList S p fd.kind fd.card
  | _ :: p, k, .map => LeadsToList S p k .singular
  | _ :: _, _, _ => False

/-- No segment is empty, and no list that two paths lead to in the same way is entered by one with
`*` and by the other without an element segment. -/
structure Plain (S : Schema σ) (k : Kind (Fin S.types)) (c : Card) (ps : List Path) : Prop where
  nonempty : ∀ p ∈ ps, "" ∉ p
  unmixed : ∀ pre r s q, LeadsToList S pre k c → pre ++ wildcardSegment :: r ∈ ps →
    pre ++ s :: q ∈ ps → s = wildcardSegment

section Plain

variable {S : Schema σ} {ps : List Path} {k : Kind (Fin S.types)}

theorem Plain.tails_field {t : Fin S.types} {name : String} {fd : S.Field}
    (h : Plain S (.message t) .singular ps) (hfd : S.field? t name = some fd) :
    Plain S fd.kind fd.card (tails name ps) where
  nonempty _ hp := fun hmem => h.nonempty _ (mem_tails.mp hp) (List.mem_cons_of_mem _ hmem)
  unmixed pre r s q hpre hstar hs :=
    h.unmixed (name :: pre) r s q ⟨fd, hfd, hpre⟩ (mem_tails.mp hstar) (mem_tails.mp hs)

theorem Plain.tails_key {key : String} (h : Plain S k .map ps) :
    Plain S k .singular (tails key ps) where
  nonempty _ hp := fun hmem => h.nonempty _ (mem_tails.mp hp) (List.mem_cons_of_mem _ hmem)
  unmixed pre r s q hpre hstar hs := by
    refine h.unmixed (key :: pre) r s q ?_ (mem_tails.mp hstar) (mem_tails.mp hs)
    cases k <;> exact hpre

theorem Plain.tails_wildcard (h : Plain S k .list ps)
    (hk : ∀ d, k ≠ .dynamic d) : Plain S k .singular (tails wildcardSegment ps) where
  nonempty _ hp := fun hmem => h.nonempty _ (mem_tails.mp hp) (List.mem_cons_of_mem _ hmem)
  unmixed pre r s q hpre hstar hs := by
    refine h.unmixed (wildcardSegment :: pre) r s q ?_ (mem_tails.mp hstar) (mem_tails.mp hs)
    cases k with
    | scalar => cases pre <;> cases hpre
    | message t => exact hpre
    | dynamic d => exact absurd rfl (hk _)

/-- Where no path enters a list with the wildcard, the paths go on in the element as they are. -/
theorem Plain.elem (h : Plain S k .list ps)
    (hstar : tails wildcardSegment ps = []) : Plain S k .singular ps where
  nonempty := h.nonempty
  unmixed pre r s q hpre hr hs := by
    cases pre with
    | nil => cases hpre
    | cons s' pre =>
      refine h.unmixed (s' :: pre) r s q ?_ hr hs
      have hs' : s' ≠ wildcardSegment := by
        rintro rfl
        have hmem := mem_tails.mpr hr
        rw [hstar] at hmem
        cases hmem
      cases k with
      | scalar => cases hpre
      | message t =>
        simp only [LeadsToList, hs', if_false]
        exact hpre
      | dynamic d => cases hpre

theorem narrow_elem_of_nil (hstar : tails wildcardSegment ps = []) (i : Nat) :
    narrow (.elem i) ps = ps := by
  rw [narrow, hstar, List.nil_append, List.filter_eq_self]
  intro p hp
  cases p with
  | nil => rfl
  | cons s p =>
    have hs : s ≠ wildcardSegment := by
      rintro rfl
      have hmem := mem_tails.mpr hp
      rw [hstar] at hmem
      cases hmem
    simpa using hs

theorem Plain.narrow_elem (h : Plain S k .list ps) (hnil : [] ∉ ps)
    (hstar : tails wildcardSegment ps ≠ []) (i : Nat) :
    narrow (.elem i) ps = tails wildcardSegment ps := by
  obtain ⟨r, hr⟩ := List.exists_mem_of_ne_nil _ hstar
  have hfilter : (ps.filter fun p => p.head? ≠ some wildcardSegment) = [] := by
    rw [List.filter_eq_nil_iff]
    intro p hp
    cases p with
    | nil => exact absurd hp hnil
    | cons s q =>
      have hlist : LeadsToList S [] k .list := by cases k <;> rfl
      simp [h.unmixed [] r s q hlist (mem_tails.mp hr) hp]
  rw [narrow, hfilter, List.append_nil]

/-- Plain paths match the same leaves by both rules. -/
theorem reaches_narrow_eq_follow (hS : S.Static) {v : Val σ} {c : Card}
    (hk : ∀ d, k ≠ .dynamic d) (hv : v.Fits S k c) (hp : Plain S k c ps) {loc : List Step}
    (hleaf : (v.leaf? loc).isSome = true) : reaches narrow ps loc = reaches follow ps loc := by
  induction v generalizing k c ps loc with
  | unset => simp at hleaf
  | scalar s =>
    cases loc with
    | nil => rfl
    | cons step loc => simp [Val.leaf?] at hleaf
  | message f ih =>
    obtain ⟨t, rfl, rfl, hf⟩ := hv.message
    cases loc with
    | nil => simp [Val.leaf?] at hleaf
    | cons step loc =>
      cases step with
      | elem i => simp [Val.leaf?] at hleaf
      | key k => simp [Val.leaf?] at hleaf
      | field name =>
        obtain hunset | ⟨fd, hfd, hfits⟩ := hf name
        · simp [Val.leaf?, hunset] at hleaf
        · refine reaches_congr fun _ => ?_
          exact ih name (hS t fd (Schema.mem_of_field? hfd).1) hfits (hp.tails_field hfd) hleaf
  | list n e ih =>
    obtain ⟨rfl, he⟩ := hv.list
    cases loc with
    | nil => simp [Val.leaf?] at hleaf
    | cons step loc =>
      cases step with
      | field name => simp [Val.leaf?] at hleaf
      | key k => simp [Val.leaf?] at hleaf
      | elem i =>
        simp only [Val.leaf?] at hleaf
        split at hleaf
        · rename_i hi
          refine reaches_congr fun hnil => ?_
          by_cases hstar : tails wildcardSegment ps = []
          · rw [narrow_elem_of_nil hstar, follow, if_pos hstar]
            exact ih i hk (he i hi) (hp.elem hstar) hleaf
          · rw [hp.narrow_elem hnil hstar, follow, if_neg hstar]
            exact ih i hk (he i hi) (hp.tails_wildcard hk) hleaf
        · cases hleaf
  | map keys e ih =>
    obtain ⟨rfl, he⟩ := hv.map
    cases loc with
    | nil => simp [Val.leaf?] at hleaf
    | cons step loc =>
      cases step with
      | field name => simp [Val.leaf?] at hleaf
      | elem i => simp [Val.leaf?] at hleaf
      | key key =>
        simp only [Val.leaf?] at hleaf
        split at hleaf
        · rename_i hkey
          refine reaches_congr fun _ => ?_
          -- no path names the empty key
          have hsame : narrow (.key key) ps = follow (.key key) ps := by
            by_cases hempty : key = ""
            · subst hempty
              have htails : tails "" ps = [] := List.eq_nil_iff_forall_not_mem.mpr fun p hmem =>
                hp.nonempty _ (mem_tails.mp hmem) List.mem_cons_self
              rw [narrow, follow, if_pos htails, if_pos (.inl rfl)]
            · simp only [narrow, follow, hempty, false_or]
          rw [hsame, follow]
          split
          · exact ih key hk (he key hkey) hp.tails_key hleaf
          · exact ih key hk (he key hkey) hp.tails_key hleaf
        · cases hleaf
  | struct keys e _ => cases loc <;> simp [Val.leaf?] at hleaf
  | listValue n e _ => cases loc <;> simp [Val.leaf?] at hleaf

theorem maskPaths_eq {paths : List String} (hne : ∀ path ∈ paths, path ≠ "")
    (h : ∀ p ∈ paths.map splitPath, "" ∉ p) : maskPaths paths = paths.map splitPath := by
  have hfilter : paths.filter (· ≠ "") = paths :=
    List.filter_eq_self.mpr fun path hp => by simpa using hne path hp
  rw [maskPaths, hfilter]
  exact List.map_congr_left fun path hp => trimPath_eq_self (h _ (List.mem_map_of_mem hp))

end Plain

/-- On a message without dynamic types, and for valid paths without list indexes, `Filter` keeps and
`Prune` removes exactly the leaves that the paths match if and only if the rules of the mask match
the same leaves of the message; with plain paths they always do. -/
theorem filter_prune_exact_iff (S : Schema σ) (hS : S.Static) (t : Fin S.types) (v : Val σ)
    (hv : v.Fits S (.message t) .singular) (paths : List String) (hne : paths ≠ [])
    (h : ValidPaths S t paths) :
    (Exact paths v ↔ ∀ loc, (v.leaf? loc).isSome = true →
        matches? (paths.map splitPath) loc = follows? paths loc) ∧
      ((∀ path ∈ paths, path ≠ "") → Plain S (.message t) .singular (paths.map splitPath) →
        Exact paths v) := by
  refine ⟨exact_iff hS hv hne h, fun hpaths hp => (exact_iff hS hv hne h).mpr fun loc hleaf => ?_⟩
  rw [follows?, maskPaths_eq hpaths hp.nonempty]
  exact reaches_narrow_eq_follow hS (by simp) hv hp hleaf

/-! ## A list entered in both ways -/

def profileSchema : Schema String where
  types := 2
  fullName t := if t = 0 then "Resource" else "Profile"
  fields t :=
    if t = 0 then [⟨"aliases", .list, .message 1, [], false, "", none⟩]
    else [⟨"id", .singular, .scalar, [], false, "", none⟩,
      ⟨"display_name", .singular, .scalar, [], false, "", none⟩]
  nodup := by decide
  ident := by decide +kernel
  oneof := by decide

def profileSchema.resource : Fin profileSchema.types := ⟨0, by decide⟩

def aliasResource : Val String := .message fun name =>
  if name = "aliases" then .list 1 fun _ => .message fun name =>
    if name = "id" then .scalar "a1" else if name = "display_name" then .scalar "first" else .unset
  else .unset

theorem aliasResource_fits :
    aliasResource.Fits profileSchema (.message profileSchema.resource) .singular := by
  refine ⟨fun name => ?_, Val.oneofOk_of_none (by decide) _⟩
  by_cases hname : name = "aliases"
  · subst hname
    refine .inr ⟨_, rfl, fun i _ => ⟨fun name => ?_, Val.oneofOk_of_none (by decide) _⟩⟩
    by_cases hid : name = "id"
    · subst hid
      exact .inr ⟨_, rfl, trivial⟩
    · by_cases hdisplay : name = "display_name"
      · subst hdisplay
        exact .inr ⟨_, rfl, trivial⟩
      · exact .inl (by simp [hid, hdisplay])
  · exact .inl (by simp [hname])

/-- `aliases.*.id` and `aliases.display_name` are valid and match both fields of the alias, but the
mask keeps only `id`. -/
theorem mixed_element_forms_lose_a_path :
    ValidPaths profileSchema profileSchema.resource ["aliases.*.id", "aliases.display_name"] ∧
      matches? (["aliases.*.id", "aliases.display_name"].map splitPath)
        [.field "aliases", .elem 0, .field "display_name"] = true ∧
      ((fromPaths ["aliases.*.id", "aliases.display_name"]).filter aliasResource).leaf?
        [.field "aliases", .elem 0, .field "display_name"] = none ∧
      ¬Exact ["aliases.*.id", "aliases.display_name"] aliasResource := by
  refine ⟨by decide, by decide, by decide, fun h => ?_⟩
  have hf := h.filter [.field "aliases", .elem 0, .field "display_name"]
  revert hf
  decide

theorem filter_prune_exact_iff_oneForm : Exact ["aliases.*.id"] aliasResource := by
  refine (filter_prune_exact_iff profileSchema (by decide) profileSchema.resource aliasResource
    aliasResource_fits ["aliases.*.id"] (by decide) (by decide)).2 (by decide)
    ⟨by decide, fun pre r s q _ hr hs => ?_⟩
  rw [List.map_singleton, List.mem_singleton] at hr hs
  have heq := List.append_cancel_left (hs.trans hr.symm)
  cases heq
  rfl

end GoAtlas.FieldMask
