import GoAtlas.FieldMask.PathWalker
import GoAtlas.FieldMask.Walk

/-!
# What the paths of a mask select

A list of paths says which leaves of a message it matches (`matches?`): the paths are followed down
the message together, and a leaf is matched when one of them ends on the way. The mask that
`FromPaths` builds follows them by other rules (`follow`): at a list that some path enters with `*`
it forgets the paths that leave the element segment out, and an empty segment names nothing. A walk
keeps or removes exactly the leaves that are matched by those rules.
-/

namespace GoAtlas.FieldMask

variable {σ : Type} {ps : List Path}

def tails (s : String) (ps : List Path) : List Path :=
  ps.filterMap fun p => match p with
    | s' :: rest => if s' = s then some rest else none
    | [] => none

@[simp] theorem mem_tails {s : String} {p : Path} :
    p ∈ tails s ps ↔ s :: p ∈ ps := by
  simp only [tails, List.mem_filterMap]
  constructor
  · rintro ⟨q, hq, h⟩
    cases q with
    | nil => cases h
    | cons s' rest =>
      simp only [Option.ite_none_right_eq_some, Option.some.injEq] at h
      obtain ⟨rfl, rfl⟩ := h
      exact hq
  · exact fun h => ⟨s :: p, h, by simp⟩

@[simp] theorem tails_nil (s : String) : tails s [] = [] := rfl

theorem tails_append (s : String) (ps qs : List Path) :
    tails s (ps ++ qs) = tails s ps ++ tails s qs := List.filterMap_append

theorem tails_singleton_self (s : String) (p : Path) : tails s [s :: p] = [p] := by simp [tails]

theorem tails_singleton_of_ne {s s' : String} (h : s' ≠ s) (p : Path) : tails s [s' :: p] = [] := by
  simp [tails, h]

/-! ## Matching -/

/-- The paths that go on after a step down a message. After a list, `*` stands for every element,
and so does leaving the segment out. At a map key that some path names, only the paths that name it
count; at another one those with `*`. -/
def narrow : Step → List Path → List Path
  | .field name, ps => tails name ps
  | .elem _, ps => tails wildcardSegment ps ++ ps.filter fun p => p.head? ≠ some wildcardSegment
  | .key k, ps => if tails k ps = [] then tails wildcardSegment ps else tails k ps

/-- The rules of the mask that is built from the paths. -/
def follow : Step → List Path → List Path
  | .field name, ps => tails name ps
  | .elem _, ps =>
    if tails wildcardSegment ps = [] then ps else tails wildcardSegment ps
  | .key k, ps => if k = "" ∨ tails k ps = [] then tails wildcardSegment ps else tails k ps

def reaches (rule : Step → List Path → List Path) : List Path → List Step → Bool
  | ps, [] => ps.contains []
  | ps, step :: loc => ps.contains [] || reaches rule (rule step ps) loc

def matches? (ps : List Path) (loc : List Step) : Bool := reaches narrow ps loc

theorem reaches_of_mem {rule : Step → List Path → List Path} (h : [] ∈ ps)
    (loc : List Step) : reaches rule ps loc = true := by
  cases loc <;> simp [reaches, h]

theorem reaches_cons {rule : Step → List Path → List Path} (h : [] ∉ ps)
    (step : Step) (loc : List Step) :
    reaches rule ps (step :: loc) = reaches rule (rule step ps) loc := by
  simp [reaches, h]

theorem reaches_congr {rule rule' : Step → List Path → List Path} {step : Step} {loc : List Step}
    (h : [] ∉ ps → reaches rule (rule step ps) loc = reaches rule' (rule' step ps) loc) :
    reaches rule ps (step :: loc) = reaches rule' ps (step :: loc) := by
  by_cases hnil : [] ∈ ps
  · rw [reaches_of_mem hnil, reaches_of_mem hnil]
  · rw [reaches_cons hnil, reaches_cons hnil, h hnil]

theorem reaches_follow_nil (loc : List Step) : reaches follow [] loc = false := by
  induction loc with
  | nil => rfl
  | cons step loc ih =>
    have hnil : follow step [] = [] := by cases step <;> simp [follow]
    rw [reaches_cons List.not_mem_nil, hnil, ih]

/-! ## Masks and the paths they are built from -/

/-- The mask is what the paths add up to. -/
def Denotes : Mask → List Path → Prop
  | .leaf, ps => [] ∈ ps
  | .node keys sub, ps => [] ∉ ps ∧ ∀ s, (s ∈ keys ↔ s ≠ "" ∧ tails s ps ≠ []) ∧
      (s ∈ keys → Denotes (sub s) (tails s ps))

namespace Denotes

variable {m : Mask} {ps : List Path}

theorem isLeaf_iff (h : Denotes m ps) : m.isLeaf = true ↔ [] ∈ ps := by
  cases m with
  | leaf => exact ⟨fun _ => h, fun _ => rfl⟩
  | node keys sub => simp [Mask.isLeaf, h.1]

theorem get?_eq_none {s : String} (h : Denotes m ps) (hm : [] ∉ ps) (hs : m.get? s = none) :
    s = "" ∨ tails s ps = [] := by
  cases m with
  | leaf => exact absurd h hm
  | node keys sub =>
    have hkey : s ∉ keys := fun hk => by simp [Mask.get?_node_of_mem hk] at hs
    by_contra hno
    rw [not_or] at hno
    exact hkey ((h.2 s).1.mpr hno)

theorem get?_eq_some {s : String} {sub : Mask} (h : Denotes m ps) (hs : m.get? s = some sub) :
    s ≠ "" ∧ tails s ps ≠ [] ∧ Denotes sub (tails s ps) := by
  cases m with
  | leaf => cases hs
  | node keys sub' =>
    by_cases hk : s ∈ keys
    · rw [Mask.get?_node_of_mem hk] at hs
      cases hs
      obtain ⟨hne, htails⟩ := (h.2 s).1.mp hk
      exact ⟨hne, htails, (h.2 s).2 hk⟩
    · rw [Mask.get?_node_of_not_mem hk] at hs
      cases hs

theorem set {head : String} {rest : Path} {value : Mask} (h : Denotes m ps) (hm : [] ∉ ps)
    (hhead : head ≠ "") (hv : Denotes value (tails head ps ++ [rest])) :
    Denotes (m.set head value) (ps ++ [head :: rest]) := by
  cases m with
  | leaf => exact absurd h hm
  | node keys sub =>
    refine ⟨by simp [hm], fun s => ?_⟩
    by_cases hs : s = head
    · subst hs
      rw [tails_append, tails_singleton_self]
      refine ⟨?_, fun _ => by rwa [Function.update_self]⟩
      exact ⟨fun _ => ⟨hhead, by simp⟩, fun _ => (Mask.mem_set_keys keys s s).mpr (.inl rfl)⟩
    · rw [tails_append, tails_singleton_of_ne (Ne.symm hs), List.append_nil,
        Function.update_of_ne hs]
      have hkeys : s ∈ (if head ∈ keys then keys else keys ++ [head]) ↔ s ∈ keys := by
        rw [Mask.mem_set_keys]
        simp [hs]
      rw [hkeys]
      exact h.2 s

theorem append_empty {rest : Path} (h : Denotes m ps) (hm : [] ∉ ps) :
    Denotes m (ps ++ ["" :: rest]) := by
  cases m with
  | leaf => exact absurd h hm
  | node keys sub =>
    refine ⟨by simp [hm], fun s => ?_⟩
    by_cases hs : s = ""
    · subst hs
      have hnot : "" ∉ keys := fun hk => ((h.2 "").1.mp hk).1 rfl
      exact ⟨⟨fun hk => absurd hk hnot, fun hk => absurd rfl hk.1⟩, fun hk => absurd hk hnot⟩
    · rw [tails_append, tails_singleton_of_ne (Ne.symm hs), List.append_nil]
      exact h.2 s

theorem fromPathParts (p : Path) (hp : p ≠ []) (h : Denotes m ps) (hm : [] ∉ ps) :
    Denotes (fromPathParts p m) (ps ++ [p]) := by
  induction p generalizing m ps with
  | nil => exact absurd rfl hp
  | cons head rest ih =>
    by_cases hhead : head = ""
    · subst hhead
      have hsame : FieldMask.fromPathParts ("" :: rest) m = m := by
        cases rest <;> simp [FieldMask.fromPathParts]
      rw [hsame]
      exact h.append_empty hm
    · cases rest with
      | nil =>
        simp only [FieldMask.fromPathParts, hhead, if_false]
        exact h.set hm hhead (by simp [Denotes])
      | cons next rest =>
        simp only [FieldMask.fromPathParts, hhead, if_false]
        split
        · rename_i hget
          obtain ⟨-, -, hsub⟩ := h.get?_eq_some hget
          have hset : Denotes (m.set head .leaf) (ps ++ [head :: next :: rest]) :=
            h.set hm hhead (List.mem_append_left _ hsub)
          rwa [Mask.set_of_get? hget] at hset
        · rename_i nested hnode hget
          obtain ⟨-, -, hsub⟩ := h.get?_eq_some hget
          have hleaf : [] ∉ tails head ps := by
            rw [← hsub.isLeaf_iff]
            cases nested with
            | leaf => exact absurd rfl hnode
            | node keys sub => simp [Mask.isLeaf]
          exact h.set hm hhead (ih (List.cons_ne_nil _ _) hsub hleaf)
        · rename_i hget
          have htails : tails head ps = [] :=
            (h.get?_eq_none hm hget).resolve_left hhead
          refine h.set hm hhead ?_
          rw [htails]
          exact ih (List.cons_ne_nil _ _) ⟨List.not_mem_nil, fun s => by simp⟩ List.not_mem_nil

end Denotes

/-! ## What a walk does to a leaf -/

/-- The callbacks that keep what is matched and clear the rest, or the other way round. -/
structure MaskOp.Keeps (op : MaskOp σ) (keep : Bool) : Prop where
  onUnmatched : ∀ v, op.onUnmatched v = if keep then .unset else v
  onLeaf : ∀ v, op.onLeaf v = if keep then v else .unset
  onListWildcardLeaf : ∀ v, op.onListWildcardLeaf v = if keep then v else .unset
  onMapEntryUnmatched : op.onMapEntryUnmatched = !keep
  onMapEntryLeaf : op.onMapEntryLeaf = keep

theorem filterOp_keeps : (filterOp : MaskOp σ).Keeps true :=
  ⟨fun _ => rfl, fun _ => rfl, fun _ => rfl, rfl, rfl⟩

theorem pruneOp_keeps : (pruneOp : MaskOp σ).Keeps false :=
  ⟨fun _ => rfl, fun _ => rfl, fun _ => rfl, rfl, rfl⟩

@[simp] theorem leaf?_unset (loc : List Step) : (Val.unset : Val σ).leaf? loc = none := by
  cases loc <;> rfl

section Walk

variable {S : Schema σ} {op : MaskOp σ} {keep : Bool} {ps : List Path}

def Stays (keep : Bool) (v w : Val σ) (ps : List Path) : Prop :=
  ∀ loc, w.leaf? loc = if reaches follow ps loc = keep then v.leaf? loc else none

theorem stays_of_matched {v : Val σ} (h : [] ∈ ps) :
    Stays keep v (if keep then v else .unset) ps := by
  intro loc
  rw [reaches_of_mem h]
  cases keep <;> simp

theorem stays_of_unmatched (v : Val σ) : Stays keep v (if keep then .unset else v) [] := by
  intro loc
  rw [reaches_follow_nil]
  cases keep <;> simp

theorem stays_unset (ps : List Path) : Stays keep (.unset : Val σ) .unset ps := by
  intro loc
  simp

/-- A walk with a mask that is what some paths of the schema add up to does what they say. -/
def WalkStays (S : Schema σ) (op : MaskOp σ) (keep : Bool) (v : Val σ) : Prop :=
  ∀ k c m ps, (∀ d, k ≠ .dynamic d) → v.Fits S k c → Denotes m ps → [] ∉ ps → ps ≠ [] →
    (∀ p ∈ ps, Resolves S p k c) → Stays keep v (walk op v m) ps

theorem stays_field (hop : op.Keeps keep) (hS : S.Static) {v : Val σ} {t : Fin S.types} {m : Mask}
    {name : String} (ih : WalkStays S op keep v)
    (hv : v = .unset ∨ ∃ fd, S.field? t name = some fd ∧ v.Fits S fd.kind fd.card)
    (hm : Denotes m ps) (hps : [] ∉ ps) (hres : ∀ p ∈ ps, Resolves S p (.message t) .singular) :
    Stays keep v (match m.get? name with
      | none => op.onUnmatched v
      | some nested => if nested.isLeaf then op.onLeaf v else walk op v nested)
        (tails name ps) := by
  cases hget : m.get? name with
  | none =>
    simp only [hop.onUnmatched]
    obtain rfl | htails := hm.get?_eq_none hps hget
    · obtain rfl | ⟨fd, hfd, -⟩ := hv
      · simpa using stays_unset _
      · rw [Schema.field?_of_not_isIdentifier (by decide +kernel)] at hfd
        cases hfd
    · rw [htails]
      exact stays_of_unmatched v
  | some nested =>
    obtain ⟨-, htails, hsub⟩ := hm.get?_eq_some hget
    cases hleaf : nested.isLeaf with
    | true =>
      simp only [hleaf, if_true, hop.onLeaf]
      exact stays_of_matched (hsub.isLeaf_iff.mp hleaf)
    | false =>
      simp only [hleaf, Bool.false_eq_true, if_false]
      obtain rfl | ⟨fd, hfd, hfits⟩ := hv
      · exact stays_unset _
      · have hnot : [] ∉ tails name ps := fun h => by simp [hsub.isLeaf_iff.mpr h] at hleaf
        refine ih fd.kind fd.card nested _ (hS t fd (Schema.mem_of_field? hfd).1)
          hfits hsub hnot htails
          fun p hp => ?_
        obtain ⟨fd', hfd', hp'⟩ := hres _ (mem_tails.mp hp)
        rw [hfd] at hfd'
        cases hfd'
        exact hp'

theorem stays_message (hop : op.Keeps keep) (hS : S.Static) {f : Fields σ}
    (ih : ∀ name, WalkStays S op keep (f name)) : WalkStays S op keep (.message f) := by
  intro k c m ps _ hfits hm hps _ hres loc
  obtain ⟨t, rfl, rfl, hf⟩ := hfits.message
  cases loc with
  | nil => simp [walk, Val.leaf?]
  | cons step loc =>
    cases step with
    | field name =>
      rw [reaches_cons hps]
      exact stays_field hop hS (ih name) (hf name) hm hps hres loc
    | elem i => simp [walk, Val.leaf?]
    | key k => simp [walk, Val.leaf?]

theorem stays_elems {n : Nat} {e e' : Nat → Val σ} (hps : [] ∉ ps)
    (h : ∀ i < n, Stays keep (e i) (e' i) (follow (.elem i) ps)) :
    Stays keep (.list n e) (.list n e') ps := by
  intro loc
  cases loc with
  | nil => simp [Val.leaf?]
  | cons step loc =>
    cases step with
    | field name => simp [Val.leaf?]
    | elem i =>
      rw [reaches_cons hps]
      simp only [Val.leaf?]
      by_cases hi : i < n
      · simp only [hi, if_true]
        exact h i hi loc
      · simp [hi]
    | key k => simp [Val.leaf?]

theorem stays_list (hop : op.Keeps keep) {n : Nat} {e : Nat → Val σ}
    (ih : ∀ i, WalkStays S op keep (e i)) : WalkStays S op keep (.list n e) := by
  intro k c m ps hk hfits hm hps hne hres
  obtain ⟨rfl, he⟩ := hfits.list
  simp only [walk]
  cases hget : m.get? wildcardSegment with
  | none =>
    have htails : tails wildcardSegment ps = [] :=
      (hm.get?_eq_none hps hget).resolve_left (by decide)
    refine stays_elems hps fun i hi => ?_
    rw [follow, if_pos htails]
    refine ih i k .singular m ps hk (he i hi) hm hps hne fun p hp => ?_
    -- no path begins with the wildcard, so each names a field of the element
    cases p with
    | nil => exact absurd hp hps
    | cons s p =>
      have hs : s ≠ wildcardSegment := by
        rintro rfl
        have hmem := mem_tails.mpr hp
        rw [htails] at hmem
        cases hmem
      have hr := hres _ hp
      rw [resolves_list, if_neg hs] at hr
      cases k with
      | scalar => exact hr
      | message t => exact hr
      | dynamic d => exact absurd rfl (hk _)
  | some wildcardMask =>
    obtain ⟨-, htails, hsub⟩ := hm.get?_eq_some hget
    have hfollow (i : Nat) : follow (.elem i) ps = tails wildcardSegment ps := if_neg htails
    cases hleaf : wildcardMask.isLeaf with
    | true =>
      simp only [hleaf, if_true, hop.onListWildcardLeaf]
      have hmem := hsub.isLeaf_iff.mp hleaf
      cases keep with
      | true => exact stays_elems hps fun i _ => hfollow i ▸ stays_of_matched hmem
      | false =>
        intro loc
        cases loc with
        | nil => simp [Val.leaf?]
        | cons step loc =>
          cases step with
          | elem i => rw [reaches_cons hps, hfollow, reaches_of_mem hmem]; simp
          | field name => simp [Val.leaf?]
          | key k => simp [Val.leaf?]
    | false =>
      simp only [hleaf, Bool.false_eq_true, if_false]
      have hnot : [] ∉ tails wildcardSegment ps := fun h => by simp [hsub.isLeaf_iff.mpr h] at hleaf
      refine stays_elems hps fun i hi => ?_
      rw [hfollow]
      refine ih i k .singular _ _ hk (he i hi) hsub hnot htails fun p hp => ?_
      have hr := hres _ (mem_tails.mp hp)
      rwa [resolves_list, if_pos rfl] at hr

theorem Denotes.keyed? {m : Mask} (hm : Denotes m ps) (hps : [] ∉ ps) (k : String) :
    match m.keyed? k with
    | none => follow (.key k) ps = []
    | some sub => Denotes sub (follow (.key k) ps) ∧ follow (.key k) ps ≠ [] := by
  have hstar (h : k = "" ∨ tails k ps = []) : follow (.key k) ps = tails wildcardSegment ps :=
    if_pos h
  unfold Mask.keyed?
  cases hget : m.get? k with
  | some sub =>
    obtain ⟨hk, htails, hsub⟩ := hm.get?_eq_some hget
    have hf : follow (.key k) ps = tails k ps := if_neg (by simp [hk, htails])
    rw [hf]
    exact ⟨hsub, htails⟩
  | none =>
    rw [hstar (hm.get?_eq_none hps hget), Option.none_or]
    cases hw : m.get? wildcardSegment with
    | none => exact (hm.get?_eq_none hps hw).resolve_left (by decide)
    | some sub =>
      obtain ⟨-, htails, hsub⟩ := hm.get?_eq_some hw
      exact ⟨hsub, htails⟩

theorem mem_follow_key {k : String} {p : Path} (h : p ∈ follow (.key k) ps) :
    ∃ s, s :: p ∈ ps := by
  simp only [follow] at h
  split at h
  · exact ⟨_, mem_tails.mp h⟩
  · exact ⟨_, mem_tails.mp h⟩

theorem stays_map (hop : op.Keeps keep) {keys : List String} {e : String → Val σ}
    (ih : ∀ k, WalkStays S op keep (e k)) : WalkStays S op keep (.map keys e) := by
  intro k c m ps hk hfits hm hps hne hres loc
  obtain ⟨rfl, he⟩ := hfits.map
  cases loc with
  | nil => simp [walk, Val.leaf?]
  | cons step loc =>
    cases step with
    | field name => simp [walk, Val.leaf?]
    | elem i => simp [walk, Val.leaf?]
    | key key =>
      rw [reaches_cons hps]
      simp only [walk, Val.leaf?, List.mem_filter]
      by_cases hkey : key ∈ keys
      · have hentry := hm.keyed? hps key
        cases hget : m.keyed? key with
        | none =>
          simp only [hget] at hentry
          rw [hentry, reaches_follow_nil]
          cases keep <;> simp [hkey, hop.onMapEntryUnmatched]
        | some sub =>
          simp only [hget] at hentry
          obtain ⟨hsub, hfne⟩ := hentry
          cases hleaf : sub.isLeaf with
          | true =>
            rw [reaches_of_mem (hsub.isLeaf_iff.mp hleaf)]
            cases keep <;> simp [hkey, hleaf, hop.onMapEntryLeaf]
          | false =>
            have hnot : [] ∉ follow (.key key) ps :=
              fun h => by simp [hsub.isLeaf_iff.mpr h] at hleaf
            have hstays := ih key k .singular sub _ hk (he key hkey) hsub hnot hfne (fun p hp => by
              obtain ⟨s, hs⟩ := mem_follow_key hp
              exact resolves_map.mp (hres _ hs)) loc
            simpa [hkey, hleaf] using hstays
      · simp [hkey]

theorem stays_walk (hop : op.Keeps keep) (hS : S.Static) (v : Val σ) : WalkStays S op keep v := by
  induction v with
  | unset => exact fun k c m ps _ hfits => by cases k <;> cases c <;> exact hfits.elim
  | scalar s =>
    intro k c m ps hk hfits hm hps hne hres
    -- no path goes on below a scalar, and the mask is not a leaf
    exfalso
    obtain ⟨p, hp⟩ := List.exists_mem_of_ne_nil ps hne
    have hr := hres p hp
    cases p with
    | nil => exact hps hp
    | cons s' p =>
      cases k with
      | scalar =>
        cases c with
        | singular => exact hr
        | list => exact hfits
        | map => exact hfits
      | message t => cases c <;> exact hfits
      | dynamic d => exact hk _ rfl
  | message f ih => exact stays_message hop hS ih
  | list n e ih => exact stays_list hop ih
  | map keys e ih => exact stays_map hop ih
  | struct keys e _ =>
    intro k c m ps hk hfits
    cases k <;> cases c <;> first | exact hfits.elim | exact absurd rfl (hk _)
  | listValue n e _ =>
    intro k c m ps hk hfits
    cases k <;> cases c <;> first | exact hfits.elim | exact absurd rfl (hk _)

end Walk

end GoAtlas.FieldMask
