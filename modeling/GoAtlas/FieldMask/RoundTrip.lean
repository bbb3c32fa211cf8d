import GoAtlas.FieldMask.Selection
import GoAtlas.FieldMask.Update

/-!
# Masks and their paths, there and back

`ToPaths` lists the leaves of a mask. A mask whose branches all lead to leaves is built from its
list again; one with an empty branch is not, and what is checked on the list says nothing about that
branch. `FromPaths` makes an empty branch of a path that breaks off at an empty segment, unless
another path goes on there or ends above.
-/

namespace GoAtlas.FieldMask

variable {σ : Type} {s : String} {p : Path}

namespace Mask

/-- The same keys at every place, with leaves at the same ones. -/
def Same : Mask → Mask → Prop
  | .leaf, .leaf => True
  | .node keys sub, .node keys' sub' =>
    (∀ s, s ∈ keys ↔ s ∈ keys') ∧ ∀ s ∈ keys, Same (sub s) (sub' s)
  | _, _ => False

def leaves : Mask → List Path
  | .leaf => [[]]
  | .node keys sub => keys.flatMap fun s => (sub s).leaves.map (s :: ·)

/-- No branch below the root is empty, and none has only empty branches. -/
def Solid : Mask → Prop
  | .leaf => True
  | .node keys sub => ∀ s ∈ keys, (sub s).leaves ≠ [] ∧ (sub s).Solid

def HasNode : Mask → Path → Prop
  | _, [] => True
  | .leaf, _ :: _ => False
  | .node keys sub, s :: p => s ∈ keys ∧ (sub s).HasNode p

theorem hasNode_of_mem_keys {m : Mask} {s : String} (h : s ∈ m.keys) : m.HasNode [s] := by
  cases m with
  | leaf => cases h
  | node keys sub =>
    refine ⟨h, ?_⟩
    cases sub s <;> trivial

theorem mem_leaves_node {keys : List String} {sub : String → Mask} {p : Path} :
    p ∈ (node keys sub).leaves ↔ ∃ s ∈ keys, ∃ q ∈ (sub s).leaves, p = s :: q := by
  simp only [leaves, List.mem_flatMap, List.mem_map]
  constructor
  · rintro ⟨s, hs, q, hq, rfl⟩
    exact ⟨s, hs, q, hq, rfl⟩
  · rintro ⟨s, hs, q, hq, rfl⟩
    exact ⟨s, hs, q, hq, rfl⟩

theorem leaves_node_ne_nil {keys : List String} {sub : String → Mask} :
    (node keys sub).leaves ≠ [] ↔ ∃ s ∈ keys, (sub s).leaves ≠ [] := by
  simp [leaves]

theorem Solid.exists_leaf {m : Mask} {p : Path} (h : m.Solid) (hne : m.leaves ≠ [])
    (hp : m.HasNode p) :
    ∃ q ∈ m.leaves, p <+: q := by
  induction p generalizing m with
  | nil =>
    obtain ⟨q, hq⟩ := List.exists_mem_of_ne_nil _ hne
    exact ⟨q, hq, List.nil_prefix⟩
  | cons s p ih =>
    cases m with
    | leaf => exact hp.elim
    | node keys sub =>
      obtain ⟨hs, hp⟩ := hp
      obtain ⟨q, hq, hpq⟩ := ih (h s hs).2 (h s hs).1 hp
      exact ⟨s :: q, mem_leaves_node.mpr ⟨s, hs, q, hq, rfl⟩, List.cons_prefix_cons.mpr ⟨rfl, hpq⟩⟩

end Mask

/-! ## What the paths make of a mask -/

/-- The paths that name something, split and without empty segments at their ends. -/
def parsedPaths (paths : List String) : List Path :=
  (paths.map fun path => trimPath (splitPath path)).filter (· ≠ [])

theorem nil_not_mem_parsedPaths (paths : List String) :
    [] ∉ parsedPaths paths := by simp [parsedPaths]

theorem denotes_foldl_fromPath (paths : List String) {m : Mask} {ps : List Path} (h : Denotes m ps)
    (hps : [] ∉ ps) : Denotes (paths.foldl fromPath m) (ps ++ parsedPaths paths) := by
  induction paths generalizing m ps with
  | nil => simpa [parsedPaths] using h
  | cons path paths ih =>
    by_cases hnil : trimPath (splitPath path) = []
    · have hsame : fromPath m path = m := by rw [fromPath, hnil, fromPathParts]
      have hcons : parsedPaths (path :: paths) = parsedPaths paths := by simp [parsedPaths, hnil]
      rw [List.foldl_cons, hsame, hcons]
      exact ih h hps
    · have hcons : parsedPaths (path :: paths) =
          trimPath (splitPath path) :: parsedPaths paths := by
        simp [parsedPaths, hnil]
      have hnext := ih (Denotes.fromPathParts _ hnil h hps) (by simp [hps, Ne.symm hnil])
      rwa [List.append_assoc, List.singleton_append, ← hcons] at hnext

theorem foldl_fromPath_filter (paths : List String) (m : Mask) :
    (paths.filter (· ≠ "")).foldl fromPath m = paths.foldl fromPath m := by
  induction paths generalizing m with
  | nil => rfl
  | cons path paths ih =>
    by_cases hpath : path = ""
    · have hsame : fromPath m path = m := by rw [fromPath, hpath]; rfl
      rw [List.filter_cons_of_neg (by simpa using hpath), List.foldl_cons, hsame]
      exact ih m
    · rw [List.filter_cons_of_pos (by simpa using hpath), List.foldl_cons, List.foldl_cons]
      exact ih _

theorem denotes_fromPaths (paths : List String) :
    Denotes (fromPaths paths) (parsedPaths paths) := by
  have hempty : Denotes .empty [] := ⟨List.not_mem_nil, fun s => by simp⟩
  rw [fromPaths, foldl_fromPath_filter]
  exact denotes_foldl_fromPath paths hempty List.not_mem_nil

namespace Denotes

variable {m : Mask} {ps : List Path}

theorem mem_of_mem_leaves (h : Denotes m ps) {p : Path} (hp : p ∈ m.leaves) : p ∈ ps ∧ "" ∉ p := by
  induction m generalizing ps p with
  | leaf =>
    rw [List.mem_singleton.mp hp]
    exact ⟨h, List.not_mem_nil⟩
  | node keys sub ih =>
    obtain ⟨s, hs, q, hq, rfl⟩ := Mask.mem_leaves_node.mp hp
    obtain ⟨hmem, hclean⟩ := ih s ((h.2 s).2 hs) hq
    have hne := ((h.2 s).1.mp hs).1
    exact ⟨mem_tails.mp hmem, by simp [hclean, Ne.symm hne]⟩

theorem leaves_ne_nil_iff (h : Denotes m ps) : m.leaves ≠ [] ↔ ∃ p ∈ ps, "" ∉ p := by
  induction m generalizing ps with
  | leaf => exact ⟨fun _ => ⟨[], h, List.not_mem_nil⟩, fun _ => List.cons_ne_nil _ _⟩
  | node keys sub ih =>
    rw [Mask.leaves_node_ne_nil]
    constructor
    · rintro ⟨s, hs, hne⟩
      obtain ⟨p, hp, hclean⟩ := (ih s ((h.2 s).2 hs)).mp hne
      exact ⟨s :: p, mem_tails.mp hp, by simp [hclean, Ne.symm ((h.2 s).1.mp hs).1]⟩
    · rintro ⟨p, hp, hclean⟩
      cases p with
      | nil => exact absurd hp h.1
      | cons s p =>
        have hs : s ∈ keys := by
          refine (h.2 s).1.mpr ⟨fun he => hclean (by simp [he]), ?_⟩
          exact List.ne_nil_of_mem (mem_tails.mpr hp)
        exact ⟨s, hs, (ih s ((h.2 s).2 hs)).mpr
          ⟨p, mem_tails.mpr hp, fun he => hclean (by simp [he])⟩⟩

theorem same_iff_solid {m' : Mask} {qs : List Path} (h : Denotes m ps) (h' : Denotes m' qs)
    (hqs : ∀ p, p ∈ qs ↔ p ∈ m.leaves) : m'.Same m ↔ m.Solid := by
  induction m generalizing ps m' qs with
  | leaf =>
    cases m' with
    | leaf => exact ⟨fun _ => trivial, fun _ => trivial⟩
    | node keys' sub' => exact absurd ((hqs []).mpr (List.mem_singleton_self _)) h'.1
  | node keys sub ih =>
    have hnil : [] ∉ qs := by
      intro hq
      obtain ⟨s, -, q, -, hcons⟩ := Mask.mem_leaves_node.mp ((hqs []).mp hq)
      cases hcons
    have htails (s : String) (hs : s ∈ keys) : ∀ p, p ∈ tails s qs ↔ p ∈ (sub s).leaves := by
      intro p
      rw [mem_tails, hqs, Mask.mem_leaves_node]
      constructor
      · rintro ⟨s', -, q, hq, hcons⟩
        cases hcons
        exact hq
      · exact fun hp => ⟨s, hs, p, hp, rfl⟩
    cases m' with
    | leaf => exact absurd h' hnil
    | node keys' sub' =>
      -- the keys that come back are those with a leaf below
      have hkeys (s : String) : s ∈ keys' ↔ s ∈ keys ∧ (sub s).leaves ≠ [] := by
        rw [(h'.2 s).1]
        constructor
        · rintro ⟨-, hne⟩
          obtain ⟨p, hp⟩ := List.exists_mem_of_ne_nil _ hne
          obtain ⟨s', hs', q, hq, hcons⟩ := Mask.mem_leaves_node.mp ((hqs _).mp (mem_tails.mp hp))
          cases hcons
          exact ⟨hs', List.ne_nil_of_mem hq⟩
        · rintro ⟨hs, hne⟩
          obtain ⟨q, hq⟩ := List.exists_mem_of_ne_nil _ hne
          exact ⟨((h.2 s).1.mp hs).1, List.ne_nil_of_mem ((htails s hs q).mpr hq)⟩
      constructor
      · rintro ⟨hsame, hsub⟩ s hs
        have hs' := (hsame s).mpr hs
        exact ⟨((hkeys s).mp hs').2, (ih s ((h.2 s).2 hs) ((h'.2 s).2 hs') (htails s hs)).mp
          (hsub s hs')⟩
      · intro hsolid
        refine ⟨fun s => ⟨fun hs' => ((hkeys s).mp hs').1,
          fun hs => (hkeys s).mpr ⟨hs, (hsolid s hs).1⟩⟩, ?_⟩
        intro s hs'
        have hs := ((hkeys s).mp hs').1
        exact (ih s ((h.2 s).2 hs) ((h'.2 s).2 hs') (htails s hs)).mpr (hsolid s hs).2

end Denotes

/-! ## Paths that break off -/

/-- The segments in front of the first empty one. -/
def stem (parts : Path) : Path := parts.takeWhile (· ≠ "")

/-- Where a path breaks off, another one without empty segments goes on or has ended before. -/
def Completed (ps : List Path) : Prop :=
  ∀ q ∈ ps, stem q ≠ [] → ∃ c ∈ ps, "" ∉ c ∧ (c <+: stem q ∨ stem q <+: c)

theorem stem_cons (h : s ≠ "") (p : Path) :
    stem (s :: p) = s :: stem p := by simp [stem, h]

theorem stem_empty (p : Path) : stem ("" :: p) = [] := by simp [stem]

theorem completed_cons_iff {ps : List Path} (hnil : [] ∉ ps) : Completed ps ↔
    ∀ s, s ≠ "" → ∀ q ∈ tails s ps, ∃ c ∈ tails s ps, "" ∉ c ∧ (c <+: stem q ∨ stem q <+: c) := by
  constructor
  · intro h s hs q hq
    obtain ⟨c, hc, hclean, hcomp⟩ := h (s :: q) (mem_tails.mp hq) (by simp [stem_cons hs])
    rw [stem_cons hs] at hcomp
    cases c with
    | nil => exact absurd hc hnil
    | cons s' c =>
      rw [List.cons_prefix_cons, List.cons_prefix_cons] at hcomp
      obtain rfl : s' = s := by
        rcases hcomp with h | h
        · exact h.1
        · exact h.1.symm
      refine ⟨c, mem_tails.mpr hc, fun he => hclean (by simp [he]), ?_⟩
      exact hcomp.imp And.right And.right
  · intro h q hq hne
    cases q with
    | nil => exact absurd hq hnil
    | cons s q =>
      by_cases hs : s = ""
      · subst hs
        exact absurd (stem_empty q) hne
      · obtain ⟨c, hc, hclean, hcomp⟩ := h s hs q (mem_tails.mpr hq)
        refine ⟨s :: c, mem_tails.mp hc, by simp [hclean, Ne.symm hs], ?_⟩
        rw [stem_cons hs, List.cons_prefix_cons, List.cons_prefix_cons]
        exact hcomp.imp (⟨rfl, ·⟩) (⟨rfl, ·⟩)

theorem Denotes.solid_iff_completed {m : Mask} {ps : List Path} (h : Denotes m ps) :
    m.Solid ↔ Completed ps := by
  induction m generalizing ps with
  | leaf => exact ⟨fun _ q _ _ => ⟨[], h, List.not_mem_nil, .inl List.nil_prefix⟩, fun _ => trivial⟩
  | node keys sub ih =>
    rw [completed_cons_iff h.1]
    constructor
    · intro hsolid s hs q hq
      have hkey : s ∈ keys := (h.2 s).1.mpr ⟨hs, List.ne_nil_of_mem hq⟩
      have hbelow := (h.2 s).2 hkey
      by_cases hstem : stem q = []
      · obtain ⟨c, hc, hclean⟩ := hbelow.leaves_ne_nil_iff.mp (hsolid s hkey).1
        exact ⟨c, hc, hclean, .inr (by simp [hstem])⟩
      · exact (ih s hbelow).mp (hsolid s hkey).2 q hq hstem
    · intro hcomp s hkey
      obtain ⟨hs, hne⟩ := (h.2 s).1.mp hkey
      have hbelow := (h.2 s).2 hkey
      obtain ⟨q, hq⟩ := List.exists_mem_of_ne_nil _ hne
      obtain ⟨c, hc, hclean, -⟩ := hcomp s hs q hq
      exact ⟨hbelow.leaves_ne_nil_iff.mpr ⟨c, hc, hclean⟩,
        (ih s hbelow).mpr fun q hq _ => hcomp s hs q hq⟩

/-! ## Writing and reading a path -/

def render (p : Path) : String := p.foldl (fun pre s => joinPath pre (quotePathSegment s)) ""

theorem render_concat (p : Path) (s : String) :
    render (p ++ [s]) = joinPath (render p) (quotePathSegment s) := by simp [render]

theorem buildPaths_eq {keys : List String} {sub : String → Mask} (r : Path) :
    (Mask.node keys sub).buildPaths (render r) = (Mask.node keys sub).leaves.map fun p =>
    render (r ++ p) := by
  induction hm : Mask.node keys sub generalizing keys sub r with
  | leaf => cases hm
  | node keys' sub' ih =>
    cases hm
    simp only [Mask.buildPaths, Mask.leaves, List.map_flatMap, List.map_map]
    refine List.flatMap_congr fun s _ => ?_
    rw [← render_concat]
    cases hs : sub' s with
    | leaf => simp [Mask.isLeaf, Mask.leaves]
    | node keys'' sub'' =>
      rw [← hs, if_neg (by simp [hs, Mask.isLeaf]), ih s (r ++ [s]) hs.symm]
      refine List.map_congr_left fun p _ => ?_
      simp

def quoted (cs : List Char) (inQuotes : Bool) : Bool :=
  cs.foldl (fun q c => if c = quoteChar then !q else q) inQuotes

theorem splitLoop_append_separator (cs ds current : List Char) (inQuotes : Bool)
    (h : quoted cs inQuotes = false) :
    splitLoop (cs ++ pathSeparator :: ds) current inQuotes =
      splitLoop cs current inQuotes ++ splitLoop ds [] false := by
  induction cs generalizing current inQuotes with
  | nil =>
    have hout : inQuotes = false := h
    subst hout
    have hne : pathSeparator ≠ quoteChar := by decide
    simp [splitLoop, hne]
  | cons c cs ih =>
    simp only [quoted, List.foldl_cons] at h
    simp only [List.cons_append, splitLoop]
    by_cases hq : c = quoteChar
    · rw [if_pos hq] at h
      rw [if_pos hq, if_pos hq]
      exact ih _ _ h
    · rw [if_neg hq] at h
      rw [if_neg hq, if_neg hq]
      split
      · rw [ih _ _ h]
        rfl
      · exact ih _ _ h

/-- A text without quotes, which has no separators or stands within quotes, is one segment. -/
theorem splitLoop_append_segment (cs ds current : List Char) (inQuotes : Bool)
    (hquote : quoteChar ∉ cs) (hsep : inQuotes = true ∨ pathSeparator ∉ cs) :
    splitLoop (cs ++ ds) current inQuotes = splitLoop ds (cs.reverse ++ current) inQuotes := by
  induction cs generalizing current with
  | nil => rfl
  | cons c cs ih =>
    have hc : c ≠ quoteChar := fun he => hquote (by simp [he])
    have hnot : ¬ (c = pathSeparator ∧ inQuotes = false) := by
      rintro ⟨hcs, hout⟩
      rcases hsep with hin | hsep
      · rw [hin] at hout
        cases hout
      · exact hsep (by simp [hcs])
    simp only [List.cons_append, splitLoop, if_neg hc, if_neg hnot]
    rw [ih _ (fun he => hquote (List.mem_cons_of_mem _ he))
      (hsep.imp id fun hs he => hs (List.mem_cons_of_mem _ he))]
    simp

theorem quoted_of_not_mem {cs : List Char} (h : quoteChar ∉ cs) (inQuotes : Bool) :
    quoted cs inQuotes = inQuotes := by
  induction cs with
  | nil => rfl
  | cons c cs ih =>
    have hc : c ≠ quoteChar := fun he => h (by simp [he])
    simp only [quoted, List.foldl_cons, if_neg hc] at ih ⊢
    exact ih fun he => h (List.mem_cons_of_mem _ he)

theorem quotePathSegment_toList (hsep : pathSeparator ∈ s.toList) :
    (quotePathSegment s).toList = quoteChar :: (s.toList ++ [quoteChar]) := by
  have hdot : s.toList.contains '.' = true := by simpa [pathSeparator] using hsep
  rw [quotePathSegment, if_pos hdot]
  simp [quoteChar]

theorem quotePathSegment_of_not_mem (hsep : pathSeparator ∉ s.toList) :
    quotePathSegment s = s := by
  rw [quotePathSegment, if_neg (by simpa [pathSeparator] using hsep)]

theorem splitLoop_quotePathSegment (h : quoteChar ∉ s.toList) :
    splitLoop (quotePathSegment s).toList [] false = [s] ∧
      quoted (quotePathSegment s).toList false = false := by
  by_cases hsep : pathSeparator ∈ s.toList
  · rw [quotePathSegment_toList hsep]
    constructor
    · simp only [splitLoop, if_true, Bool.not_false]
      rw [splitLoop_append_segment _ _ _ _ h (.inl rfl)]
      simp [splitLoop]
    · have hin := quoted_of_not_mem h true
      simp only [quoted] at hin
      simp [quoted, hin]
  · rw [quotePathSegment_of_not_mem hsep]
    constructor
    · have hone := splitLoop_append_segment s.toList [] [] false h (.inr hsep)
      rw [List.append_nil] at hone
      rw [hone]
      simp [splitLoop]
    · exact quoted_of_not_mem h false

theorem quotePathSegment_ne_empty (h : s ≠ "") : quotePathSegment s ≠ "" := by
  unfold quotePathSegment
  split
  · intro he
    have hlist := congrArg String.toList he
    simp at hlist
  · exact h

theorem render_ne_empty (hne : p ≠ []) (h : "" ∉ p) : render p ≠ "" := by
  obtain ⟨r, s, rfl⟩ := (List.eq_nil_or_concat p).resolve_left hne
  rw [List.concat_eq_append] at h ⊢
  rw [render_concat]
  have hs : quotePathSegment s ≠ "" := quotePathSegment_ne_empty fun he => h (by simp [he])
  unfold joinPath
  split
  · exact hs
  · intro he
    have hlist := congrArg String.toList he
    simp at hlist

theorem splitLoop_render (p : Path) (hne : p ≠ []) (h : "" ∉ p)
    (hquote : ∀ s ∈ p, quoteChar ∉ s.toList) :
    splitLoop (render p).toList [] false = p ∧ quoted (render p).toList false = false := by
  induction p using List.reverseRecOn with
  | nil => exact absurd rfl hne
  | append_singleton r s ih =>
    obtain ⟨hsplit, hout⟩ := splitLoop_quotePathSegment (hquote s (by simp))
    rw [render_concat]
    by_cases hr : r = []
    · subst hr
      exact ⟨hsplit, hout⟩
    · have hclean : "" ∉ r := fun he => h (List.mem_append_left _ he)
      obtain ⟨ihs, iho⟩ := ih hr hclean fun t ht => hquote t (List.mem_append_left _ ht)
      have hlist : (joinPath (render r) (quotePathSegment s)).toList =
          (render r).toList ++ pathSeparator :: (quotePathSegment s).toList := by
        rw [joinPath, if_neg (render_ne_empty hr hclean)]
        simp [pathSeparator]
      rw [hlist]
      constructor
      · rw [splitLoop_append_separator _ _ _ _ iho, ihs, hsplit]
      · simp only [quoted] at iho hout
        rw [quoted, List.foldl_append, iho, List.foldl_cons, if_neg (by decide)]
        exact hout

theorem splitPath_render (hne : p ≠ []) (h : "" ∉ p) (hquote : ∀ s ∈ p, quoteChar ∉ s.toList) :
    splitPath (render p) = p := by
  rw [splitPath, if_neg (render_ne_empty hne h)]
  exact (splitLoop_render p hne h hquote).1

theorem trimPath_of_clean (h : "" ∉ p) : trimPath p = p := by
  rw [trimPath, List.rdropWhile_eq_self_iff]
  intro hne hlast
  rw [beq_iff_eq] at hlast
  exact h (hlast ▸ List.getLast_mem hne)

theorem quoteChar_not_mem_splitLoop (cs current : List Char) (inQuotes : Bool)
    (h : quoteChar ∉ current) :
    ∀ s ∈ splitLoop cs current inQuotes, quoteChar ∉ s.toList := by
  induction cs generalizing current inQuotes with
  | nil => simpa [splitLoop] using h
  | cons c cs ih =>
    simp only [splitLoop]
    split
    · exact ih _ _ h
    · rename_i hc
      split
      · rintro s hs
        rcases List.mem_cons.mp hs with rfl | hs
        · simpa using h
        · exact ih [] inQuotes List.not_mem_nil s hs
      · exact ih _ _ (by simp [h, Ne.symm hc])

theorem quoteChar_not_mem_parsedPaths {paths : List String} (hp : p ∈ parsedPaths paths) :
    ∀ s ∈ p, quoteChar ∉ s.toList := by
  intro s hs
  simp only [parsedPaths, List.mem_filter, List.mem_map] at hp
  obtain ⟨⟨path, -, rfl⟩, -⟩ := hp
  have hs : s ∈ splitPath path := (List.rdropWhile_prefix _ _).subset hs
  unfold splitPath at hs
  split at hs
  · cases hs
  · exact quoteChar_not_mem_splitLoop _ _ _ List.not_mem_nil s hs

theorem mem_toPaths_iff {m : Mask} (hnode : m.isLeaf = false) {path : String} :
    path ∈ m.toPaths ↔ ∃ p ∈ m.leaves, render p = path := by
  cases m with
  | leaf => cases hnode
  | node keys sub =>
    have hbuild := @buildPaths_eq keys sub []
    rw [show render [] = "" from rfl] at hbuild
    rw [Mask.toPaths, List.mem_mergeSort, hbuild]
    simp

section

variable (paths : List String)

theorem fromPaths_isLeaf : (fromPaths paths).isLeaf = false := by
  cases hleaf : (fromPaths paths).isLeaf with
  | false => rfl
  | true =>
    exact absurd ((denotes_fromPaths paths).isLeaf_iff.mp hleaf) (nil_not_mem_parsedPaths paths)

theorem splitPath_render_leaf {p : Path} (hp : p ∈ (fromPaths paths).leaves) :
    p ≠ [] ∧ "" ∉ p ∧ splitPath (render p) = p := by
  obtain ⟨hmem, hclean⟩ := (denotes_fromPaths paths).mem_of_mem_leaves hp
  have hne : p ≠ [] := fun he => nil_not_mem_parsedPaths paths (he ▸ hmem)
  exact ⟨hne, hclean, splitPath_render hne hclean (quoteChar_not_mem_parsedPaths hmem)⟩

theorem mem_parsedPaths_toPaths (p : Path) :
    p ∈ parsedPaths (fromPaths paths).toPaths ↔ p ∈ (fromPaths paths).leaves := by
  simp only [parsedPaths, List.mem_filter, List.mem_map, mem_toPaths_iff (fromPaths_isLeaf paths)]
  constructor
  · rintro ⟨⟨path, ⟨q, hq, rfl⟩, rfl⟩, -⟩
    obtain ⟨-, hclean, hsplit⟩ := splitPath_render_leaf paths hq
    rwa [hsplit, trimPath_of_clean hclean]
  · intro hp
    obtain ⟨hne, hclean, hsplit⟩ := splitPath_render_leaf paths hp
    refine ⟨⟨render p, ⟨p, hp, rfl⟩, ?_⟩, by simpa using hne⟩
    rw [hsplit, trimPath_of_clean hclean]

end

/-! ## Validation -/

namespace Schema

variable (S : Schema σ)

def validate (msk : Mask) (t : Fin S.types) : Option ValidationError :=
  if msk.isEmpty then none else msk.toPaths.findSome? (S.validatePath t)

/-- The segments lead to a place of the schema; `path` only names the path in errors. -/
def Knows (t : Fin S.types) (p : Path) : Prop :=
  ∀ path, (S.validatingWalker path).walkParts p (some t) none = none

end Schema

variable {S : Schema σ}

variable {path path' part : String} {b b' : Bool}

theorem afterList_isLast (list : S.Field) (hb : b = true → b' = true) :
    (∃ e, (S.validatingWalker path).afterList list part b = .fail e) ∨
    (S.validatingWalker path').afterList list part b' =
    (S.validatingWalker path).afterList list part b ∨
    (S.validatingWalker path').afterList list part b' = .stop := by
  cases hk : list.kind <;> cases b <;> cases b' <;> by_cases hw : part = wildcardSegment <;>
    by_cases hn : isNumericSegment part <;>
    simp_all [PathWalker.afterList, Schema.validatingWalker, PathWalker.After.called]

theorem afterMap_isLast (mapField : S.Field) (hb : b = true → b' = true) :
    (∃ e, (S.validatingWalker path).afterMap mapField b = .fail e) ∨
    (S.validatingWalker path').afterMap mapField b' =
    (S.validatingWalker path).afterMap mapField b ∨
    (S.validatingWalker path').afterMap mapField b' = .stop := by
  cases hk : mapField.kind <;> cases b <;> cases b' <;>
    simp_all [PathWalker.afterMap, Schema.validatingWalker]

theorem after_isLast (path path' part : String) (field : S.Field) (hb : b = true → b' = true) :
    (∃ e, (if field.card = .list then (S.validatingWalker path).afterList field part b
      else (S.validatingWalker path).afterMap field b) = .fail e) ∨
    (if field.card = .list then (S.validatingWalker path').afterList field part b'
      else (S.validatingWalker path').afterMap field b') =
    (if field.card = .list then (S.validatingWalker path).afterList field part b
      else (S.validatingWalker path).afterMap field b) ∨
    (if field.card = .list then (S.validatingWalker path').afterList field part b'
      else (S.validatingWalker path').afterMap field b') = .stop := by
  by_cases hc : field.card = .list
  · simp only [if_pos hc]
    exact afterList_isLast field hb
  · simp only [if_neg hc]
    exact afterMap_isLast field hb

/-- A path that is accepted is accepted up to each of its segments. -/
theorem walkParts_of_append (path' : String) (p q : Path) (current : Option (Fin S.types))
    (previous : Option S.Field)
    (h : (S.validatingWalker path).walkParts (p ++ q) current previous = none) :
    (S.validatingWalker path').walkParts p current previous = none := by
  induction p generalizing current previous with
  | nil => rfl
  | cons s p ih =>
    have hlast : (p ++ q).isEmpty = true → p.isEmpty = true := by
      intro hempty
      rw [List.isEmpty_iff, List.append_eq_nil_iff] at hempty
      rw [hempty.1, List.isEmpty_nil]
    have hlookup (current : Option (Fin S.types))
        (h : (S.validatingWalker path).walkParts (s :: (p ++ q)) current none = none) :
        (S.validatingWalker path').walkParts (s :: p) current none = none := by
      simp only [PathWalker.walkParts] at h ⊢
      cases current with
      | none => simp [Schema.validatingWalker] at h
      | some t =>
        cases hfield : S.field? t s with
        | none => simp [hfield, Schema.validatingWalker] at h
        | some field =>
          cases p with
          | nil => simp [hfield]
          | cons s' p =>
            simp only [hfield, List.cons_append, List.isEmpty_cons, Bool.false_eq_true,
              if_false] at h ⊢
            cases hc : field.card <;> cases hk : field.kind <;> simp only [hc, hk] at h ⊢
            case singular.scalar => simp [Schema.validatingWalker] at h
            all_goals exact ih _ _ h
    cases previous with
    | none => exact hlookup current h
    | some field =>
      simp only [List.cons_append, PathWalker.walkParts] at h ⊢
      rcases after_isLast path path' s field hlast with ⟨e, he⟩ | he | he
      · rw [he] at h
        cases h
      · -- where the walk goes on, it goes on in the same place
        rw [he]
        generalize (if field.card = .list then (S.validatingWalker path).afterList field s
          (p ++ q).isEmpty
          else (S.validatingWalker path).afterMap field (p ++ q).isEmpty) = next at h ⊢
        cases next with
        | fail e => cases h
        | stop => rfl
        | consumed t => exact ih _ _ h
        | field t => exact hlookup (some t) h
      · rw [he]

/-- If no branch of the mask is empty and its listed paths are valid, every node of it is known. -/
theorem knows_of_solid {paths : List String} {t : Fin S.types} (hsolid : (fromPaths paths).Solid)
    (hvalid : ∀ path ∈ (fromPaths paths).toPaths, S.validatePath t path = none)
    (hne : p ≠ []) (hnode : (fromPaths paths).HasNode p) : S.Knows t p := by
  intro path'
  have hleaves : (fromPaths paths).leaves ≠ [] := by
    cases hm : fromPaths paths with
    | leaf => exact List.cons_ne_nil _ _
    | node keys sub =>
      rw [hm] at hsolid hnode
      cases p with
      | nil => exact absurd rfl hne
      | cons s p => exact Mask.leaves_node_ne_nil.mpr ⟨s, hnode.1, (hsolid s hnode.1).1⟩
  obtain ⟨q, hq, r, rfl⟩ := hsolid.exists_leaf hleaves hnode
  obtain ⟨hqne, hclean, hsplit⟩ := splitPath_render_leaf paths hq
  have hok := hvalid (render (p ++ r)) ((mem_toPaths_iff (fromPaths_isLeaf paths)).mpr ⟨_, hq, rfl⟩)
  rw [Schema.validatePath, PathWalker.walk, if_neg (render_ne_empty hqne hclean), hsplit] at hok
  exact walkParts_of_append path' p r _ _ hok

/-- The mask that is built from the listed paths is the mask itself exactly if, wherever a path
breaks off at an empty segment, another one goes on or has ended before. Then validation of the
listed paths covers every node. -/
theorem fromPaths_toPaths_iff (paths : List String) :
    ((fromPaths (fromPaths paths).toPaths).Same (fromPaths paths) ↔ Completed (parsedPaths paths)) ∧
    (Completed (parsedPaths paths) → ∀ (σ : Type) (S : Schema σ) (t : Fin S.types),
      (S.validate (fromPaths paths) t = none ∨
        ∃ ord f r, S.applyUpdateMask ord .enforce (fromPaths paths) t f = .ok r) →
      ∀ p, p ≠ [] → (fromPaths paths).HasNode p → S.Knows t p) := by
  have hsolid := (denotes_fromPaths paths).solid_iff_completed
  refine ⟨?_, fun hcomp σ S t haccepted p hne hnode => ?_⟩
  · rw [← hsolid]
    exact (denotes_fromPaths paths).same_iff_solid (denotes_fromPaths _)
      (mem_parsedPaths_toPaths paths)
  · refine knows_of_solid (hsolid.mpr hcomp) ?_ hne hnode
    rcases haccepted with hvalid | ⟨ord, f, r, happlied⟩
    · cases hm : fromPaths paths with
      | leaf =>
        intro path hpath
        simp [Mask.toPaths, Mask.buildPaths] at hpath
      | node keys sub =>
        rw [hm] at hvalid hnode
        have hkeys : (Mask.node keys sub).isEmpty = false := by
          cases p with
          | nil => exact absurd rfl hne
          | cons s p => simpa [Mask.isEmpty, Mask.keys] using List.ne_nil_of_mem hnode.1
        rw [Schema.validate, hkeys] at hvalid
        exact List.findSome?_eq_none_iff.mp hvalid
    · intro path hpath
      cases hinvalid : S.validatePath t path with
      | none => rfl
      | some e =>
        -- the first invalid path is refused
        have hmem : e ∈ (fromPaths paths).toPaths.filterMap (S.validatePath t) :=
          List.mem_filterMap.mpr ⟨path, hpath, hinvalid⟩
        obtain ⟨e', rest, hcons⟩ := List.exists_cons_of_ne_nil (List.ne_nil_of_mem hmem)
        simp [Schema.applyUpdateMask, Schema.checkUpdateMask, hcons, Except.map] at happlied

def nameOnly : Schema Unit where
  types := 1
  fullName _ := "User"
  fields _ := [⟨"name", .singular, .scalar, [], false, (), none⟩]
  nodup := by decide
  ident := by decide +kernel
  oneof := by decide

/-- A path that breaks off beside one that goes on; `name` is resolved. -/
theorem fromPaths_toPaths_iff_name :
    (fromPaths (fromPaths ["user..x", "user.name"]).toPaths).Same
    (fromPaths ["user..x", "user.name"]) ∧
      nameOnly.Knows ⟨0, Nat.one_pos⟩ ["name"] := by
  refine ⟨(fromPaths_toPaths_iff _).1.mpr (by unfold Completed; decide +kernel), ?_⟩
  refine (fromPaths_toPaths_iff ["name"]).2 (by unfold Completed; decide +kernel)
    _ nameOnly _ (.inl ?_) _
    (List.cons_ne_nil _ _) ?_
  · decide +kernel
  · exact Mask.hasNode_of_mem_keys (by decide +kernel)

/-- The path `bogus..x` makes an empty branch, which no listed path names and no validation sees. -/
theorem broken_path_unlisted :
    (fromPaths ["bogus..x"]).toPaths = [] ∧
      ¬ (fromPaths (fromPaths ["bogus..x"]).toPaths).Same (fromPaths ["bogus..x"]) ∧
      nameOnly.validate (fromPaths ["bogus..x"]) ⟨0, Nat.one_pos⟩ = none ∧
      (fromPaths ["bogus..x"]).HasNode ["bogus"] ∧ ¬ nameOnly.Knows ⟨0, Nat.one_pos⟩ ["bogus"] := by
  have hpaths : (fromPaths ["bogus..x"]).toPaths = [] := by decide +kernel
  have hnode : (fromPaths ["bogus..x"]).HasNode ["bogus"] :=
    Mask.hasNode_of_mem_keys (by decide +kernel)
  refine ⟨hpaths, ?_, ?_, hnode, ?_⟩
  · intro hsame
    rw [hpaths] at hsame
    cases hm : fromPaths ["bogus..x"] with
    | leaf =>
      rw [hm] at hnode
      exact hnode
    | node keys sub =>
      rw [hm] at hsame hnode
      exact List.not_mem_nil ((hsame.1 "bogus").mpr hnode.1)
  · decide +kernel
  · intro h
    exact absurd (h "bogus") (by decide +kernel)

end GoAtlas.FieldMask
