import GoAtlas.Maps.Flat

/-!
# Round trips of flat and nested maps

What `ToFlatMap` writes, by the paths of the leaves, and when `FromFlatMap` and `ToFlatMap` undo
each other.
-/

namespace GoAtlas.Maps

open Lib Lib.PathTree

variable {π : Type} {s : Name} {v w : Val π} {p r : List Name} {k x y : Name} {ks : List Name}
    {m : FlatMap π}

/-! ## Keys and paths -/

/-- The key that `flattenNested` makes of a path. -/
def keyFrom (pre : Name) : List Name → Name
  | [] => pre
  | s :: p => keyFrom (fullKey pre s) p

def NoDots (p : List Name) : Prop := ∀ s ∈ p, dot ∉ s.bytes

theorem noDots_segments (key : Name) : NoDots (segments key) := by
  intro s hs
  obtain ⟨w, hw, rfl⟩ := List.mem_map.mp hs
  exact not_mem_of_mem_splitAtSep hw

theorem keyFrom_of_ne {pre : Name} (hpre : pre.bytes ≠ []) :
    (keyFrom pre p).bytes = pre.bytes ++ (p.map Name.bytes).flatMap (dot :: ·) := by
  induction p generalizing pre with
  | nil => simp [keyFrom]
  | cons s p ih =>
    have hfull : fullKey pre s = ⟨pre.bytes ++ dot :: s.bytes⟩ := if_pos hpre
    rw [keyFrom, hfull, ih (by simp)]
    simp

theorem keyFrom_nil_cons : keyFrom ⟨[]⟩ (s :: p) = keyFrom s p := by
  rw [keyFrom, fullKey, if_neg (by simp)]

theorem keyFrom_eq (hs : s.bytes ≠ [] ∨ p = []) :
    (keyFrom ⟨[]⟩ (s :: p)).bytes = s.bytes ++ (p.map Name.bytes).flatMap (dot :: ·) := by
  rw [keyFrom_nil_cons]
  rcases hs with hs | rfl
  · exact keyFrom_of_ne hs
  · simp [keyFrom]

theorem head_keyFrom (hp : NoDots p) : (keyFrom ⟨[]⟩ p).bytes.head? ≠ some dot := by
  induction p with
  | nil => simp [keyFrom]
  | cons s p ih =>
    obtain ⟨bytes⟩ := s
    cases bytes with
    | nil =>
      rw [keyFrom_nil_cons]
      exact ih fun s hs => hp s (List.mem_cons_of_mem _ hs)
    | cons c bytes =>
      have hc := hp _ List.mem_cons_self
      rw [keyFrom_eq (.inl (by simp))]
      intro heq
      exact hc (by simp [← Option.some.inj heq])

theorem exists_segments (key : Name) : ∃ s p, segments key = s :: p ∧
    key.bytes = s.bytes ++ (p.map Name.bytes).flatMap (dot :: ·) := by
  obtain ⟨w, ws, hsplit⟩ := List.exists_cons_of_ne_nil (splitAtSep_ne_nil dot key.bytes)
  refine ⟨⟨w⟩, ws.map Name.mk, by rw [segments, hsplit, List.map_cons], ?_⟩
  rw [List.map_map, show Name.bytes ∘ Name.mk = id from rfl, List.map_id]
  exact eq_of_splitAtSep hsplit

theorem keyFrom_segments (hhead : k.bytes.head? ≠ some dot) : keyFrom ⟨[]⟩ (segments k) = k := by
  obtain ⟨s, p, hseg, hbytes⟩ := exists_segments k
  have hs : s.bytes ≠ [] ∨ p = [] := by
    cases p with
    | nil => exact .inr rfl
    | cons t p =>
      left
      intro hnil
      exact hhead (by rw [hbytes, hnil]; rfl)
  have heq := (keyFrom_eq hs).trans hbytes.symm
  rw [← hseg] at heq
  cases k
  exact congrArg Name.mk heq

theorem segments_keyFrom (hp : NoDots (s :: p)) (hs : s.bytes ≠ [] ∨ p = []) :
    segments (keyFrom ⟨[]⟩ (s :: p)) = s :: p := by
  have hparts : ∀ w ∈ s.bytes :: p.map Name.bytes, dot ∉ w := by
    rw [← List.map_cons]
    intro w hw
    obtain ⟨t, ht, rfl⟩ := List.mem_map.mp hw
    exact hp t ht
  rw [segments, keyFrom_eq hs, splitAtSep_parts hparts, List.map_cons, List.map_map,
    show Name.mk ∘ Name.bytes = id from rfl, List.map_id]

theorem prefix_of_below (hb : Below (segments x) (segments y)) : x.bytes ++ [dot] <+: y.bytes := by
  obtain ⟨⟨r, hr⟩, hne⟩ := hb
  obtain ⟨s, p, hx, hxbytes⟩ := exists_segments x
  obtain ⟨t, q, hy, hybytes⟩ := exists_segments y
  rw [hx, hy, List.cons_append] at hr
  cases hr
  cases r with
  | nil => exact absurd (by rw [hx, hy, List.append_nil]) hne
  | cons u r =>
    rw [hxbytes, hybytes]
    exact ⟨u.bytes ++ (r.map Name.bytes).flatMap (dot :: ·), by simp⟩

/-! ## What `ToFlatMap` writes -/

theorem flattenNested_eq_of {d : List (Name × PathTree Name π)} (h : ∀ e ∈ d, ∀ full,
    flattenValue id e.2 full = e.2.leaves.map fun l => (keyFrom full l.1, l.2)) (pre : Name) :
    flattenNested id d pre = (leavesDir d).map fun l => (keyFrom pre l.1, l.2) := by
  induction d with
  | nil => rfl
  | cons e d ih =>
    obtain ⟨s, t⟩ := e
    rw [List.forall_mem_cons] at h
    rw [flattenNested, leavesDir, List.map_append, ih h.2, flattenEntry, leavesEntry, h.1,
      List.map_map]
    rfl

theorem flattenNested_eq (d : List (Name × PathTree Name π)) (pre : Name) :
    flattenNested id d pre = (leavesDir d).map fun l => (keyFrom pre l.1, l.2) := by
  refine flattenNested_eq_of (fun e _ => ?_) pre
  induction e.2 using PathTree.induct with
  | leaf v => exact fun _ => rfl
  | node d hd =>
    intro full
    rw [flattenValue, leaves, flattenNested_eq_of hd]

theorem lookup_writes (l acc : List (Name × π)) (key : Name) :
    (l.foldl (fun out w => Assoc.put out w.1 w.2) acc).lookup key =
    (l.reverse.lookup key).or (acc.lookup key) := by
  induction l generalizing acc with
  | nil => simp
  | cons e l ih =>
    obtain ⟨key', u⟩ := e
    rw [List.foldl_cons, ih, List.reverse_cons, List.lookup_append, Option.or_assoc,
      Assoc.lookup_put]
    by_cases hkey : key = key'
    · simp [hkey]
    · simp [hkey, List.lookup_cons, beq_false_of_ne hkey]

variable {n : Dir Name π} {c : π} {L : Layout Name π}

theorem exists_path_of_lookup (hn : All Distinct (.node n))
    (hlookup : (toFlatMap id n).lookup k = some c) :
    ∃ p, look n p = some (.leaf c) ∧ k = keyFrom ⟨[]⟩ p := by
  rw [toFlatMap, lookup_writes, List.lookup_nil, Option.or_none] at hlookup
  have hmem := List.mem_reverse.mp (Assoc.mem_of_lookup hlookup)
  rw [flattenNested_eq] at hmem
  obtain ⟨⟨p, u⟩, hp, heq⟩ := List.mem_map.mp hmem
  cases heq
  exact ⟨p, (mem_leaves hn).mp hp, rfl⟩

/-- If no other path has its key, the value at a path is found. -/
theorem lookup_toFlatMap (hn : All Distinct (.node n)) (hleaf : look n p = some (.leaf c))
    (hinj : ∀ q u, look n q = some (.leaf u) → keyFrom ⟨[]⟩ q = keyFrom ⟨[]⟩ p → q = p) :
    (toFlatMap id n).lookup (keyFrom ⟨[]⟩ p) = some c := by
  have hmem : (keyFrom ⟨[]⟩ p, c) ∈ (flattenNested id n ⟨[]⟩).reverse := by
    rw [List.mem_reverse, flattenNested_eq]
    exact List.mem_map.mpr ⟨(p, c), (mem_leaves hn).mpr hleaf, rfl⟩
  have hsome : ((toFlatMap id n).lookup (keyFrom ⟨[]⟩ p)).isSome := by
    rw [toFlatMap, lookup_writes, List.lookup_nil, Option.or_none, Assoc.lookup_isSome]
    exact List.mem_map.mpr ⟨_, hmem, rfl⟩
  obtain ⟨u, hu⟩ := Option.isSome_iff_exists.mp hsome
  obtain ⟨q, hq, heq⟩ := exists_path_of_lookup hn hu
  rw [hinj q u hq heq.symm, hleaf] at hq
  cases hq
  exact hu

/-! ## Round trips -/

/-- A nested map without maps of the input in it, as a layout of values. -/
def lift (L : Layout Name π) : Layout Name (Val π) := fun p =>
  (L p).map fun
    | .leaf c => .leaf (.prim c)
    | .dir => .dir

theorem lift_eq_leaf :
    lift L p = some (.leaf v) ↔ ∃ c, v = .prim c ∧ L p = some (.leaf c) := by
  unfold lift
  cases L p with
  | none => simp
  | some x =>
    cases x with
    | leaf c => simp [eq_comm]
    | dir => simp

theorem lift_eq_dir : lift L p = some .dir ↔ L p = some .dir := by
  unfold lift
  cases L p with
  | none => simp
  | some x => cases x <;> simp

theorem spans_lift {S : List Name → π → Prop} (hspans : L.Spans S) :
    (lift L).Spans fun p v => ∃ c, v = .prim c ∧ S p c := by
  constructor
  · intro p v
    rw [lift_eq_leaf]
    simp only [hspans.1]
  · intro p
    rw [lift_eq_dir, hspans.2]
    constructor
    · rintro (hp | ⟨q, c, hb, hq⟩)
      · exact .inl hp
      · exact .inr ⟨q, .prim c, hb, c, rfl, hq⟩
    · rintro (hp | ⟨q, v, hb, c, -, hq⟩)
      · exact .inl hp
      · exact .inr ⟨q, c, hb, hq⟩

def FlatMap.Plain (m : FlatMap π) : Prop :=
  ∀ key v, m.heap.obj m.root key = some v → ∃ c, v = .prim c

/-- No key, followed by a dot, is a prefix of another one. -/
def FlatMap.PrefixFree (m : FlatMap π) : Prop :=
  ∀ key ∈ m.keys, ∀ other ∈ m.keys, ¬key.bytes ++ [dot] <+: other.bytes

theorem settles_of_plain (hplain : m.Plain) : Settles m := by
  intro k q v w r hk _ _ _
  obtain ⟨c, rfl⟩ := hplain k v hk
  simp [Settled]

/-- The values of the result, where no path is above another one. -/
theorem spans_fromFlatMap (hs : Settles m)
    (hapart : ∀ x v y w, m.heap.obj m.root x = some v → m.heap.obj m.root y = some w →
      ¬Below (segments x) (segments y)) {ks : List Name} (ho : m.Order ks) :
    ∃ d, fromFlatMap m.root ([], m.heap) ks = some (d, m.heap) ∧
      Layout.Spans (look d) fun p v => ∃ key, m.heap.obj m.root key = some v ∧
        segments key = p := by
  obtain ⟨d, hrun, hlook⟩ := fromFlatMap_of_settles hs ho
  have hmem : ∀ p v, (p, v) ∈ entries m.heap m.root m.keys.dedup ↔
      ∃ key, m.heap.obj m.root key = some v ∧ segments key = p := by
    intro p v
    rw [mem_entries]
    constructor
    · rintro ⟨key, -, hobj, hp⟩
      exact ⟨key, hobj, hp⟩
    · rintro ⟨key, hobj, hp⟩
      exact ⟨key, FlatMap.mem_of_order m.order_dedup hobj, hobj, hp⟩
  refine ⟨d, hrun, ?_⟩
  rw [hlook]
  simp only [← hmem]
  apply Layout.spans_foldl_put
  · rintro ⟨p, v⟩ he ⟨q, w⟩ hf
    obtain ⟨x, hx, rfl⟩ := (hmem p v).mp he
    obtain ⟨y, hy, rfl⟩ := (hmem q w).mp hf
    exact hapart x v y w hx hy
  · exact nodup_entries m.order_dedup.1
  · rintro ⟨p, v⟩ he
    obtain ⟨x, -, rfl⟩ := (hmem p v).mp he
    exact segments_ne_nil x

theorem FlatMap.PrefixFree.apart (hfree : m.PrefixFree) (hx : m.heap.obj m.root x = some v)
    (hy : m.heap.obj m.root y = some w) : ¬Below (segments x) (segments y) := by
  intro hb
  refine hfree x ((m.mem_keys x).mpr ?_) y ((m.mem_keys y).mpr ?_) (prefix_of_below hb)
  · rw [hx]
    rfl
  · rw [hy]
    rfl

/-- `ToFlatMap(FromFlatMap(m)) = m`, for each order of both loops. -/
def FlatAgain (m : FlatMap π) : Prop :=
  ∀ ks, m.Order ks → ∃ d h', fromFlatMap m.root ([], m.heap) ks = some (d, h') ∧
    ∀ n : Dir Name π, All Distinct (.node n) → look d = lift (look n) →
      ∀ key, ((toFlatMap id n).lookup key).map Val.prim = m.heap.obj m.root key

def plainEntries (m : FlatMap π) : List (List Name × π) :=
  m.keys.dedup.filterMap fun key =>
    match m.heap.obj m.root key with
    | some (.prim c) => some (segments key, c)
    | _ => none

theorem mem_plainEntries :
    (p, c) ∈ plainEntries m ↔ ∃ key, m.heap.obj m.root key = some (.prim c) ∧ segments key = p := by
  unfold plainEntries
  rw [List.mem_filterMap]
  constructor
  · rintro ⟨key, -, heq⟩
    split at heq
    · rename_i c' hobj
      cases heq
      exact ⟨key, hobj, rfl⟩
    · cases heq
  · rintro ⟨key, hobj, rfl⟩
    exact ⟨key, FlatMap.mem_of_order m.order_dedup hobj, by rw [hobj]⟩

theorem nodup_plainEntries (hplain : m.Plain) : ((plainEntries m).map Prod.fst).Nodup := by
  have hfst : (plainEntries m).map Prod.fst =
      (entries m.heap m.root m.keys.dedup).map Prod.fst := by
    simp only [plainEntries, entries, List.map_filterMap]
    refine List.filterMap_congr fun key _ => ?_
    cases hobj : m.heap.obj m.root key with
    | none => rfl
    | some v =>
      obtain ⟨c, rfl⟩ := hplain key v hobj
      rfl
  rw [hfst]
  exact nodup_entries m.order_dedup.1

/-- The result is a nested map, whose values are those of the flat one. -/
theorem exists_shown (hplain : m.Plain) (hfree : m.PrefixFree)
    (hspans : Layout.Spans (look d) fun p v => ∃ key, m.heap.obj m.root key = some v ∧
    segments key = p) :
    ∃ n : Dir Name π, All Distinct (.node n) ∧ look d = lift (look n) := by
  have hne : ∀ e ∈ plainEntries m, e.1 ≠ [] := by
    rintro ⟨p, c⟩ he
    obtain ⟨key, -, rfl⟩ := mem_plainEntries.mp he
    exact segments_ne_nil key
  have hapart : ∀ e ∈ plainEntries m, ∀ f ∈ plainEntries m, ¬Below e.1 f.1 := by
    rintro ⟨p, c⟩ he ⟨q, c'⟩ hf
    obtain ⟨x, hx, rfl⟩ := mem_plainEntries.mp he
    obtain ⟨y, hy, rfl⟩ := mem_plainEntries.mp hf
    exact hfree.apart hx hy
  obtain ⟨n, hn, hlook⟩ := exists_look_eq (plainEntries m) hne
  have hlift := spans_lift (Layout.spans_foldl_put hapart (nodup_plainEntries hplain) hne)
  rw [← hlook] at hlift
  refine ⟨n, hn, hspans.unique ?_⟩
  convert hlift using 3 with p v
  simp only [mem_plainEntries]
  constructor
  · rintro ⟨key, hobj, hp⟩
    obtain ⟨c, rfl⟩ := hplain key v hobj
    exact ⟨c, rfl, key, hobj, hp⟩
  · rintro ⟨c, rfl, hc⟩
    exact hc

theorem look_shown (hspans : Layout.Spans (look d) fun p v => ∃ key, m.heap.obj m.root key =
    some v ∧ segments key = p)
    (hshow : look d = lift (look n)) :
    look n p = some (.leaf c) ↔ ∃ key, m.heap.obj m.root key = some (.prim c) ∧
      segments key = p := by
  refine Iff.trans ?_ (hspans.1 p (.prim c))
  rw [hshow, lift_eq_leaf]
  simp

theorem flatAgain_iff (hplain : m.Plain) (hfree : m.PrefixFree) :
    FlatAgain m ↔ ∀ key ∈ m.keys, key.bytes.head? ≠ some dot := by
  constructor
  · intro hagain key hkey hhead
    obtain ⟨d, h', hrun, hflat⟩ := hagain _ m.order_dedup
    obtain ⟨d', hrun', hspans⟩ :=
      spans_fromFlatMap (settles_of_plain hplain) (fun _ _ _ _ => hfree.apart) m.order_dedup
    cases hrun.symm.trans hrun'
    obtain ⟨n, hn, hshow⟩ := exists_shown hplain hfree hspans
    obtain ⟨v, hobj⟩ := Option.isSome_iff_exists.mp ((m.mem_keys key).mp hkey)
    obtain ⟨c, hc, -⟩ := Option.map_eq_some_iff.mp ((hflat n hn hshow key).trans hobj)
    obtain ⟨p, hleaf, rfl⟩ := exists_path_of_lookup hn hc
    obtain ⟨q, -, rfl⟩ := (look_shown hspans hshow).mp hleaf
    exact head_keyFrom (noDots_segments q) hhead
  · intro hhead ks ho
    obtain ⟨d, hrun, hspans⟩ :=
      spans_fromFlatMap (settles_of_plain hplain) (fun _ _ _ _ => hfree.apart) ho
    refine ⟨d, m.heap, hrun, fun n hn hshow key => ?_⟩
    have hkey : ∀ x v, m.heap.obj m.root x = some v → keyFrom ⟨[]⟩ (segments x) = x := by
      intro x v hx
      exact keyFrom_segments (hhead x ((m.mem_keys x).mpr (by rw [hx]; rfl)))
    cases hobj : m.heap.obj m.root key with
    | some v =>
      obtain ⟨c, rfl⟩ := hplain key v hobj
      have hlookup := lookup_toFlatMap hn ((look_shown hspans hshow).mpr ⟨key, hobj, rfl⟩) (by
        intro q u hq heq
        obtain ⟨x, hx, rfl⟩ := (look_shown hspans hshow).mp hq
        rw [hkey x _ hx, hkey key _ hobj] at heq
        rw [heq])
      rw [hkey key _ hobj] at hlookup
      rw [hlookup]
      rfl
    | none =>
      cases hlookup : (toFlatMap id n).lookup key with
      | none => rfl
      | some c =>
        obtain ⟨p, hleaf, rfl⟩ := exists_path_of_lookup hn hlookup
        obtain ⟨x, hx, rfl⟩ := (look_shown hspans hshow).mp hleaf
        rw [hkey x _ hx, hx] at hobj
        cases hobj

/-- A nested map whose values are no maps, without empty maps in it and without dots in its keys. -/
structure Nested (π : Type) where
  dir : Dir Name π
  distinct : Distinct dir
  full : ∀ e ∈ dir, All (fun d => Distinct d ∧ d ≠ []) e.2
  noDots : ∀ p, (look dir p).isSome → NoDots p

theorem Nested.all_distinct (n : Nested π) : All Distinct (.node n.dir) :=
  .node n.distinct fun e he => (n.full e he).imp fun _ h => h.1

def FlatMap.ofEntries (es : List (Name × π)) : FlatMap π where
  heap := ⟨fun a key => if a = 0 then (es.lookup key).map .prim else none, 1⟩
  root := 0
  keys := es.map Prod.fst
  root_lt := Nat.one_pos
  mem_keys key := by
    dsimp only
    rw [if_pos rfl, Option.isSome_map, Assoc.lookup_isSome]
  closed a _ s b hobj := by
    dsimp only at hobj
    split at hobj
    · obtain ⟨c, -, hc⟩ := Option.map_eq_some_iff.mp hobj
      cases hc
    · cases hobj

theorem plain_ofEntries (es : List (Name × π)) : (FlatMap.ofEntries es).Plain := by
  intro key v hobj
  obtain ⟨c, -, hc⟩ := Option.map_eq_some_iff.mp hobj
  exact ⟨c, hc.symm⟩

/-- `FromFlatMap(ToFlatMap(n)) = n`, for each order of the visits. -/
def NestedAgain (n : Nested π) : Prop :=
  ∀ ks, (FlatMap.ofEntries (toFlatMap id n.dir)).Order ks →
    ∃ d h', fromFlatMap 0 ([], (FlatMap.ofEntries (toFlatMap id n.dir)).heap) ks = some (d, h') ∧
      look d = lift (look n.dir)

theorem obj_ofEntries {es : List (Name × π)} :
    (FlatMap.ofEntries es).heap.obj 0 k = some (.prim c) ↔ es.lookup k = some c := by
  show (es.lookup k).map Val.prim = some (.prim c) ↔ _
  simp [Option.map_eq_some_iff]

namespace Nested

variable {n : Nested π}

theorem segments_of_leaf (htop : ∀ sub, n.dir.lookup ⟨[]⟩ ≠ some (.node sub))
    (hleaf : look n.dir p = some (.leaf c)) :
    segments (keyFrom ⟨[]⟩ p) = p := by
  cases p with
  | nil => cases hleaf
  | cons s p =>
    apply segments_keyFrom (n.noDots _ (by rw [hleaf]; rfl))
    by_contra hnot
    obtain ⟨hs, hp⟩ := not_or.mp hnot
    obtain ⟨bytes⟩ := s
    obtain rfl : bytes = [] := not_not.mp hs
    have hbelow : Below [⟨[]⟩] (⟨[]⟩ :: p) :=
      ⟨List.prefix_append [⟨[]⟩] p, by simpa using Ne.symm hp⟩
    have hdir := look_above (by rw [hleaf]; rfl) hbelow
    cases hsub : n.dir.lookup ⟨[]⟩ with
    | none => simp [look, hsub] at hdir
    | some x =>
      cases x with
      | leaf v => simp [look, hsub] at hdir
      | node sub => exact htop sub hsub

/-- The entries of the flat map are then the values of the nested one. -/
theorem exists_key_iff (htop : ∀ sub, n.dir.lookup ⟨[]⟩ ≠ some (.node sub)) :
    (∃ key, (FlatMap.ofEntries (toFlatMap id n.dir)).heap.obj 0 key = some v ∧ segments key = p) ↔
      ∃ c, v = .prim c ∧ look n.dir p = some (.leaf c) := by
  constructor
  · rintro ⟨key, hkey, rfl⟩
    obtain ⟨c, rfl⟩ := plain_ofEntries _ key v hkey
    obtain ⟨p, hleaf, rfl⟩ := exists_path_of_lookup n.all_distinct (obj_ofEntries.mp hkey)
    exact ⟨c, rfl, by rw [segments_of_leaf htop hleaf, hleaf]⟩
  · rintro ⟨c, rfl, hleaf⟩
    refine ⟨keyFrom ⟨[]⟩ p, obj_ofEntries.mpr (lookup_toFlatMap n.all_distinct hleaf ?_),
      segments_of_leaf htop hleaf⟩
    intro q u hq heq
    rw [← segments_of_leaf htop hq, heq, segments_of_leaf htop hleaf]

theorem not_below_key {key : Name}
    (hkey : (FlatMap.ofEntries (toFlatMap id n.dir)).heap.obj 0 key = some v) :
    ¬Below [⟨[]⟩] (segments key) := by
  rintro ⟨⟨r, hr⟩, hne⟩
  obtain ⟨c, rfl⟩ := plain_ofEntries _ key v hkey
  obtain ⟨p, hleaf, rfl⟩ := exists_path_of_lookup n.all_distinct (obj_ofEntries.mp hkey)
  apply head_keyFrom (n.noDots p (by rw [hleaf]; rfl))
  obtain ⟨s, t, hseg, hbytes⟩ := exists_segments (keyFrom ⟨[]⟩ p)
  rw [hseg] at hr hne
  cases hr
  cases r with
  | nil => exact absurd rfl hne
  | cons u r =>
    rw [hbytes]
    rfl

end Nested

theorem nestedAgain_iff (n : Nested π) :
    NestedAgain n ↔ ∀ sub, n.dir.lookup ⟨[]⟩ ≠ some (.node sub) := by
  have hsettles := settles_of_plain (plain_ofEntries (toFlatMap id n.dir))
  constructor
  · intro hagain sub hsub
    have ho := (FlatMap.ofEntries (toFlatMap id n.dir)).order_dedup
    obtain ⟨d, h', hrun, hlook⟩ := hagain _ ho
    obtain ⟨d', hrun', hlook'⟩ := fromFlatMap_of_settles hsettles ho
    cases hrun.symm.trans hrun'
    have hdir : look d [⟨[]⟩] = some .dir := by
      rw [hlook, lift_eq_dir]
      simp [look, hsub]
    rw [hlook'] at hdir
    rcases (Layout.foldl_put_origin _).2 hdir with hnil | ⟨⟨q, v⟩, hq, hb⟩
    · cases hnil
    · obtain ⟨key, -, hkey, rfl⟩ := mem_entries.mp hq
      exact Nested.not_below_key hkey hb
  · intro htop ks ho
    obtain ⟨d, hrun, hspans⟩ := spans_fromFlatMap hsettles (by
      intro x v y w hx hy hb
      obtain ⟨c, -, hc⟩ := (Nested.exists_key_iff htop).mp ⟨x, hx, rfl⟩
      obtain ⟨c', -, hc'⟩ := (Nested.exists_key_iff htop).mp ⟨y, hy, rfl⟩
      have hdir := look_above (by rw [hc']; rfl) hb
      rw [hc] at hdir
      cases hdir) ho
    refine ⟨d, _, hrun, hspans.unique ?_⟩
    have hlift := spans_lift (spans_look n.full)
    simp only [← Nested.exists_key_iff htop] at hlift
    exact hlift

/-- The order of the visits does not matter, and the input is left alone, exactly if no entry has to
be written into a map of the input. The two conversions undo each other except for empty names at
the front of a path, which `ToFlatMap` loses. -/
theorem flat_nested_maps (m : FlatMap π) (n : Nested π) :
    (OrderFree m ↔ Settles m) ∧
      (m.Plain → m.PrefixFree → (FlatAgain m ↔ ∀ key ∈ m.keys, key.bytes.head? ≠ some dot)) ∧
      (NestedAgain n ↔ ∀ sub, n.dir.lookup ⟨[]⟩ ≠ some (.node sub)) :=
  ⟨⟨settles_of_orderFree, orderFree_of_settles⟩, flatAgain_iff, nestedAgain_iff n⟩

/-- The map `{"a": {}, "a.x": 1}`. -/
def withEmptyMap : FlatMap Nat where
  heap :=
    { obj := fun a key =>
        if a = 0 then ([(⟨[97]⟩, .map 1), (⟨[97, dot, 120]⟩, .prim 1)] : List
          (Name × Val Nat)).lookup key else none
      next := 2 }
  root := 0
  keys := [⟨[97]⟩, ⟨[97, dot, 120]⟩]
  root_lt := by decide
  mem_keys key := by
    dsimp only
    rw [if_pos rfl, Assoc.lookup_isSome]
    rfl
  closed a _ s b hobj := by
    dsimp only at hobj
    split at hobj
    · have hmem := Assoc.mem_of_lookup hobj
      simp only [List.mem_cons, Prod.mk.injEq, Val.map.injEq, reduceCtorEq, and_false,
        List.not_mem_nil, or_false] at hmem
      rw [hmem.2]
      exact Nat.one_lt_two
    · cases hobj

/-- One order writes into the empty map, the other one replaces a new map by it; `{".a": 1}` comes
back as `{"a": 1}`, and `{"": {"a": 1}}` as `{"a": 1}`. -/
theorem empty_map_written :
    (fromFlatMap 0 ([], withEmptyMap.heap) [⟨[97]⟩, ⟨[97, dot, 120]⟩]).map
    (fun r => r.2.obj 1 ⟨[120]⟩) =
        some (some (.prim 1)) ∧
      (fromFlatMap 0 ([], withEmptyMap.heap) [⟨[97, dot, 120]⟩, ⟨[97]⟩]).map
      (fun r => r.2.obj 1 ⟨[120]⟩) = some none ∧
      withEmptyMap.heap.obj 1 ⟨[120]⟩ = none ∧
      (fromFlatMap 0 ([], (FlatMap.ofEntries [(⟨[dot, 97]⟩, 1)]).heap) [⟨[dot, 97]⟩]).map Prod.fst =
        some [(⟨[]⟩, .node [(⟨[97]⟩, .leaf (.prim 1))])] ∧
      toFlatMap id [(⟨[]⟩, .node [(⟨[97]⟩, .leaf 1)])] = [(⟨[97]⟩, 1)] ∧
      (fromFlatMap 0 ([], (FlatMap.ofEntries [(⟨[97]⟩, 1)]).heap) [⟨[97]⟩]).map
      (fun r => look r.1 [⟨[]⟩]) = some none :=
  ⟨rfl, rfl, rfl, rfl, rfl, rfl⟩

end GoAtlas.Maps
