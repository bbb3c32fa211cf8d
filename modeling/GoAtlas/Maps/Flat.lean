import GoAtlas.Lib.Bytes
import GoAtlas.Lib.PathTree
import GoAtlas.Lib.Split
import Mathlib.Data.List.Dedup

/-!
# Flat and nested maps

`FromFlatMap` and `ToFlatMap` of `core/collections/maps`. The values of a flat map may be maps,
which are shared and not copied: they are objects of a heap. The maps that `FromFlatMap` makes for
its result are reached on one path only, so they are a tree; where it goes on into a map of the
input, it makes them on the heap. The flat map itself is an object of the heap too, so it may be
among the maps that its values reach.

An iteration visits the entries of a map in any order. One that is added on the way may be visited
or not.
-/

namespace GoAtlas.Maps

open Lib Lib.PathTree

structure Name where
  bytes : Bytes
  deriving DecidableEq

def dot : UInt8 := 46

def segments (key : Name) : List Name := (splitAtSep dot key.bytes).map Name.mk

/-- A value: no map, a map, or the nil map. -/
inductive Val (π : Type) where
  | prim (p : π)
  | map (addr : Nat)
  | nilMap

/-- The maps of the input, and those made in them. -/
structure Heap (π : Type) where
  obj : Nat → Name → Option (Val π)
  next : Nat

variable {π : Type}

def Heap.set (h : Heap π) (a : Nat) (s : Name) (v : Val π) : Heap π :=
  { h with obj := Function.update h.obj a (Function.update (h.obj a) s (some v)) }

/-- A new map, under a name of another one. -/
def Heap.make (h : Heap π) (a : Nat) (s : Name) : Heap π :=
  { h.set a s (.map h.next) with
    obj := Function.update (h.set a s (.map h.next)).obj h.next fun _ => none
    next := h.next + 1 }

inductive Outcome (σ : Type) where
  | done (s : σ)
  | conflict
  | panic

def Outcome.map {σ τ : Type} (f : σ → τ) : Outcome σ → Outcome τ
  | .done s => .done (f s)
  | .conflict => .conflict
  | .panic => .panic

/-- The inner loop of `FromFlatMapWithHandler`, once it is in a map of the heap. A nil map can be
read, not written. -/
def Heap.insert (h : Heap π) : Val π → List Name → Val π → Outcome (Heap π)
  | .prim _, _, _ => .conflict
  | .nilMap, _, _ => .panic
  | .map _, [], _ => .done h
  | .map a, [s], w => .done (h.set a s w)
  | .map a, s :: t :: p, w =>
    match h.obj a s with
    | some v => h.insert v (t :: p) w
    | none => (h.make a s).insert (.map h.next) (t :: p) w

/-- The same loop in the maps of the result. -/
def insert (h : Heap π) : Dir Name (Val π) → List Name → Val π → Outcome (Dir Name (Val π) × Heap π)
  | d, [], _ => .done (d, h)
  | d, [s], w => .done (Assoc.put d s (.leaf w), h)
  | d, s :: t :: p, w =>
    match d.lookup s with
    | none => (insert h [] (t :: p) w).map fun r => (Assoc.put d s (.node r.1), r.2)
    | some (.leaf v) => (h.insert v (t :: p) w).map fun h => (d, h)
    | some (.node d') => (insert h d' (t :: p) w).map fun r => (Assoc.put d s (.node r.1), r.2)

/-- The loop over the map at `root`, for the keys in the order of the visit; a conflicting entry is
skipped. A key that is not in the map at its turn is not visited. No result is a panic. -/
def fromFlatMap (root : Nat) :
    Dir Name (Val π) × Heap π → List Name → Option (Dir Name (Val π) × Heap π)
  | r, [] => some r
  | r, key :: rest =>
    match r.2.obj root key with
    | none => fromFlatMap root r rest
    | some value =>
      match insert r.2 r.1 (segments key) value with
      | .done r' => fromFlatMap root r' rest
      | .conflict => fromFlatMap root r rest
      | .panic => none

/-- The key of a nested entry; `ToFlatMap` joins it to a prefix that is not empty. -/
def fullKey (pre key : Name) : Name :=
  if pre.bytes ≠ [] then ⟨pre.bytes ++ dot :: key.bytes⟩ else key

mutual

/-- The writes to the result, in their order. -/
def flattenNested (keyMapper : Name → Name) : List (Name × PathTree Name π) → Name → List (Name × π)
  | [], _ => []
  | e :: d, pre => flattenEntry keyMapper e pre ++ flattenNested keyMapper d pre

def flattenEntry (keyMapper : Name → Name) : Name × PathTree Name π → Name → List (Name × π)
  | (key, value), pre => flattenValue keyMapper value (fullKey pre (keyMapper key))

def flattenValue (keyMapper : Name → Name) : PathTree Name π → Name → List (Name × π)
  | .leaf v, full => [(full, v)]
  | .node d, full => flattenNested keyMapper d full

end

/-- A nested map as a flat one; its values are no maps. -/
def toFlatMap (keyMapper : Name → Name) (d : Dir Name π) : List (Name × π) :=
  (flattenNested keyMapper d ⟨[]⟩).foldl (fun out w => Assoc.put out w.1 w.2) []

structure FlatMap (π : Type) where
  heap : Heap π
  root : Nat
  keys : List Name
  root_lt : root < heap.next
  mem_keys : ∀ key, key ∈ keys ↔ (heap.obj root key).isSome
  closed : ∀ a < heap.next, ∀ s b, heap.obj a s = some (.map b) → b < heap.next

/-- An order of visits: each entry has its turn, and no key has two. -/
def FlatMap.Order (m : FlatMap π) (ks : List Name) : Prop := ks.Nodup ∧ m.keys ⊆ ks

/-! ## Insertion into the maps of the input -/

/-- A value under a path of a map is there already, or no map is in the way. Nothing has to be
written. -/
def Settled (h : Heap π) : Val π → List Name → Val π → Prop
  | .prim _, _, _ => True
  | .nilMap, _, _ => False
  | .map _, [], _ => True
  | .map a, [s], w => h.obj a s = some w
  | .map a, s :: t :: p, w =>
    match h.obj a s with
    | some v => Settled h v (t :: p) w
    | none => False

variable {h : Heap π} {a b : Nat} {s : Name} {v w : Val π} {p r : List Name} {d : Dir Name (Val π)}

theorem Heap.set_of_obj (hobj : h.obj a s = some w) : h.set a s w = h := by
  unfold Heap.set
  rw [← hobj, Function.update_eq_self, Function.update_eq_self]

theorem Heap.set_obj_self : (h.set a s w).obj a s = some w := by
  simp [Heap.set]

theorem Heap.make_obj_next : (h.make a s).obj h.next = fun _ => none := by
  simp [Heap.make]

theorem Heap.make_obj_of_ne (hb : b < h.next) (hne : b ≠ a) : (h.make a s).obj b = h.obj b := by
  simp [Heap.make, Heap.set, Function.update_of_ne (Nat.ne_of_lt hb), Function.update_of_ne hne]

theorem Heap.make_obj_self (ha : a < h.next) : (h.make a s).obj a s = some (.map h.next) := by
  simp [Heap.make, Heap.set, Function.update_of_ne (Nat.ne_of_lt ha)]

theorem Heap.insert_of_settled (hs : Settled h v p w) (hp : p ≠ []) :
    h.insert v p w = .done h ∨ h.insert v p w = .conflict := by
  induction p generalizing v with
  | nil => exact absurd rfl hp
  | cons s p ih =>
    cases v with
    | prim x => exact .inr rfl
    | nilMap => exact hs.elim
    | map a =>
      cases p with
      | nil =>
        left
        rw [Heap.insert, Heap.set_of_obj hs]
      | cons t p =>
        cases hobj : h.obj a s with
        | none => simp [Settled, hobj] at hs
        | some v =>
          rw [Heap.insert, hobj]
          simp only [Settled, hobj] at hs
          exact ih hs (List.cons_ne_nil t p)

theorem Heap.insert_fresh (hfresh : h.obj b = fun _ => none) (hb : b < h.next) :
    ∃ h', h.insert (.map b) p w = .done h' ∧ ∀ c < b, h'.obj c = h.obj c := by
  induction p generalizing h b with
  | nil => exact ⟨h, rfl, fun c _ => rfl⟩
  | cons s p ih =>
    cases p with
    | nil => exact ⟨_, rfl, fun c hc => Function.update_of_ne (Nat.ne_of_lt hc) _ _⟩
    | cons t p =>
      obtain ⟨h', hins, hobj⟩ := ih (h := h.make b s) Heap.make_obj_next (Nat.lt_succ_self h.next)
      refine ⟨h', ?_, fun c hc => ?_⟩
      · rw [Heap.insert, hfresh]
        exact hins
      · rw [hobj c (by omega), Heap.make_obj_of_ne (by omega) (by omega)]

/-- An insertion that writes nothing new to a map of the input had nothing to write. -/
theorem Heap.settled_of_insert (hclosed : ∀ a < h.next, ∀ s b, h.obj a s =
    some (.map b) → b < h.next)
    (hv : ∀ b, v = .map b → b < h.next) (hp : p ≠ []) (hpanic : h.insert v p w ≠ .panic)
    (hsame : ∀ h', h.insert v p w = .done h' → ∀ a < h.next, h'.obj a = h.obj a) :
    Settled h v p w := by
  induction p generalizing v with
  | nil => exact absurd rfl hp
  | cons s p ih =>
    cases v with
    | prim x => trivial
    | nilMap => exact absurd rfl hpanic
    | map a =>
      have ha := hv a rfl
      cases p with
      | nil =>
        show h.obj a s = some w
        rw [← hsame _ rfl a ha, Heap.set_obj_self]
      | cons t p =>
        unfold Settled
        rw [Heap.insert] at hpanic hsame
        cases hobj : h.obj a s with
        | some v =>
          rw [hobj] at hpanic hsame
          exact ih (fun b hb => hclosed a ha s b (hb ▸ hobj)) (List.cons_ne_nil t p) hpanic hsame
        | none =>
          rw [hobj] at hsame
          obtain ⟨h', hins, hold⟩ :=
            Heap.insert_fresh (h := h.make a s) (p := t :: p) (w := w) Heap.make_obj_next
              (Nat.lt_succ_self h.next)
          have hmade := congrFun (hsame h' hins a ha) s
          rw [hold a ha, Heap.make_obj_self ha, hobj] at hmade
          cases hmade

/-! ## Insertion into the result -/

theorem insert_of_settled (hp : p ≠ [])
    (hs : ∀ q v r, r ≠ [] → p = q ++ r → look d q = some (.leaf v) → Settled h v r w) :
    insert h d p w = .done (PathTree.put d p w, h) ∨
      (insert h d p w = .conflict ∧ Layout.Blocked (look d) p) := by
  induction p generalizing d with
  | nil => exact absurd rfl hp
  | cons s p ih =>
    cases p with
    | nil => exact .inl rfl
    | cons t p =>
      have hne : t :: p ≠ [] := List.cons_ne_nil t p
      rw [insert, PathTree.put]
      cases hlookup : d.lookup s with
      | none =>
        -- nothing stands in a new directory
        have hfree : ∀ q v r, r ≠ [] → t :: p = q ++ r → look ([] : Dir Name (Val π)) q =
          some (.leaf v) →
            Settled h v r w := by
          intro q v r _ _ hleaf
          cases q <;> cases hleaf
        rcases ih hne hfree with hins | ⟨-, q, v, -, hleaf⟩
        · left
          dsimp only
          rw [hins]
          rfl
        · cases q <;> cases hleaf
      | some n =>
        cases n with
        | leaf v =>
          have hlook : look d [s] = some (.leaf v) := by simp [look, hlookup]
          rcases Heap.insert_of_settled (hs [s] v (t :: p) hne rfl hlook) hne with hins | hins
          · left
            dsimp only
            rw [hins]
            rfl
          · right
            dsimp only
            rw [hins]
            exact ⟨rfl, [s], v, ⟨⟨t :: p, rfl⟩, by simp⟩, hlook⟩
        | node d' =>
          have hlook : ∀ q, look d (s :: q) = look d' q := fun q => by simp [look, hlookup]
          have hs' : ∀ q v r, r ≠ [] → t :: p = q ++ r → look d' q = some (.leaf v) →
            Settled h v r w :=
            fun q v r hr heq hleaf => hs (s :: q) v r hr (by rw [heq, List.cons_append])
              ((hlook q).trans hleaf)
          rcases ih hne hs' with hins | ⟨hins, q, v, hq, hleaf⟩
          · left
            dsimp only
            rw [hins]
            rfl
          · right
            dsimp only
            rw [hins]
            exact ⟨rfl, s :: q, v, Layout.below_cons_iff.mpr hq, (hlook q).trans hleaf⟩

theorem insert_at_leaf (hleaf : look d p = some (.leaf v)) (hr : r ≠ []) :
    ∃ d', look d' = look d ∧ insert h d (p ++ r) w = (h.insert v r w).map fun h => (d', h) := by
  induction p generalizing d with
  | nil => cases hleaf
  | cons s p ih =>
    obtain ⟨t, q, htq⟩ := List.exists_cons_of_ne_nil (l := p ++ r) (by simp [hr])
    rw [List.cons_append, htq, insert]
    unfold look at hleaf
    split at hleaf
    · cases hleaf
    · rename_i u hlookup
      split at hleaf
      · rename_i hnil
        cases hleaf
        rw [hnil, List.nil_append] at htq
        rw [hlookup, htq]
        exact ⟨d, rfl, rfl⟩
      · cases hleaf
    · rename_i d' hlookup
      obtain ⟨d'', hlook, hins⟩ := ih hleaf
      rw [htq] at hins
      refine ⟨Assoc.put d s (.node d''), ?_, ?_⟩
      · funext q
        cases q with
        | nil => rfl
        | cons t q =>
          by_cases hts : t = s
          · subst hts
            rw [look_put_same]
            simp [look, hlookup, hlook]
          · rw [look_put_other _ hts]
      · rw [hlookup]
        dsimp only
        rw [hins]
        cases h.insert v r w <;> rfl

/-! ## Runs -/

variable {root : Nat} {k x y : Name} {ks : List Name}

/-- The paths and values that the loop comes to, while the heap stays as it is. -/
def entries (h : Heap π) (root : Nat) (ks : List Name) : List (List Name × Val π) :=
  ks.filterMap fun key => (h.obj root key).map (Prod.mk (segments key))

theorem mem_entries : (p, v) ∈ entries h root ks ↔ ∃ key ∈ ks, h.obj root key = some v ∧
    segments key = p := by
  simp [entries]

theorem segments_ne_nil (key : Name) : segments key ≠ [] := by
  simp [segments, splitAtSep_ne_nil]

theorem segments_injective : Function.Injective segments := by
  intro x y heq
  have hsplit : splitAtSep dot x.bytes = splitAtSep dot y.bytes :=
    List.map_injective_iff.mpr (fun _ _ => Name.mk.inj) heq
  obtain ⟨part, parts, hx⟩ := List.exists_cons_of_ne_nil (splitAtSep_ne_nil dot x.bytes)
  have hbytes := (eq_of_splitAtSep hx).trans (eq_of_splitAtSep (hsplit.symm.trans hx)).symm
  cases x
  cases y
  exact congrArg Name.mk hbytes

theorem nodup_entries (hnodup : ks.Nodup) : ((entries h root ks).map Prod.fst).Nodup := by
  have hfst : (entries h root ks).map Prod.fst =
      (ks.filter fun key => (h.obj root key).isSome).map segments := by
    unfold entries
    induction ks with
    | nil => rfl
    | cons key ks ih =>
      cases hobj : h.obj root key with
      | none => simp [hobj, ih hnodup.of_cons]
      | some v => simp [hobj, ih hnodup.of_cons]
  rw [hfst]
  exact (hnodup.filter _).map segments_injective

/-- Below a path with the value `v`, the entry of a key writes nothing. -/
def Late (h : Heap π) (p : List Name) (v : Val π) (key : Name) (w : Val π) : Prop :=
  ∀ r, r ≠ [] → segments key = p ++ r → Settled h v r w

theorem late_of_not_below (hbelow : ¬Below p (segments k)) : Late h p v k w := by
  intro r hr heq
  refine absurd ⟨⟨r, heq.symm⟩, ?_⟩ hbelow
  intro hp
  exact hr (by simpa [← hp] using heq)

/-- One visit, where nothing has to be written to the input. -/
theorem insert_of_late (hleaf : ∀ p v, look d p = some (.leaf v) → Late h p v k w) :
    (∃ d', insert h d (segments k) w = .done (d', h) ∧ look d' = Layout.put (look d)
    (segments k) w) ∨
      (insert h d (segments k) w = .conflict ∧ look d = Layout.put (look d) (segments k) w) := by
  rcases insert_of_settled (segments_ne_nil k) (fun q v r hr heq hq => hleaf q v hq r hr heq)
    with hins | ⟨hins, hb⟩
  · exact .inl ⟨_, hins, look_put (segments_ne_nil k)⟩
  · exact .inr ⟨hins, (Layout.put_of_blocked hb).symm⟩

theorem leaf_of_put {L : Layout Name (Val π)} {q : List Name} {u : Val π}
    (hleaf : Layout.put L p v q = some (.leaf u)) :
    (q = p ∧ u = v) ∨ L q = some (.leaf u) := by
  by_cases hb : Layout.Blocked L p
  · rw [Layout.put_of_blocked hb] at hleaf
    exact .inr hleaf
  · rcases (Layout.put_eq_leaf hb).mp hleaf with h | ⟨-, -, h⟩
    · exact .inl h
    · exact .inr h

/-- A run that has nothing to write to the input puts the entries into the result, one after
another. -/
theorem fromFlatMap_eq
    (hleaf : ∀ p v, look d p = some (.leaf v) → ∀ k ∈ ks, ∀ w, h.obj root k = some w →
    Late h p v k w)
    (hpair : ks.Pairwise fun x y => ∀ v w, h.obj root x = some v → h.obj root y = some w →
    Late h (segments x) v y w) :
    ∃ d', fromFlatMap root (d, h) ks = some (d', h) ∧
      look d' = (entries h root ks).foldl (fun L e => Layout.put L e.1 e.2) (look d) := by
  induction ks generalizing d with
  | nil => exact ⟨d, rfl, rfl⟩
  | cons k ks ih =>
    obtain ⟨hhead, htail⟩ := List.pairwise_cons.mp hpair
    cases hobj : h.obj root k with
    | none =>
      obtain ⟨d', hrun, hlook⟩ :=
        ih (fun p v hp x hx => hleaf p v hp x (List.mem_cons_of_mem k hx)) htail
      refine ⟨d', ?_, ?_⟩
      · rw [fromFlatMap, hobj]
        exact hrun
      · rw [hlook]
        simp [entries, hobj]
    | some w =>
      have hentries : entries h root (k :: ks) = (segments k, w) :: entries h root ks := by
        simp [entries, hobj]
      -- the leaves after the visit are those before it and the one that it put down
      have hnext : ∀ d₁, look d₁ = Layout.put (look d) (segments k) w →
        ∃ d', fromFlatMap root (d₁, h) ks = some (d', h) ∧
          look d' = (entries h root (k :: ks)).foldl (fun L e => Layout.put L e.1 e.2)
            (look d) := by
        intro d₁ hd₁
        obtain ⟨d', hrun, hlook⟩ := @ih d₁ (by
          intro p v hp x hx u hu
          rw [hd₁] at hp
          rcases leaf_of_put hp with ⟨rfl, rfl⟩ | hp
          · exact hhead x hx _ u hobj hu
          · exact hleaf p v hp x (List.mem_cons_of_mem k hx) u hu) htail
        exact ⟨d', hrun, by rw [hlook, hd₁, hentries, List.foldl_cons]⟩
      rw [fromFlatMap, hobj]
      dsimp only
      rcases insert_of_late fun p v hp => hleaf p v hp k List.mem_cons_self w hobj
        with ⟨d₁, hins, hd₁⟩ | ⟨hins, hd₁⟩
      · rw [hins]
        exact hnext d₁ hd₁
      · rw [hins]
        exact hnext d hd₁

theorem fromFlatMap_append (st : Dir Name (Val π) × Heap π) (l l' : List Name) :
    fromFlatMap root st (l ++ l') = (fromFlatMap root st l).bind fun st =>
      fromFlatMap root st l' := by
  induction l generalizing st with
  | nil => rfl
  | cons k l ih =>
    rw [List.cons_append, fromFlatMap, fromFlatMap]
    cases st.2.obj root k with
    | none => exact ih st
    | some v =>
      dsimp only
      cases insert st.2 st.1 (segments k) v with
      | done st' => exact ih st'
      | conflict => exact ih st
      | panic => rfl

/-! ## Independence of the order -/

variable {m : FlatMap π}

/-- For each order of the visits the result is the same, and every map of the input is as it was. -/
def OrderFree (m : FlatMap π) : Prop :=
  ∃ out : Layout Name (Val π), ∀ ks, m.Order ks → ∃ d h', fromFlatMap m.root ([], m.heap) ks =
    some (d, h') ∧
    look d = out ∧ ∀ a < m.heap.next, h'.obj a = m.heap.obj a

/-- Where a key goes on below another one, whose value is a map, its value is already there or
cannot be put there. -/
def Settles (m : FlatMap π) : Prop :=
  ∀ k q v w r, m.heap.obj m.root k = some v → m.heap.obj m.root q = some w →
    segments q = segments k ++ r → r ≠ [] →
    Settled m.heap v r w

theorem FlatMap.order_dedup (m : FlatMap π) : m.Order m.keys.dedup := by
  refine ⟨List.nodup_dedup m.keys, fun k hk => List.mem_dedup.mpr hk⟩

theorem FlatMap.mem_of_order {ks : List Name} (ho : m.Order ks)
    (hobj : m.heap.obj m.root k = some v) : k ∈ ks :=
  ho.2 ((m.mem_keys k).mpr (by rw [hobj]; rfl))

theorem perm_entries {ks ks' : List Name} (ho : m.Order ks) (ho' : m.Order ks') :
    (entries m.heap m.root ks).Perm (entries m.heap m.root ks') := by
  rw [List.perm_ext_iff_of_nodup (nodup_entries ho.1).of_map (nodup_entries ho'.1).of_map]
  rintro ⟨p, v⟩
  rw [mem_entries, mem_entries]
  constructor
  · rintro ⟨k, -, hobj, hp⟩
    exact ⟨k, FlatMap.mem_of_order ho' hobj, hobj, hp⟩
  · rintro ⟨k, -, hobj, hp⟩
    exact ⟨k, FlatMap.mem_of_order ho hobj, hobj, hp⟩

/-- The result of every order, as one layout. -/
theorem fromFlatMap_of_settles (hs : Settles m) {ks : List Name} (ho : m.Order ks) :
    ∃ d, fromFlatMap m.root ([], m.heap) ks = some (d, m.heap) ∧
      look d = (entries m.heap m.root m.keys.dedup).foldl (fun L e => Layout.put L e.1 e.2)
        Layout.root := by
  obtain ⟨d, hrun, hlook⟩ := @fromFlatMap_eq π m.heap [] m.root ks
    (fun p v hp => by cases p <;> cases hp)
    (List.pairwise_of_forall_mem_list fun x _ y _ v w hx hy r hr heq => hs x y v w r hx hy heq hr)
  refine ⟨d, hrun, ?_⟩
  rw [hlook, look_nil_dir]
  exact Layout.foldl_put_perm (perm_entries ho m.order_dedup) (nodup_entries ho.1) Layout.root

theorem orderFree_of_settles (hs : Settles m) : OrderFree m := by
  refine ⟨(entries m.heap m.root m.keys.dedup).foldl (fun L e => Layout.put L e.1 e.2) Layout.root,
    fun ks ho => ?_⟩
  obtain ⟨d, hrun, hlook⟩ := fromFlatMap_of_settles hs ho
  exact ⟨d, m.heap, hrun, hlook, fun _ _ => rfl⟩

theorem exists_sorted (l : List Name) :
    ∃ l' : List Name, l'.Perm l ∧ l'.Pairwise fun x y => ¬Below (segments x) (segments y) := by
  refine ⟨l.mergeSort fun x y => decide ((segments y).length ≤ (segments x).length),
    List.mergeSort_perm _ _, ?_⟩
  refine (List.pairwise_mergeSort ?_ ?_ l).imp ?_
  · intro x y z hxy hyz
    simp only [decide_eq_true_eq] at hxy hyz ⊢
    exact hyz.trans hxy
  · intro x y
    simp only [Bool.or_eq_true, decide_eq_true_eq]
    exact Nat.le_total _ _
  · intro x y hxy hb
    simp only [decide_eq_true_eq] at hxy
    exact hb.2 (hb.1.eq_of_length_le hxy)

/-- An order in which `k` comes after all that is below it, then `q`, and then nothing that is below
anything before. -/
theorem exists_order (hk : k ∈ m.keys) {q : Name} (hq : q ∈ m.keys)
    (hkq : Below (segments k) (segments q)) :
    ∃ l l', m.Order (l ++ [k] ++ q :: l') ∧
      (l ++ [k]).Pairwise (fun x y => ¬Below (segments x) (segments y)) ∧
      l'.Pairwise (fun x y => ¬Below (segments x) (segments y)) ∧
      (∀ x ∈ l, Below (segments k) (segments x)) ∧
      ∀ x ∈ l', ∀ y ∈ l ++ [k], ¬Below (segments y) (segments x) := by
  classical
  have hne : k ≠ q := fun heq => hkq.2 (by rw [heq])
  obtain ⟨rest, hperm, hsorted⟩ := exists_sorted (m.keys.dedup.filter fun x => x ≠ k ∧ x ≠ q)
  have hmem : ∀ x, x ∈ rest ↔ x ∈ m.keys ∧ x ≠ k ∧ x ≠ q := by simp [hperm.mem_iff]
  have hnodup : rest.Nodup := hperm.nodup_iff.mpr (m.keys.nodup_dedup.filter _)
  refine ⟨rest.filter fun x => Below (segments k) (segments x),
    rest.filter fun x => ¬Below (segments k) (segments x), ⟨?_, ?_⟩, ?_, hsorted.filter _, ?_, ?_⟩
  · have hmem' := fun x => (hmem x).mp
    rw [List.nodup_append, List.nodup_append]
    refine ⟨⟨hnodup.filter _, List.nodup_singleton k, ?_⟩, List.nodup_cons.mpr
      ⟨?_, hnodup.filter _⟩, ?_⟩
    · intro x hx y hy
      rw [List.mem_singleton.mp hy]
      exact (hmem' x (List.mem_filter.mp hx).1).2.1
    · intro hx
      exact (hmem' q (List.mem_filter.mp hx).1).2.2 rfl
    · intro x hx y hy heq
      subst heq
      rcases List.mem_append.mp hx with hx | hx
      · have hxr := List.mem_filter.mp hx
        rcases List.mem_cons.mp hy with rfl | hy
        · exact (hmem' _ hxr.1).2.2 rfl
        · exact of_decide_eq_true (List.mem_filter.mp hy).2 (of_decide_eq_true hxr.2)
      · obtain rfl := List.mem_singleton.mp hx
        rcases List.mem_cons.mp hy with hy | hy
        · exact hne hy
        · exact (hmem' _ (List.mem_filter.mp hy).1).2.1 rfl
  · intro x hx
    by_cases hxk : x = k
    · simp [hxk]
    · by_cases hxq : x = q
      · simp [hxq]
      · have hrest := (hmem x).mpr ⟨hx, hxk, hxq⟩
        by_cases hb : Below (segments k) (segments x) <;> simp [hrest, hb]
  · rw [List.pairwise_append]
    refine ⟨hsorted.filter _, List.pairwise_singleton _ k, ?_⟩
    intro x hx y hy hb
    rw [List.mem_singleton.mp hy] at hb
    have hkx : Below (segments k) (segments x) := of_decide_eq_true (List.mem_filter.mp hx).2
    exact hb.2 (hb.1.eq_of_length_le hkx.1.length_le)
  · intro x hx
    exact of_decide_eq_true (List.mem_filter.mp hx).2
  · intro x hx y hy hb
    have hkx : ¬Below (segments k) (segments x) := of_decide_eq_true (List.mem_filter.mp hx).2
    rcases List.mem_append.mp hy with hy | hy
    · have hky : Below (segments k) (segments y) := of_decide_eq_true (List.mem_filter.mp hy).2
      refine hkx ⟨hky.1.trans hb.1, fun heq => ?_⟩
      exact hky.2 (hky.1.eq_of_length_le (heq ▸ hb.1.length_le))
    · rw [List.mem_singleton.mp hy] at hb
      exact hkx hb

theorem look_last
    (hd : look d = (entries h root (ks ++ [k])).foldl (fun L e => Layout.put L e.1 e.2) Layout.root)
    (hobj : h.obj root k = some v) (hbelow : ∀ x ∈ ks, Below (segments k) (segments x)) :
    look d (segments k) = some (.leaf v) ∧
      ∀ p u, look d p = some (.leaf u) → ∃ x ∈ ks ++ [k], segments x = p := by
  have hlast : entries h root (ks ++ [k]) = entries h root ks ++ [(segments k, v)] := by
    simp [entries, hobj]
  constructor
  · rw [hd, hlast, List.foldl_append, List.foldl_cons, List.foldl_nil, Layout.put_apply, if_pos rfl]
    rintro ⟨p, u, hp, hleaf⟩
    obtain ⟨x, hx, -, rfl⟩ := mem_entries.mp ((Layout.foldl_put_origin _).1 u hleaf)
    exact hp.2 (hp.1.eq_of_length_le (hbelow x hx).1.length_le)
  · intro p u hleaf
    rw [hd] at hleaf
    obtain ⟨x, hx, -, hp⟩ := mem_entries.mp ((Layout.foldl_put_origin _).1 u hleaf)
    exact ⟨x, hx, hp⟩

theorem settles_of_orderFree (hfree : OrderFree m) : Settles m := by
  intro k q v w r hk hq heq hr
  obtain ⟨out, hall⟩ := hfree
  have hkq : Below (segments k) (segments q) :=
    ⟨⟨r, heq.symm⟩, fun hp => hr (by simpa [← hp] using heq)⟩
  obtain ⟨l, l', ho, hpair, hpair', hbelow, hlate⟩ :=
    exists_order ((m.mem_keys k).mpr (by rw [hk]; rfl)) ((m.mem_keys q).mpr (by rw [hq]; rfl)) hkq
  obtain ⟨d, h', hrun, -, hsame⟩ := hall _ ho
  -- up to `k` nothing of the input is written
  obtain ⟨d₁, hrun₁, hlook₁⟩ := @fromFlatMap_eq π m.heap [] m.root (l ++ [k])
    (fun p v hp => by cases p <;> cases hp) (hpair.imp fun hb v w _ _ => late_of_not_below hb)
  rw [look_nil_dir] at hlook₁
  obtain ⟨hleaf, horigin⟩ := look_last hlook₁ hk hbelow
  -- `q` comes to the value of `k`
  obtain ⟨d₂, hlook₂, hins⟩ := insert_at_leaf (h := m.heap) (w := w) hleaf hr
  rw [← heq] at hins
  rw [fromFlatMap_append, hrun₁, Option.bind_some, fromFlatMap, hq] at hrun
  dsimp only at hrun
  rw [hins] at hrun
  -- and after it nothing is written
  have hrest : ∀ h₂, fromFlatMap m.root (d₂, h₂) l' = some (d, h') → h' = h₂ := by
    intro h₂ hrun
    obtain ⟨d₃, hrun₃, -⟩ := @fromFlatMap_eq π h₂ d₂ m.root l' (by
      intro p u hp x hx _ _
      rw [hlook₂] at hp
      obtain ⟨y, hy, rfl⟩ := horigin p u hp
      exact late_of_not_below (hlate x hx y hy)) (hpair'.imp fun hb v w _ _ => late_of_not_below hb)
    cases hrun.symm.trans hrun₃
    rfl
  apply Heap.settled_of_insert m.closed (fun b hb => m.closed m.root m.root_lt k b (hb ▸ hk)) hr
  · intro hpanic
    rw [hpanic] at hrun
    cases hrun
  · intro h₂ hdone a ha
    rw [hdone] at hrun
    rw [← hrest h₂ hrun]
    exact hsame a ha

end GoAtlas.Maps
