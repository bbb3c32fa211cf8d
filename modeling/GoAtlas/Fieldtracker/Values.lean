import GoAtlas.Lib.Assoc
import GoAtlas.Lib.Bytes
import Mathlib.Data.List.Perm.Subperm

/-!
# Values as reflection sees them

The values that `reflect` walks over, as trees: there are no cycles, and a shared part is as good as
a copy of it. A struct type is known by a number, so struct types may be recursive; the number of
another composite type tells the defined types of one structure apart. The entries of a map are in
the order in which an iteration visits them.
-/

namespace GoAtlas.Fieldtracker

open Lib

inductive Ty where
  /-- A string, boolean or integer type. -/
  | prim (kind : Nat)
  /-- Another type whose values are compared as a whole. -/
  | other (kind : Nat)
  | ptr (id : Nat) (t : Ty)
  | slice (id : Nat) (t : Ty)
  | array (id len : Nat) (t : Ty)
  | map (id key : Nat) (t : Ty)
  | iface
  | struct (id : Nat)
  deriving DecidableEq

inductive Prim where
  | string (s : Bytes)
  | int (n : Int)
  | uint (n : Nat)
  | bool (b : Bool)
  deriving DecidableEq

inductive MapKey where
  | string (s : Bytes)
  | int (n : Int)
  | uint (n : Nat)
  | bool (b : Bool)
  /-- A key of another kind, with the name of its type. -/
  | other (id : Nat) (typ : Bytes)
  deriving DecidableEq

inductive Value where
  | prim (x : Prim)
  | other (x : Nat)
  | nilPtr
  | ptr (v : Value)
  /-- A slice or an array. -/
  | list (isNil : Bool) (elems : List Value)
  | map (isNil : Bool) (entries : List (MapKey × Value))
  | nilIface
  | iface (t : Ty) (v : Value)
  | struct (id : Nat) (fields : List Value)

/-- Induction over the values in a value. -/
theorem Value.induct {P : Value → Prop} (prim : ∀ x, P (.prim x)) (other : ∀ x, P (.other x))
    (nilPtr : P .nilPtr) (ptr : ∀ v, P v → P (.ptr v))
    (list : ∀ n vs, (∀ v ∈ vs, P v) → P (.list n vs))
    (map : ∀ n es, (∀ e ∈ es, P e.2) → P (.map n es)) (nilIface : P .nilIface)
    (iface : ∀ t v, P v → P (.iface t v)) (struct : ∀ i vs, (∀ v ∈ vs, P v) → P (.struct i vs))
    (v : Value) : P v :=
  @Value.rec P (fun vs => ∀ v ∈ vs, P v) (fun es => ∀ e ∈ es, P e.2) (fun e => P e.2)
    prim other nilPtr ptr list map nilIface iface struct
    (fun _ h => nomatch h) (fun _ _ hv hvs => List.forall_mem_cons.mpr ⟨hv, hvs⟩)
    (fun _ h => nomatch h) (fun _ _ he hes => List.forall_mem_cons.mpr ⟨he, hes⟩)
    (fun _ _ hv => hv) v

structure Field where
  name : List Nat
  /-- What the tracker's tag says. -/
  tag : Bytes
  isExported : Bool
  anonymous : Bool
  typ : Ty

mutual

/-- A value of a type; `T` has the fields of the struct types. -/
inductive Typed (T : Nat → List Field) : Value → Ty → Prop where
  | prim (x : Prim) (k : Nat) : Typed T (.prim x) (.prim k)
  | other (x k : Nat) : Typed T (.other x) (.other k)
  | nilPtr (i : Nat) (t : Ty) : Typed T .nilPtr (.ptr i t)
  | ptr {v : Value} {t : Ty} (i : Nat) (hv : Typed T v t) : Typed T (.ptr v) (.ptr i t)
  | slice {n : Bool} {vs : List Value} {t : Ty} (i : Nat) (hvs : ∀ v ∈ vs, Typed T v t) :
      Typed T (.list n vs) (.slice i t)
  | array {vs : List Value} {t : Ty} (i : Nat) (hvs : ∀ v ∈ vs, Typed T v t) :
      Typed T (.list false vs) (.array i vs.length t)
  | map {n : Bool} {es : List (MapKey × Value)} {t : Ty} (i k : Nat)
      (hnodup : (es.map Prod.fst).Nodup) (hes : ∀ e ∈ es, Typed T e.2 t) :
      Typed T (.map n es) (.map i k t)
  | nilIface : Typed T .nilIface .iface
  | iface {v : Value} {t : Ty} (hv : Typed T v t) : Typed T (.iface t v) .iface
  | struct {i : Nat} {vs : List Value} (hvs : TypedFields T vs (T i)) :
      Typed T (.struct i vs) (.struct i)

inductive TypedFields (T : Nat → List Field) : List Value → List Field → Prop where
  | nil : TypedFields T [] []
  | cons {v : Value} {f : Field} {vs : List Value} {fs : List Field} (hv : Typed T v f.typ)
    (hvs : TypedFields T vs fs) :
      TypedFields T (v :: vs) (f :: fs)

end

/-! ## Two values of one type -/

section

variable {T : Nat → List Field} {R : ∀ v w t, Typed T v t → Typed T w t → Prop}

/-- A relation between the values of two structs, field by field. -/
inductive FieldPairs (T : Nat → List Field) (R : ∀ v w t, Typed T v t → Typed T w t → Prop) :
    List Value → List Value → List Field → Prop where
  | nil : FieldPairs T R [] [] []
  | cons {v w : Value} {f : Field} {vs ws : List Value} {fields : List Field} (hv : Typed T v f.typ)
      (hw : Typed T w f.typ) (h : R v w f.typ hv hw) (hrest : FieldPairs T R vs ws fields) :
      FieldPairs T R (v :: vs) (w :: ws) (f :: fields)

theorem FieldPairs.of_typed {vs ws : List Value} {fields : List Field}
    (h : ∀ v ∈ vs, ∀ w t hv hw, R v w t hv hw) (hvs : TypedFields T vs fields)
    (hws : TypedFields T ws fields) : FieldPairs T R vs ws fields := by
  induction vs generalizing ws fields with
  | nil =>
    cases hvs
    cases hws
    exact .nil
  | cons v vs ih =>
    rw [List.forall_mem_cons] at h
    cases hvs with
    | cons hv hvs =>
      cases hws with
      | cons hw hws => exact .cons hv hw (h.1 _ _ hv hw) (ih h.2 hvs hws)

theorem pairs_cons {P : Value → Value → Prop} {v w : Value} {vs ws : List Value}
    (h : ∀ v' ∈ v :: vs, ∀ w' ∈ w :: ws, P v' w') : P v w ∧ ∀ v' ∈ vs, ∀ w' ∈ ws, P v' w' :=
  ⟨h v List.mem_cons_self w List.mem_cons_self, fun v' hv w' hw =>
    h v' (List.mem_cons_of_mem _ hv) w' (List.mem_cons_of_mem _ hw)⟩

theorem Typed.of_array {w : Value} {k n : Nat} {t : Ty} (hw : Typed T w (.array k n t)) :
    ∃ ws, w = .list false ws ∧ ∀ w ∈ ws, Typed T w t := by
  cases hw with
  | array _ hws => exact ⟨_, rfl, hws⟩

/-- Induction over two values of one type. -/
theorem Typed.pairs (prim : ∀ x y k hv hw, R (.prim x) (.prim y) (.prim k) hv hw)
    (other : ∀ x y k hv hw, R (.other x) (.other y) (.other k) hv hw)
    (nilPtr : ∀ k t hv hw, R .nilPtr .nilPtr (.ptr k t) hv hw)
    (nilPtrLeft : ∀ w k t hv hw, R .nilPtr (.ptr w) (.ptr k t) hv hw)
    (nilPtrRight : ∀ v k t hv hw, R (.ptr v) .nilPtr (.ptr k t) hv hw)
    (ptr : ∀ v w k t hv hw hv' hw', R v w t hv' hw' → R (.ptr v) (.ptr w) (.ptr k t) hv hw)
    (list : ∀ n m vs ws t u hv hw, (∃ k, u = .slice k t ∨ u = .array k vs.length t) →
      ∀ (hvs : ∀ v ∈ vs, Typed T v t) (hws : ∀ w ∈ ws, Typed T w t),
      (∀ v hv w hw, R v w t (hvs v hv) (hws w hw)) → R (.list n vs) (.list m ws) u hv hw)
    (map : ∀ n m es fs k key t hv hw, (es.map Prod.fst).Nodup → (fs.map Prod.fst).Nodup →
      ∀ (hes : ∀ e ∈ es, Typed T e.2 t) (hfs : ∀ f ∈ fs, Typed T f.2 t),
      (∀ e he f hf, R e.2 f.2 t (hes e he) (hfs f hf)) →
      R (.map n es) (.map m fs) (.map k key t) hv hw)
    (nilIface : ∀ hv hw, R .nilIface .nilIface .iface hv hw)
    (nilIfaceLeft : ∀ u w hv hw, R .nilIface (.iface u w) .iface hv hw)
    (nilIfaceRight : ∀ t v hv hw, R (.iface t v) .nilIface .iface hv hw)
    (iface : ∀ t v w hv hw hv' hw', R v w t hv' hw' → R (.iface t v) (.iface t w) .iface hv hw)
    (ifaceOther : ∀ t v u w hv hw, t ≠ u → R (.iface t v) (.iface u w) .iface hv hw)
    (struct : ∀ i vs ws hv hw, FieldPairs T R vs ws (T i) →
      R (.struct i vs) (.struct i ws) (.struct i) hv hw)
    (v w : Value) (t : Ty) (hv : Typed T v t) (hw : Typed T w t) : R v w t hv hw := by
  induction v using Value.induct generalizing w t with
  | prim x =>
    cases hv
    cases hw
    exact prim _ _ _ _ _
  | other x =>
    cases hv
    cases hw
    exact other _ _ _ _ _
  | nilPtr =>
    cases hv
    cases hw
    · exact nilPtr _ _ _ _
    · exact nilPtrLeft _ _ _ _ _
  | ptr v ih =>
    cases hv with
    | ptr _ hv =>
      cases hw with
      | nilPtr => exact nilPtrRight _ _ _ _ _
      | ptr _ hw => exact ptr _ _ _ _ _ _ hv hw (ih _ _ hv hw)
  | list n vs ih =>
    cases hv with
    | slice k hvs =>
      cases hw with
      | slice _ hws =>
        exact list _ _ _ _ _ _ _ _ ⟨k, .inl rfl⟩ hvs hws fun v hv w hw => ih v hv w _ _ _
    | array k hvs =>
      obtain ⟨ws, rfl, hws⟩ := hw.of_array
      exact list _ _ _ _ _ _ _ _ ⟨k, .inr rfl⟩ hvs hws fun v hv w hw => ih v hv w _ _ _
  | map n es ih =>
    cases hv with
    | map _ _ hes hest =>
      cases hw with
      | map _ _ hfs hfst =>
        exact map _ _ _ _ _ _ _ _ _ hes hfs hest hfst fun e he f hf => ih e he f.2 _ _ _
  | nilIface =>
    cases hv
    cases hw
    · exact nilIface _ _
    · exact nilIfaceLeft _ _ _ _
  | iface u v ih =>
    cases hv with
    | iface hv =>
      cases hw with
      | nilIface => exact nilIfaceRight _ _ _ _
      | @iface w u' hw =>
        by_cases hu : u = u'
        · subst hu
          exact iface _ _ _ _ _ hv hw (ih _ _ hv hw)
        · exact ifaceOther _ _ _ _ _ _ hu
  | struct i vs ih =>
    cases hv with
    | struct hvs =>
      cases hw with
      | struct hws => exact struct _ _ _ _ _ (.of_typed ih hvs hws)

end

/-! ## Equal values -/

mutual

/-- `reflect.DeepEqual`, which tells nil and empty collections apart and looks at every field. -/
def deepEqual : Value → Value → Bool
  | .prim x, .prim y => x = y
  | .other x, .other y => x = y
  | .nilPtr, .nilPtr => true
  | .ptr v, .ptr w => deepEqual v w
  | .list n vs, .list m ws => n == m && deepEqualList vs ws
  | .map n es, .map m fs => n == m && es.length == fs.length && deepEqualEntries es fs
  | .nilIface, .nilIface => true
  | .iface t v, .iface u w => t = u && deepEqual v w
  | .struct i vs, .struct j ws => i == j && deepEqualList vs ws
  | _, _ => false
termination_by structural v => v

def deepEqualList : List Value → List Value → Bool
  | [], [] => true
  | v :: vs, w :: ws => deepEqual v w && deepEqualList vs ws
  | _, _ => false
termination_by structural vs => vs

def deepEqualEntries : List (MapKey × Value) → List (MapKey × Value) → Bool
  | [], _ => true
  | e :: es, fs => deepEqualEntry e fs && deepEqualEntries es fs
termination_by structural es => es

def deepEqualEntry : MapKey × Value → List (MapKey × Value) → Bool
  | (k, v), fs =>
    match fs.lookup k with
    | some w => deepEqual v w
    | none => false
termination_by structural e => e

end

variable {T : Nat → List Field} {v w : Value} {t : Ty} {vs ws : List Value}
    {es fs : List (MapKey × Value)}

theorem deepEqualList_comm (h : ∀ v ∈ vs, ∀ w ∈ ws, deepEqual v w = deepEqual w v) :
    deepEqualList vs ws = deepEqualList ws vs := by
  induction vs generalizing ws with
  | nil => cases ws <;> simp [deepEqualList]
  | cons v vs ih =>
    cases ws with
    | nil => simp [deepEqualList]
    | cons w ws =>
      obtain ⟨hvw, hrest⟩ := pairs_cons h
      rw [deepEqualList, deepEqualList, hvw, ih hrest]

theorem deepEqualFields_comm {fields : List Field}
    (h : FieldPairs T (fun v w _ _ _ => deepEqual v w = deepEqual w v) vs ws fields) :
    deepEqualList vs ws = deepEqualList ws vs := by
  induction h with
  | nil => rfl
  | cons hv hw h hrest ih => rw [deepEqualList, deepEqualList, h, ih]

theorem deepEqualEntries_iff : deepEqualEntries es fs = true ↔
    ∀ k v, (k, v) ∈ es → ∃ w, fs.lookup k = some w ∧ deepEqual v w = true := by
  induction es with
  | nil => simp [deepEqualEntries]
  | cons e es ih =>
    obtain ⟨k, v⟩ := e
    rw [deepEqualEntries, Bool.and_eq_true, ih, deepEqualEntry]
    constructor
    · rintro ⟨hv, hes⟩ k' v' hmem
      rcases List.mem_cons.mp hmem with heq | hmem
      · cases heq
        split at hv
        · exact ⟨_, ‹_›, hv⟩
        · cases hv
      · exact hes k' v' hmem
    · intro h
      refine ⟨?_, fun k' v' hmem => h k' v' (List.mem_cons_of_mem _ hmem)⟩
      obtain ⟨w, hw, hvw⟩ := h k v List.mem_cons_self
      rw [hw]
      exact hvw

theorem exists_lookup_of_subset (hes : (es.map Prod.fst).Nodup)
    (hlen : es.length = fs.length) (hsub : ∀ k v, (k, v) ∈ es → ∃ w, fs.lookup k = some w)
    {k : MapKey} (hk : k ∈ fs.map Prod.fst) : ∃ v, (k, v) ∈ es := by
  have hsubset : es.map Prod.fst ⊆ fs.map Prod.fst := by
    intro x hx
    obtain ⟨⟨x', v⟩, hmem, rfl⟩ := List.mem_map.mp hx
    obtain ⟨w, hw⟩ := hsub x' v hmem
    exact List.mem_map.mpr ⟨(x', w), Assoc.mem_of_lookup hw, rfl⟩
  have hperm : (es.map Prod.fst).Perm (fs.map Prod.fst) :=
    (hes.subperm hsubset).perm_of_length_le (by simp [hlen])
  obtain ⟨⟨k', v⟩, hmem, rfl⟩ := List.mem_map.mp (hperm.mem_iff.mpr hk)
  exact ⟨v, hmem⟩

theorem deepEqualEntries_of_symm (h : ∀ e ∈ es, ∀ f ∈ fs, deepEqual e.2 f.2 = deepEqual f.2 e.2)
    (hes : (es.map Prod.fst).Nodup) (hfs : (fs.map Prod.fst).Nodup) (hlen : es.length = fs.length)
    (heq : deepEqualEntries es fs = true) : deepEqualEntries fs es = true := by
  rw [deepEqualEntries_iff] at heq ⊢
  intro k w hmem
  have hsub : ∀ k v, (k, v) ∈ es → ∃ w, fs.lookup k = some w := fun k v hkv => by
    obtain ⟨w, hw, -⟩ := heq k v hkv
    exact ⟨w, hw⟩
  obtain ⟨v, hv⟩ := exists_lookup_of_subset hes hlen hsub (List.mem_map.mpr ⟨(k, w), hmem, rfl⟩)
  obtain ⟨w', hw', hvw⟩ := heq k v hv
  obtain rfl : w = w' :=
    Option.some.inj (((Assoc.lookup_eq_some_iff_mem hfs).mpr hmem).symm.trans hw')
  refine ⟨v, (Assoc.lookup_eq_some_iff_mem hes).mpr hv, ?_⟩
  rw [← h (k, v) hv (k, w) hmem]
  exact hvw

theorem deepEqual_comm (hv : Typed T v t) (hw : Typed T w t) : deepEqual v w = deepEqual w v := by
  induction v, w, t, hv, hw using Typed.pairs with
  | ptr v w k t hv hw _ _ ih => exact ih
  | list n m vs ws t u hv hw hu hvs hws ih =>
    rw [deepEqual, deepEqual, deepEqualList_comm ih, Bool.beq_comm]
  | map n m es fs k key t hv hw hes hfs hest hfst ih =>
    have hiff : es.length = fs.length →
        (deepEqualEntries es fs = true ↔ deepEqualEntries fs es = true) := fun hlen =>
      ⟨deepEqualEntries_of_symm ih hes hfs hlen,
        deepEqualEntries_of_symm (fun f hf e he => (ih e he f hf).symm) hfs hes hlen.symm⟩
    rw [Bool.eq_iff_iff, deepEqual, deepEqual]
    simp only [Bool.and_eq_true, beq_iff_eq]
    constructor
    · rintro ⟨⟨rfl, hlen⟩, heq⟩
      exact ⟨⟨rfl, hlen.symm⟩, (hiff hlen).mp heq⟩
    · rintro ⟨⟨rfl, hlen⟩, heq⟩
      exact ⟨⟨rfl, hlen.symm⟩, (hiff hlen.symm).mpr heq⟩
  | iface t v w hv hw _ _ ih => simp [deepEqual, ih]
  | ifaceOther t v u w hv hw hu => simp [deepEqual, hu, Ne.symm hu]
  | struct i vs ws hv hw h => rw [deepEqual, deepEqual, deepEqualFields_comm h]
  | _ => simp [deepEqual, eq_comm]

theorem deepEqualList_refl (h : ∀ v ∈ vs, deepEqual v v = true) : deepEqualList vs vs = true := by
  induction vs with
  | nil => rfl
  | cons v vs ih =>
    rw [List.forall_mem_cons] at h
    rw [deepEqualList, h.1, ih h.2, Bool.and_self]

theorem TypedFields.exists_typed {fields : List Field} (hvs : TypedFields T vs fields) :
    ∀ v ∈ vs, ∃ t, Typed T v t := by
  induction vs generalizing fields with
  | nil => simp
  | cons v vs ih =>
    cases hvs with
    | cons hv hvs => exact List.forall_mem_cons.mpr ⟨⟨_, hv⟩, ih hvs⟩

theorem deepEqual_refl (hv : Typed T v t) : deepEqual v v = true := by
  induction v using Value.induct generalizing t with
  | ptr v ih =>
    cases hv with
    | ptr i hv => exact ih hv
  | list n vs ih =>
    have hvs : ∀ v ∈ vs, deepEqual v v = true := by
      cases hv with
      | slice i hvs => exact fun v hmem => ih v hmem (hvs v hmem)
      | array i hvs => exact fun v hmem => ih v hmem (hvs v hmem)
    rw [deepEqual, beq_self_eq_true, deepEqualList_refl hvs, Bool.and_self]
  | map n es ih =>
    cases hv with
    | map i k hnodup hes =>
      have hentries : deepEqualEntries es es = true := deepEqualEntries_iff.mpr fun k v hmem =>
        ⟨v, (Assoc.lookup_eq_some_iff_mem hnodup).mpr hmem, ih (k, v) hmem (hes _ hmem)⟩
      rw [deepEqual, beq_self_eq_true, beq_self_eq_true, hentries, Bool.and_self, Bool.and_self]
  | iface u v ih =>
    cases hv with
    | iface hv => simp [deepEqual, ih hv]
  | struct i vs ih =>
    cases hv with
    | struct hvs =>
      have hlist : deepEqualList vs vs = true := deepEqualList_refl fun v hmem => by
        obtain ⟨t, ht⟩ := hvs.exists_typed v hmem
        exact ih v hmem ht
      rw [deepEqual, beq_self_eq_true, hlist, Bool.and_self]
  | _ => simp [deepEqual]

end GoAtlas.Fieldtracker
