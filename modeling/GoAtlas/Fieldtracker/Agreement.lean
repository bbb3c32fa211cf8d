import GoAtlas.Fieldtracker.Reports

/-!
# Agreement, and the spots that the tracker misreads

Two values agree if they do so on every exported field that is not tagged, at every depth. The
tracker does not look at all of these fields, and it looks at some others. Where two values do not
agree at such a spot it can answer wrongly, and elsewhere it cannot.
-/

namespace GoAtlas.Fieldtracker

open Lib

/-! ## Agreement -/

/-- The field is to be left out. -/
def Field.tagged (f : Field) : Bool := f.tag = [dash]

/-- A struct type without exported and embedded fields: its values count as a whole. -/
def isOpaque (fields : List Field) : Bool := fields.all fun f => !f.isExported && !f.isEmbedded

section

variable (T : Nat → List Field)

/-- The values of the field have to agree. An unexported embedded struct stands for the fields that
it promotes. -/
def Field.counts (f : Field) : Bool :=
  !f.tagged && (f.isExported || f.isEmbedded && !isOpaque (f.flattened T))

mutual

def agree : Value → Value → Bool
  | .prim x, .prim y => x = y
  | .other x, .other y => x = y
  | .nilPtr, .nilPtr => true
  | .ptr v, .ptr w => agree v w
  | .list _ vs, .list _ ws => agreeList vs ws
  | .map _ es, .map _ fs => agreeEntries es fs && fs.all fun f => f.1 ∈ es.map Prod.fst
  | .nilIface, .nilIface => true
  | .iface t v, .iface u w => t = u && agree v w
  | .struct i vs, .struct _ ws =>
    if isOpaque (T i) then deepEqual (.struct i vs) (.struct i ws) else agreeFields vs ws (T i)
  | _, _ => false
termination_by structural v => v

def agreeFields : List Value → List Value → List Field → Bool
  | v :: vs, w :: ws, f :: fields => (!f.counts T || agree v w) && agreeFields vs ws fields
  | _, _, _ => true
termination_by structural vs => vs

def agreeList : List Value → List Value → Bool
  | [], [] => true
  | v :: vs, w :: ws => agree v w && agreeList vs ws
  | _, _ => false
termination_by structural vs => vs

def agreeEntries : List (MapKey × Value) → List (MapKey × Value) → Bool
  | [], _ => true
  | e :: es, fs => agreeEntry e fs && agreeEntries es fs
termination_by structural es => es

def agreeEntry : MapKey × Value → List (MapKey × Value) → Bool
  | (k, v), fs =>
    match fs.lookup k with
    | some w => agree v w
    | none => false
termination_by structural e => e

end

/-! ## The spots that are misread -/

variable (opts : Options)

mutual

/-- The two values have a spot that the tracker misreads. -/
def misread : Value → Value → Bool
  | .ptr v, .ptr w => misread v w
  | .list _ vs, .list _ ws => vs.length == ws.length && misreadItems vs ws
  | .map _ es, .map _ fs => misreadEntries es fs
  | .iface t v, .iface u w => t = u && misread v w
  | .struct i vs, .struct _ ws =>
    if trackable (T i) then misreadFields vs ws (T i)
    -- compared as a whole, though not all of it counts
    else agree T (.struct i vs) (.struct i ws) && !deepEqual (.struct i vs) (.struct i ws)
  | _, _ => false
termination_by structural v => v

def misreadFields : List Value → List Value → List Field → Bool
  | v :: vs, w :: ws, f :: fields =>
    (f.panics T v w ||
      if f.seen T v w then
        -- a field that is seen and does not count is an embedded one with a tag
        if f.counts T then misread v w else fastCompare T opts false v w [] 0 ≠ some (true, [])
      else f.counts T && !agree T v w) || misreadFields vs ws fields
  | _, _, _ => false
termination_by structural vs => vs

def misreadItems : List Value → List Value → Bool
  | v :: vs, w :: ws => misread v w || misreadItems vs ws
  | _, _ => false
termination_by structural vs => vs

def misreadEntries : List (MapKey × Value) → List (MapKey × Value) → Bool
  | [], _ => false
  | e :: es, fs => misreadEntry e fs || misreadEntries es fs
termination_by structural es => es

def misreadEntry : MapKey × Value → List (MapKey × Value) → Bool
  | (k, v), fs =>
    match fs.lookup k with
    | some w => misread v w
    | none => false
termination_by structural e => e

end

end

section

variable {T : Nat → List Field} {opts : Options} {v w : Value} {vs ws : List Value}
    {a b : Option Bool}
  {es fs : List (MapKey × Value)} {t : Ty} {fields : List Field} {f : Field} {i : Nat}

theorem isOpaque_eq_false (h : trackable fields = true) : isOpaque fields = false := by
  obtain ⟨f, hf, hseen⟩ := List.any_eq_true.mp h
  rw [isOpaque, List.all_eq_false]
  refine ⟨f, hf, ?_⟩
  cases hemb : f.isEmbedded <;> simp_all

/-! ## Equal values agree, and nothing is reported -/

/-- If the two values are equal, then they agree, and no difference is reported. -/
def Plain (T : Nat → List Field) (v w : Value) : Prop :=
  deepEqual v w = true → agree T v w = true ∧ silent T v w ≠ some false

theorem both_ne_false (ha : a ≠ some false) (hb : b ≠ some false) :
    both a b ≠ some false := by
  rcases a with _ | _ | _ <;> rcases b with _ | _ | _ <;> simp_all [both]

theorem plain_fields (h : FieldPairs T (fun v w _ _ _ => Plain T v w) vs ws fields)
    (heq : deepEqualList vs ws = true) :
    agreeFields T vs ws fields = true ∧ silentFields T vs ws fields ≠ some false := by
  induction h with
  | nil => exact ⟨rfl, by simp [silentFields]⟩
  | cons hv hw h hrest ih =>
    rw [deepEqualList, Bool.and_eq_true] at heq
    obtain ⟨hagree, hsilent⟩ := h heq.1
    obtain ⟨hagrees, hsilents⟩ := ih heq.2
    refine ⟨by rw [agreeFields, hagree, hagrees, Bool.or_true, Bool.and_self], ?_⟩
    rw [silentFields]
    refine both_ne_false ?_ hsilents
    split
    · simp
    · split
      · exact hsilent
      · simp

theorem plain_list (h : ∀ v ∈ vs, ∀ w ∈ ws, Plain T v w) (heq : deepEqualList vs ws = true) :
    agreeList T vs ws = true ∧ vs.length = ws.length ∧ silentItems T vs ws ≠ some false := by
  induction vs generalizing ws with
  | nil =>
    cases ws with
    | nil => exact ⟨rfl, rfl, by simp [silentItems]⟩
    | cons w ws => cases heq
  | cons v vs ih =>
    cases ws with
    | nil => cases heq
    | cons w ws =>
      rw [deepEqualList, Bool.and_eq_true] at heq
      obtain ⟨hvw, hrest⟩ := pairs_cons h
      obtain ⟨hagree, hsilent⟩ := hvw heq.1
      obtain ⟨hagrees, hlen, hsilents⟩ := ih hrest heq.2
      refine ⟨by rw [agreeList, hagree, hagrees, Bool.and_self], congrArg (· + 1) hlen, ?_⟩
      rw [silentItems]
      exact both_ne_false hsilent hsilents

theorem plain_entries (h : ∀ e ∈ es, ∀ f ∈ fs, Plain T e.2 f.2)
    (heq : deepEqualEntries es fs = true) :
    agreeEntries T es fs = true ∧ silentEntries T es fs ≠ some false := by
  induction es with
  | nil => exact ⟨rfl, by simp [silentEntries]⟩
  | cons e es ih =>
    obtain ⟨k, v⟩ := e
    rw [List.forall_mem_cons] at h
    rw [deepEqualEntries, Bool.and_eq_true, deepEqualEntry] at heq
    obtain ⟨hagrees, hsilents⟩ := ih h.2 heq.2
    rw [agreeEntries, silentEntries, agreeEntry, silentEntry, hagrees, Bool.and_true]
    cases hlookup : fs.lookup k with
    | none => simp [hlookup] at heq
    | some w =>
      rw [hlookup] at heq
      obtain ⟨hagree, hsilent⟩ := h.1 _ (Assoc.mem_of_lookup hlookup) heq.1
      exact ⟨hagree, both_ne_false hsilent hsilents⟩

theorem all_keys_of_deepEqual (hes : (es.map Prod.fst).Nodup) (hlen : es.length = fs.length)
    (heq : deepEqualEntries es fs = true) : (fs.all fun f => f.1 ∈ es.map Prod.fst) = true := by
  rw [deepEqualEntries_iff] at heq
  refine List.all_eq_true.mpr fun f hf => decide_eq_true ?_
  obtain ⟨v, hv⟩ := exists_lookup_of_subset hes hlen (k := f.1)
    (fun k v hkv => (heq k v hkv).imp fun _ h => h.1) (List.mem_map_of_mem hf)
  exact List.mem_map.mpr ⟨(f.1, v), hv, rfl⟩

theorem plain_struct (h : FieldPairs T (fun v w _ _ _ => Plain T v w) vs ws (T i)) :
    Plain T (.struct i vs) (.struct i ws) := by
  intro heq
  have hlist : deepEqualList vs ws = true := by simpa [deepEqual] using heq
  obtain ⟨hagree, hsilent⟩ := plain_fields h hlist
  rw [agree, silent, heq, hagree, ite_self]
  refine ⟨rfl, ?_⟩
  split
  · exact hsilent
  · simp

theorem plain (hv : Typed T v t) (hw : Typed T w t) : Plain T v w := by
  induction v, w, t, hv, hw using Typed.pairs with
  | ptr v w k t hv hw _ _ ih => exact ih
  | list n m vs ws t u hv hw hu hvs hws ih =>
    intro heq
    rw [deepEqual, Bool.and_eq_true] at heq
    obtain ⟨hagree, hlen, hsilent⟩ := plain_list ih heq.2
    rw [agree, silent, if_pos hlen]
    exact ⟨hagree, hsilent⟩
  | map n m es fs k key t hv hw hes hfs hest hfst ih =>
    intro heq
    simp only [deepEqual, Bool.and_eq_true, beq_iff_eq] at heq
    obtain ⟨⟨-, hlen⟩, heq⟩ := heq
    obtain ⟨hagree, hsilent⟩ := plain_entries ih heq
    rw [agree, silent, hagree, all_keys_of_deepEqual hes hlen heq]
    exact ⟨rfl, both_ne_false hsilent (by simp)⟩
  | iface t v w hv hw _ _ ih =>
    intro heq
    simpa [agree, silent] using ih (by simpa [deepEqual] using heq)
  | struct i vs ws hv hw h => exact plain_struct h
  | _ => simp_all [Plain, deepEqual, agree, silent]

/-! ## Without such a spot the tracker is right -/

theorem silent_iff (hopts : opts.Full) (hv : Typed T v t) (hw : Typed T w t) :
    fastCompare T opts false v w [] 0 = some (true, []) ↔ silent T v w = some true := by
  rw [← pathless hopts hv hw [] 0, quiet_iff]
  cases fastCompare T opts false v w [] 0 with
  | none => simp
  | some r =>
    obtain ⟨b, ps⟩ := r
    cases b <;> simp [reported]

/-- If the two values have no spot to misread, their comparison answers whether they agree. -/
def Judged (T : Nat → List Field) (opts : Options) (v w : Value) : Prop :=
  misread T opts v w = false → silent T v w = some (agree T v w)

theorem judged_fields (hopts : opts.Full)
    (h : FieldPairs T (fun v w _ _ _ => Judged T opts v w) vs ws fields)
    (hmis : misreadFields T opts vs ws fields = false) :
    silentFields T vs ws fields = some (agreeFields T vs ws fields) := by
  induction h with
  | nil => rfl
  | @cons v w f vs ws fields hv hw h hrest ih =>
    rw [misreadFields, Bool.or_eq_false_iff, Bool.or_eq_false_iff] at hmis
    obtain ⟨⟨hpanics, hmis⟩, hlater⟩ := hmis
    have hfield : (if f.seen T v w then silent T v w else some true) =
        some (!f.counts T || agree T v w) := by
      cases hseen : f.seen T v w <;> cases hcounts : f.counts T <;>
        simp only [hseen, hcounts, if_true, Bool.false_eq_true, if_false, Bool.true_and,
          Bool.not_true, Bool.not_false, Bool.true_or, Bool.false_or] at hmis ⊢
      · simpa using hmis
      · exact (silent_iff hopts hv hw).mp (by simpa using hmis)
      · exact h hmis
    rw [silentFields, hpanics, if_neg Bool.false_ne_true, hfield, ih hlater]
    rfl

theorem judged_items (h : ∀ v ∈ vs, ∀ w ∈ ws, Judged T opts v w) (hlen : vs.length = ws.length)
    (hmis : misreadItems T opts vs ws = false) :
    silentItems T vs ws = some (agreeList T vs ws) := by
  induction vs generalizing ws with
  | nil =>
    cases ws with
    | nil => rfl
    | cons w ws => cases hlen
  | cons v vs ih =>
    cases ws with
    | nil => cases hlen
    | cons w ws =>
      rw [misreadItems, Bool.or_eq_false_iff] at hmis
      obtain ⟨hvw, hrest⟩ := pairs_cons h
      rw [silentItems, hvw hmis.1, ih hrest (Nat.succ.inj hlen) hmis.2]
      rfl

theorem judged_entries (h : ∀ e ∈ es, ∀ f ∈ fs, Judged T opts e.2 f.2)
    (hmis : misreadEntries T opts es fs = false) :
    silentEntries T es fs = some (agreeEntries T es fs) := by
  induction es with
  | nil => rfl
  | cons e es ih =>
    obtain ⟨k, v⟩ := e
    rw [List.forall_mem_cons] at h
    rw [misreadEntries, Bool.or_eq_false_iff, misreadEntry] at hmis
    rw [silentEntries, silentEntry, agreeEntries, agreeEntry, ih h.2 hmis.2]
    cases hlookup : fs.lookup k with
    | none => rfl
    | some w =>
      rw [hlookup] at hmis
      exact congrArg (both · _) (h.1 _ (Assoc.mem_of_lookup hlookup) hmis.1)

theorem agreeList_eq_false (hlen : vs.length ≠ ws.length) : agreeList T vs ws = false := by
  induction vs generalizing ws with
  | nil =>
    cases ws with
    | nil => exact absurd rfl hlen
    | cons w ws => rfl
  | cons v vs ih =>
    cases ws with
    | nil => rfl
    | cons w ws =>
      rw [agreeList, ih fun h => hlen (congrArg (· + 1) h), Bool.and_false]

theorem judged_list {n m : Bool} (h : ∀ v ∈ vs, ∀ w ∈ ws, Judged T opts v w) :
    Judged T opts (.list n vs) (.list m ws) := by
  intro hmis
  rw [silent, agree]
  by_cases hlen : vs.length = ws.length
  · rw [misread, hlen, beq_self_eq_true, Bool.true_and] at hmis
    rw [if_pos hlen]
    exact judged_items h hlen hmis
  · rw [if_neg hlen, agreeList_eq_false hlen]

theorem judged_struct (hopts : opts.Full)
    (hv : Typed T (.struct i vs) t) (hw : Typed T (.struct i ws) t)
    (h : FieldPairs T (fun v w _ _ _ => Judged T opts v w) vs ws (T i)) :
    Judged T opts (.struct i vs) (.struct i ws) := by
  intro hmis
  rw [misread] at hmis
  rw [silent]
  cases htrack : trackable (T i) with
  | true =>
    rw [htrack, if_pos rfl] at hmis
    rw [if_pos rfl, agree, isOpaque_eq_false htrack, if_neg Bool.false_ne_true]
    exact judged_fields hopts h hmis
  | false =>
    rw [htrack, if_neg Bool.false_ne_true] at hmis
    rw [if_neg Bool.false_ne_true]
    cases heq : deepEqual (.struct i vs) (.struct i ws) with
    | true => rw [(plain hv hw heq).1]
    | false =>
      rw [heq, Bool.not_false, Bool.and_true] at hmis
      rw [hmis]

theorem judged (hopts : opts.Full) (hv : Typed T v t) (hw : Typed T w t) : Judged T opts v w := by
  induction v, w, t, hv, hw using Typed.pairs with
  | ptr v w k t hv hw _ _ ih => exact ih
  | list n m vs ws t u hv hw hu hvs hws ih => exact judged_list ih
  | map n m es fs k key t hv hw _ _ _ _ ih =>
    intro hmis
    rw [silent, judged_entries ih hmis]
    rfl
  | iface t v w hv hw _ _ ih =>
    intro hmis
    rw [misread, decide_eq_true rfl, Bool.true_and] at hmis
    rw [silent, agree, if_pos rfl, decide_eq_true rfl, Bool.true_and]
    exact ih hmis
  | ifaceOther t v u w hv hw hu =>
    intro _
    rw [silent, agree, if_neg hu, decide_eq_false hu, Bool.false_and]
  | struct i vs ws hv hw h => exact judged_struct hopts hv hw h
  | _ => exact fun _ => rfl

/-! ## A spot that is misread makes the tracker wrong -/

/-- The type has two values for which the tracker answers wrongly. -/
def Misjudged (T : Nat → List Field) (t : Ty) : Prop :=
  ∃ v w, Typed T v t ∧ Typed T w t ∧ silent T v w ≠ some (agree T v w)

theorem both_ne_left {x : Bool} (ha : a ≠ some x) (hb : b ≠ some false) :
    both a b ≠ some (x && true) := by
  rcases a with _ | _ | _ <;> rcases b with _ | _ | _ <;> cases x <;> simp_all [both]

theorem both_ne_right {x : Bool} (ha : a ≠ some false) (hb : b ≠ some x) :
    both a b ≠ some (true && x) := by
  rcases a with _ | _ | _ <;> rcases b with _ | _ | _ <;> cases x <;> simp_all [both]

theorem misjudged_ptr (k : Nat) (h : Misjudged T t) : Misjudged T (.ptr k t) := by
  obtain ⟨v, w, hv, hw, hne⟩ := h
  exact ⟨.ptr v, .ptr w, .ptr k hv, .ptr k hw, hne⟩

theorem misjudged_iface (h : Misjudged T t) : Misjudged T .iface := by
  obtain ⟨v, w, hv, hw, hne⟩ := h
  refine ⟨.iface t v, .iface t w, .iface hv, .iface hw, ?_⟩
  simpa [silent, agree] using hne

theorem misjudged_map (k key : Nat) (h : Misjudged T t) : Misjudged T (.map k key t) := by
  obtain ⟨v, w, hv, hw, hne⟩ := h
  refine ⟨.map false [(.int 0, v)], .map false [(.int 0, w)], .map k key (by simp) (by simpa),
    .map k key (by simp) (by simpa), ?_⟩
  simpa [silent, agree, silentEntries, agreeEntries, silentEntry, agreeEntry, List.lookup_cons_self] using hne

/-- A list whose first elements are two such values, and whose other ones are equal. -/
theorem misjudged_items (n : Nat) (h : Misjudged T t) : ∃ vs ws : List Value,
    vs.length = n + 1 ∧ ws.length = n + 1 ∧ (∀ v ∈ vs, Typed T v t) ∧ (∀ w ∈ ws, Typed T w t) ∧
      silentItems T vs ws ≠ some (agreeList T vs ws) := by
  obtain ⟨v, w, hv, hw, hne⟩ := h
  have hrest : ∀ u ∈ List.replicate n v, Typed T u t := fun u hu => List.eq_of_mem_replicate hu ▸ hv
  obtain ⟨hagree, -, hsilent⟩ := plain_list (fun u hu u' hu' => plain (hrest u hu) (hrest u' hu'))
    (deepEqualList_refl fun u hu => deepEqual_refl (hrest u hu))
  refine ⟨v :: List.replicate n v, w :: List.replicate n v, by simp, by simp,
    List.forall_mem_cons.mpr ⟨hv, hrest⟩, List.forall_mem_cons.mpr ⟨hw, hrest⟩, ?_⟩
  rw [silentItems, agreeList, hagree]
  exact both_ne_left hne hsilent

theorem misjudged_slice (k : Nat) (h : Misjudged T t) : Misjudged T (.slice k t) := by
  obtain ⟨vs, ws, hlen, hlen', hvs, hws, hne⟩ := misjudged_items 0 h
  refine ⟨.list false vs, .list false ws, .slice k hvs, .slice k hws, ?_⟩
  rw [silent, agree, if_pos (hlen.trans hlen'.symm)]
  exact hne

theorem misjudged_array (k n : Nat) (h : Misjudged T t) : Misjudged T (.array k (n + 1) t) := by
  obtain ⟨vs, ws, hlen, hlen', hvs, hws, hne⟩ := misjudged_items n h
  refine ⟨.list false vs, .list false ws, hlen ▸ .array k hvs, hlen' ▸ .array k hws, ?_⟩
  rw [silent, agree, if_pos (hlen.trans hlen'.symm)]
  exact hne

def MisjudgedFields (T : Nat → List Field) (fields : List Field) : Prop :=
  ∃ vs ws, TypedFields T vs fields ∧ TypedFields T ws fields ∧
    silentFields T vs ws fields ≠ some (agreeFields T vs ws fields)

theorem plain_fields_refl (hvs : TypedFields T vs fields) :
    agreeFields T vs vs fields = true ∧ silentFields T vs vs fields ≠ some false :=
  plain_fields (.of_typed (fun _ _ _ _ => plain) hvs hvs) <| deepEqualList_refl fun v hv => by
    obtain ⟨t, ht⟩ := hvs.exists_typed v hv
    exact deepEqual_refl ht

def Field.silent (T : Nat → List Field) (f : Field) (v w : Value) : Option Bool :=
  if f.panics T v w then none else if f.seen T v w then Fieldtracker.silent T v w else some true

theorem misjudged_here (hv : Typed T v f.typ) (hw : Typed T w f.typ)
    (hne : f.silent T v w ≠ some (!f.counts T || agree T v w)) (hvs : TypedFields T vs fields) :
    MisjudgedFields T (f :: fields) := by
  obtain ⟨hagree, hsilent⟩ := plain_fields_refl hvs
  refine ⟨v :: vs, w :: vs, .cons hv hvs, .cons hw hvs, ?_⟩
  rw [silentFields, agreeFields, hagree]
  exact both_ne_left hne hsilent

theorem misjudged_later (hv : Typed T v f.typ) (h : MisjudgedFields T fields) :
    MisjudgedFields T (f :: fields) := by
  obtain ⟨vs, ws, hvs, hws, hne⟩ := h
  obtain ⟨hagree, hsilent⟩ := plain_fields_refl (.cons hv .nil : TypedFields T [v] [f])
  refine ⟨v :: vs, v :: ws, .cons hv hvs, .cons hv hws, ?_⟩
  have hagree' : (!f.counts T || agree T v v) = true := by simpa [agreeFields] using hagree
  rw [silentFields, agreeFields, hagree']
  refine both_ne_right (fun h => hsilent ?_) hne
  rw [silentFields, h]
  rfl

theorem misjudged_struct (htrack : trackable (T i) = true) (h : MisjudgedFields T (T i)) :
    Misjudged T (.struct i) := by
  obtain ⟨vs, ws, hvs, hws, hne⟩ := h
  refine ⟨.struct i vs, .struct i ws, .struct hvs, .struct hws, ?_⟩
  rw [silent, agree, isOpaque_eq_false htrack, if_pos htrack, if_neg Bool.false_ne_true]
  exact hne

/-- If the two values have a spot to misread, then the tracker is wrong about two values of the
type. -/
def Exposed (T : Nat → List Field) (opts : Options) (v w : Value) (t : Ty) : Prop :=
  misread T opts v w = true → Misjudged T t

/-- The answer that a nil pointer is compared with another one by is right. -/
theorem silent_of_isNilPtr (hv : Typed T v t) (hw : Typed T w t)
    (hnil : v.isNilPtr = true ∨ w.isNilPtr = true) : silent T v w = some (agree T v w) := by
  rcases hnil with hnil | hnil
  · cases v <;> cases hnil
    cases hv
    cases hw <;> rfl
  · cases w <;> cases hnil
    cases hw
    cases hv <;> rfl

/-- What makes a field misread makes the tracker wrong about it. -/
theorem exists_field (hopts : opts.Full)
    (h : Exposed T opts v w f.typ) (hv : Typed T v f.typ) (hw : Typed T w f.typ)
    (hmis : (f.panics T v w || if f.seen T v w then if f.counts T then misread T opts v w
      else fastCompare T opts false v w [] 0 ≠ some (true, []) else f.counts T && !agree T v w) =
        true) :
    ∃ v w, Typed T v f.typ ∧ Typed T w f.typ ∧
      f.silent T v w ≠ some (!f.counts T || agree T v w) := by
  cases hpanics : f.panics T v w with
  | true => exact ⟨v, w, hv, hw, by simp [Field.silent, hpanics]⟩
  | false =>
    rw [hpanics, Bool.false_or] at hmis
    cases hseen : f.seen T v w with
    | false =>
      -- the field counts, and nothing is reported
      rw [hseen, if_neg Bool.false_ne_true, Bool.and_eq_true, Bool.not_eq_true'] at hmis
      exact ⟨v, w, hv, hw, by simp [Field.silent, hpanics, hseen, hmis.1, hmis.2]⟩
    | true =>
      rw [hseen, if_pos rfl] at hmis
      cases hcounts : f.counts T with
      | false =>
        -- the field does not count, and something is reported
        rw [hcounts, if_neg Bool.false_ne_true, decide_eq_true_eq, ne_eq,
          silent_iff hopts hv hw] at hmis
        exact ⟨v, w, hv, hw, by simpa [Field.silent, hpanics, hseen, hcounts] using hmis⟩
      | true =>
        rw [hcounts, if_pos rfl] at hmis
        obtain ⟨v', w', hv', hw', hne⟩ := h hmis
        -- the two values that the tracker is wrong about are looked at, too
        have hset : v'.isNilPtr = false ∧ w'.isNilPtr = false := by
          constructor <;> by_contra hnil
          · exact hne (silent_of_isNilPtr hv' hw' (.inl (Bool.not_eq_false _ ▸ hnil)))
          · exact hne (silent_of_isNilPtr hv' hw' (.inr (Bool.not_eq_false _ ▸ hnil)))
        have hsilent : f.silent T v' w' = silent T v' w' := by
          unfold Field.silent Field.panics Field.seen
          unfold Field.seen at hseen
          cases hemb : f.isEmbedded <;> simp_all
        exact ⟨v', w', hv', hw', by simpa [hsilent, hcounts] using hne⟩

theorem FieldPairs.typed {R : ∀ v w t, Typed T v t → Typed T w t → Prop}
    (h : FieldPairs T R vs ws fields) : TypedFields T vs fields ∧ TypedFields T ws fields := by
  induction h with
  | nil => exact ⟨.nil, .nil⟩
  | cons hv hw h hrest ih => exact ⟨.cons hv ih.1, .cons hw ih.2⟩

theorem exposed_fields (hopts : opts.Full)
    (h : FieldPairs T (fun v w t _ _ => Exposed T opts v w t) vs ws fields)
    (hmis : misreadFields T opts vs ws fields = true) : MisjudgedFields T fields := by
  induction h with
  | nil => cases hmis
  | cons hv hw h hrest ih =>
    rw [misreadFields, Bool.or_eq_true] at hmis
    rcases hmis with hmis | hmis
    · obtain ⟨v', w', hv', hw', hne⟩ := exists_field hopts h hv hw hmis
      exact misjudged_here hv' hw' hne hrest.typed.1
    · exact misjudged_later hv (ih hmis)

theorem exposed_items (h : ∀ v ∈ vs, ∀ w ∈ ws, Exposed T opts v w t)
    (hmis : misreadItems T opts vs ws = true) : Misjudged T t ∧ ∃ n, vs.length = n + 1 := by
  induction vs generalizing ws with
  | nil => cases hmis
  | cons v vs ih =>
    cases ws with
    | nil => cases hmis
    | cons w ws =>
      rw [misreadItems, Bool.or_eq_true] at hmis
      obtain ⟨hvw, hrest⟩ := pairs_cons h
      exact ⟨hmis.elim hvw fun hmis => (ih hrest hmis).1, vs.length, rfl⟩

theorem exposed_entries (h : ∀ e ∈ es, ∀ f ∈ fs, Exposed T opts e.2 f.2 t)
    (hmis : misreadEntries T opts es fs = true) : Misjudged T t := by
  induction es with
  | nil => cases hmis
  | cons e es ih =>
    obtain ⟨k, v⟩ := e
    rw [List.forall_mem_cons] at h
    rw [misreadEntries, Bool.or_eq_true, misreadEntry] at hmis
    rcases hmis with hmis | hmis
    · cases hlookup : fs.lookup k with
      | none => simp [hlookup] at hmis
      | some w =>
        rw [hlookup] at hmis
        exact h.1 _ (Assoc.mem_of_lookup hlookup) hmis
    · exact ih h.2 hmis

theorem exposed_struct (hopts : opts.Full)
    (hv : Typed T (.struct i vs) (.struct i)) (hw : Typed T (.struct i ws) (.struct i))
    (h : FieldPairs T (fun v w t _ _ => Exposed T opts v w t) vs ws (T i)) :
    Exposed T opts (.struct i vs) (.struct i ws) (.struct i) := by
  intro hmis
  rw [misread] at hmis
  cases htrack : trackable (T i) with
  | true =>
    rw [htrack, if_pos rfl] at hmis
    exact misjudged_struct htrack (exposed_fields hopts h hmis)
  | false =>
    rw [htrack, if_neg Bool.false_ne_true, Bool.and_eq_true, Bool.not_eq_true'] at hmis
    refine ⟨.struct i vs, .struct i ws, hv, hw, ?_⟩
    rw [silent, htrack, if_neg Bool.false_ne_true, hmis.1, hmis.2]
    simp

theorem exposed (hopts : opts.Full)
    (hv : Typed T v t) (hw : Typed T w t) : Exposed T opts v w t := by
  induction v, w, t, hv, hw using Typed.pairs with
  | ptr v w k t hv hw _ _ ih => exact fun hmis => misjudged_ptr k (ih hmis)
  | list n m vs ws t u hv hw hu hvs hws ih =>
    intro hmis
    rw [misread, Bool.and_eq_true] at hmis
    obtain ⟨ht, n, hn⟩ := exposed_items ih hmis.2
    obtain ⟨k, rfl | rfl⟩ := hu
    · exact misjudged_slice k ht
    · rw [hn]
      exact misjudged_array k n ht
  | map n m es fs k key t hv hw _ _ _ _ ih =>
    exact fun hmis => misjudged_map k key (exposed_entries ih hmis)
  | iface t v w hv hw _ _ ih =>
    intro hmis
    rw [misread, Bool.and_eq_true] at hmis
    exact misjudged_iface (ih hmis.2)
  | ifaceOther t v u w hv hw hu =>
    intro hmis
    rw [misread, decide_eq_false hu, Bool.false_and] at hmis
    cases hmis
  | struct i vs ws hv hw h => exact exposed_struct hopts hv hw h
  | _ =>
    intro hmis
    cases hmis

end

end GoAtlas.Fieldtracker
