import GoAtlas.Fieldtracker.Tracker

/-!
# Whether the tracker reports anything

Without ignored fields and without a limit on the depth, it does not depend on the path or the depth
at which a comparison starts whether it reports anything.
-/

namespace GoAtlas.Fieldtracker

open Lib

/-! ## Answers without paths -/

def quiet (o : Option (List Bytes)) : Option Bool := o.map List.isEmpty

def both (a b : Option Bool) : Option Bool := a.bind fun x => b.map (x && ·)


@[simp] theorem both_true (a : Option Bool) : both a (some true) = a := by
  cases a <;> simp [both]

theorem quiet_append (o o' : Option (List Bytes)) :
    quiet (o.bind fun ps => o'.map (ps ++ ·)) = both (quiet o) (quiet o') := by
  cases o with
  | none => rfl
  | some ps => cases o' <;> cases ps <;> simp [quiet, both]

theorem quiet_reported (b : Bool) (path : Bytes) :
    quiet (some (reported path (b, []))) = some b := by
  cases b <;> rfl

theorem quiet_iff {o : Option (List Bytes)} : quiet o = some true ↔ o = some [] := by
  cases o <;> simp [quiet]

theorem map_reported_true (o : Option (List Bytes)) (path : Bytes) :
    (o.map (true, ·)).map (reported path) = o := by
  cases o <;> simp [reported]

/-! ## The comparison without paths -/

section

variable (T : Nat → List Field)

/-- The fields of the struct that an embedded field is or points to. -/
def Field.flattened (f : Field) : List Field :=
  match f.typ with
  | .struct i => T i
  | .ptr _ (.struct i) => T i
  | _ => []

def Value.isNilPtr : Value → Bool
  | .nilPtr => true
  | _ => false

def Field.seen (f : Field) (v w : Value) : Bool :=
  if f.isEmbedded then trackable (f.flattened T) && !v.isNilPtr && !w.isNilPtr
  else f.isExported && getFieldNameFast f ≠ [dash]

/-- The tracker would give a struct in an unexported field to `DeepEqual`. -/
def Field.panics (f : Field) (v w : Value) : Bool :=
  f.isEmbedded && !f.isExported && !trackable (f.flattened T) && !v.isNilPtr && !w.isNilPtr

mutual

def silent : Value → Value → Option Bool
  | .prim x, .prim y => some (x = y)
  | .other x, .other y => some (x = y)
  | .nilPtr, .ptr _ => some false
  | .ptr _, .nilPtr => some false
  | .ptr v, .ptr w => silent v w
  | .list _ vs, .list _ ws => if vs.length = ws.length then silentItems vs ws else some false
  | .map _ es, .map _ fs =>
    both (silentEntries es fs) (some (fs.all fun f => f.1 ∈ es.map Prod.fst))
  | .nilIface, .iface _ _ => some false
  | .iface _ _, .nilIface => some false
  | .iface t v, .iface u w => if t = u then silent v w else some false
  | .struct i vs, .struct _ ws =>
    if trackable (T i) then silentFields vs ws (T i)
    else some (deepEqual (.struct i vs) (.struct i ws))
  | _, _ => some true
termination_by structural v => v

def silentFields : List Value → List Value → List Field → Option Bool
  | v :: vs, w :: ws, f :: fields =>
    both (if f.panics T v w then none else if f.seen T v w then silent v w else some true)
      (silentFields vs ws fields)
  | _, _, _ => some true
termination_by structural vs => vs

def silentItems : List Value → List Value → Option Bool
  | v :: vs, w :: ws => both (silent v w) (silentItems vs ws)
  | _, _ => some true
termination_by structural vs => vs

def silentEntries : List (MapKey × Value) → List (MapKey × Value) → Option Bool
  | [], _ => some true
  | e :: es, fs => both (silentEntry e fs) (silentEntries es fs)
termination_by structural es => es

def silentEntry : MapKey × Value → List (MapKey × Value) → Option Bool
  | (k, v), fs =>
    match fs.lookup k with
    | none => some false
    | some w => silent v w
termination_by structural e => e

end

end

/-! ## It is the comparison of the tracker -/

section

variable {T : Nat → List Field} {opts : Options} {v w : Value} {vs ws : List Value}
  {es fs : List (MapKey × Value)} {t : Ty} {fields : List Field} {f : Field} {i : Nat}

/-- Wherever the two values are compared, the answer is the one without paths. -/
def Pathless (T : Nat → List Field) (opts : Options) (v w : Value) : Prop :=
  ∀ path depth, quiet ((fastCompare T opts false v w path depth).map (reported path)) = silent T v w

/-- Nothing is ignored, and there is no depth limit. -/
structure Options.Full (opts : Options) : Prop where
  depth : opts.maxDepth ≤ 0
  ignore : ∀ p, opts.ignoreFields p = false

theorem tooDeep_eq_false (hopts : opts.Full) (depth : Nat) : opts.tooDeep depth = false := by
  unfold Options.tooDeep
  rw [Bool.and_eq_false_imp]
  intro hpos
  exact absurd (of_decide_eq_true hpos) (not_lt.mpr hopts.depth)

theorem typ_of_isEmbedded (h : f.isEmbedded = true) :
    ∃ i, f.flattened T = T i ∧ (f.typ = .struct i ∨ ∃ k, f.typ = .ptr k (.struct i)) := by
  unfold Field.isEmbedded at h
  rw [Bool.and_eq_true] at h
  obtain ⟨-, h⟩ := h
  unfold Field.flattened
  cases htyp : f.typ with
  | struct i => exact ⟨i, rfl, .inl rfl⟩
  | ptr k t =>
    rw [htyp] at h
    cases t with
    | struct i => exact ⟨i, rfl, .inr ⟨k, rfl⟩⟩
    | _ => cases h
  | _ =>
    rw [htyp] at h
    cases h

variable (hopts : opts.Full)
include hopts

/-- Below an embedded field the fields of a struct are compared, and the answer for a struct that is
compared as a whole is dropped. -/
theorem quiet_embedded_struct {q : Option Bool} {pre : Bytes} {depth : Nat} (ro : Bool)
    (hq : quiet ((fastCompare T opts false (.struct i vs) (.struct i ws) pre
      depth).map (reported pre)) = q) :
    quiet ((fastCompare T opts ro (.struct i vs) (.struct i ws) pre depth).map Prod.snd) =
      if ro && !trackable (T i) then none else if trackable (T i) then q else some true := by
  rw [fastCompare] at hq ⊢
  cases htrack : trackable (T i) with
  | true =>
    simp only [htrack, if_true, tooDeep_eq_false hopts, Bool.false_eq_true, if_false,
      map_reported_true] at hq
    simp [tooDeep_eq_false hopts, hq]
  | false => cases ro <;> simp [quiet]

theorem quiet_embedded (hpath : Pathless T opts v w)
    (hemb : f.isEmbedded = true) (hv : Typed T v f.typ) (hw : Typed T w f.typ) (pre : Bytes)
    (depth : Nat) :
    quiet ((fastCompare T opts (!f.isExported) v w pre depth).map Prod.snd) =
      if f.panics T v w then none else if f.seen T v w then silent T v w else some true := by
  have hq := hpath pre depth
  unfold Field.panics Field.seen
  obtain ⟨i, hflat, htyp | ⟨k, htyp⟩⟩ := typ_of_isEmbedded (T := T) hemb
  · rw [htyp] at hv hw
    cases hv with
    | struct hvs =>
      cases hw with
      | struct hws => simp [quiet_embedded_struct hopts _ hq, hemb, hflat, Value.isNilPtr]
  · rw [htyp] at hv hw
    cases hv with
    | nilPtr => cases hw <;> simp [fastCompare, quiet, Value.isNilPtr, hemb]
    | ptr _ hv =>
      cases hw with
      | nilPtr => simp [fastCompare, quiet, Value.isNilPtr, hemb]
      | ptr _ hw =>
        cases hv with
        | struct hvs =>
          cases hw with
          | struct hws =>
            rw [fastCompare] at hq ⊢
            simp [quiet_embedded_struct hopts _ hq, hemb, hflat, Value.isNilPtr]

theorem quiet_fields
    (h : FieldPairs T (fun v w _ _ _ => Pathless T opts v w) vs ws fields) (pre : Bytes)
    (depth : Nat) :
    quiet (compareStructsFast T opts vs ws fields pre depth) = silentFields T vs ws fields := by
  induction h with
  | nil => rfl
  | @cons v w f vs ws fields hv hw h hrest ih =>
    rw [compareStructsFast, silentFields, quiet_append, ih]
    congr 1
    by_cases hemb : f.isEmbedded = true
    · rw [if_pos hemb]
      exact quiet_embedded hopts h hemb hv hw pre (depth + 1)
    · rw [if_neg hemb, hopts.ignore]
      have hskip : (!f.isExported || decide (getFieldNameFast f = [dash])) = !f.seen T v w := by
        simp [Field.seen, hemb]
      have hpanics : f.panics T v w = false := by simp [Field.panics, hemb]
      rw [hskip, hpanics]
      cases f.seen T v w with
      | false => rfl
      | true => exact h _ _

theorem quiet_items (h : ∀ v ∈ vs, ∀ w ∈ ws, Pathless T opts v w) (pre : Bytes) (i depth : Nat) :
    quiet (compareSliceFast T opts vs ws pre i depth) = silentItems T vs ws := by
  induction vs generalizing ws i with
  | nil => rfl
  | cons v vs ih =>
    cases ws with
    | nil => rfl
    | cons w ws =>
      obtain ⟨hvw, hrest⟩ := pairs_cons h
      rw [compareSliceFast, silentItems, quiet_append, ih hrest]
      simp only [hopts.ignore, Bool.false_eq_true, if_false]
      rw [hvw]

theorem quiet_entries
    (h : ∀ e ∈ es, ∀ f ∈ fs, Pathless T opts e.2 f.2) (pre : Bytes) (depth : Nat) :
    quiet (compareMapFast T opts es fs pre depth) = silentEntries T es fs := by
  induction es with
  | nil => rfl
  | cons e es ih =>
    obtain ⟨k, v⟩ := e
    rw [List.forall_mem_cons] at h
    rw [compareMapFast, silentEntries, quiet_append, ih h.2, compareEntry, silentEntry]
    cases hlookup : fs.lookup k with
    | none => simp [hopts.ignore, quiet]
    | some w =>
      simp only [hopts.ignore, Bool.false_eq_true, if_false]
      rw [h.1 _ (Assoc.mem_of_lookup hlookup)]

theorem isEmpty_addedKeys (pre : Bytes) :
    (addedKeys opts es fs pre).isEmpty = fs.all fun f => f.1 ∈ es.map Prod.fst := by
  rw [Bool.eq_iff_iff]
  simp [addedKeys, hopts.ignore]

theorem pathless_list {n m : Bool}
    (h : ∀ v ∈ vs, ∀ w ∈ ws, Pathless T opts v w) : Pathless T opts (.list n vs) (.list m ws) := by
  intro path depth
  rw [fastCompare, silent]
  by_cases hlen : vs.length = ws.length
  · rw [if_neg (not_not.mpr hlen), if_pos hlen, map_reported_true]
    exact quiet_items hopts h path 0 depth
  · rw [if_pos hlen, if_neg hlen, hopts.ignore]
    rfl

theorem pathless_map {n m : Bool} (h : ∀ e ∈ es, ∀ f ∈ fs, Pathless T opts e.2 f.2) :
    Pathless T opts (.map n es) (.map m fs) := by
  intro path depth
  rw [fastCompare, silent, ← quiet_entries hopts h path depth, ← isEmpty_addedKeys hopts path]
  cases compareMapFast T opts es fs path depth with
  | none => rfl
  | some ps => cases ps <;> simp [quiet, both, reported]

theorem pathless_struct (h : FieldPairs T (fun v w _ _ _ => Pathless T opts v w) vs ws (T i)) :
    Pathless T opts (.struct i vs) (.struct i ws) := by
  intro path depth
  rw [fastCompare, silent]
  cases trackable (T i) with
  | true =>
    rw [if_pos rfl, if_pos rfl, tooDeep_eq_false hopts, if_neg Bool.false_ne_true,
      map_reported_true]
    exact quiet_fields hopts h path depth
  | false => exact quiet_reported _ path

theorem pathless (hv : Typed T v t) (hw : Typed T w t) : Pathless T opts v w := by
  induction v, w, t, hv, hw using Typed.pairs with
  | prim x y k => exact fun path _ => quiet_reported _ path
  | other x y k => exact fun path _ => quiet_reported _ path
  | ptr v w k t hv hw _ _ ih => exact ih
  | list n m vs ws t u hv hw hu hvs hws ih => exact pathless_list hopts ih
  | map n m es fs k key t hv hw _ _ _ _ ih => exact pathless_map hopts ih
  | iface t v w hv hw _ _ ih =>
    intro path depth
    rw [fastCompare, silent, if_neg (not_not.mpr rfl), if_pos rfl]
    exact ih path depth
  | ifaceOther t v u w hv hw hu =>
    intro path depth
    rw [fastCompare, silent, if_pos hu, if_neg hu]
    rfl
  | struct i vs ws hv hw h => exact pathless_struct hopts h
  | _ => exact fun _ _ => rfl

end

end GoAtlas.Fieldtracker
