import GoAtlas.Fieldtracker.Agreement

/-!
# Completeness of the tracker

The tracker has the same paths for two values in either order. It has none exactly for values that
agree, unless they have a spot that it misreads.
-/

namespace GoAtlas.Fieldtracker

open Lib

section

variable {T : Nat → List Field} {opts : Options} {v w : Value} {vs ws : List Value}
    {o o' : Option (Bool × List Bytes)}
  {es fs : List (MapKey × Value)} {t : Ty} {fields : List Field}

/-! ## Both directions -/

def SamePaths (o o' : Option (List Bytes)) : Prop :=
  Option.Rel (fun ps ps' => ∀ q, q ∈ ps ↔ q ∈ ps') o o'

def SameOutcome (o o' : Option (Bool × List Bytes)) : Prop :=
  Option.Rel (fun r r' => r.1 = r'.1 ∧ ∀ q, q ∈ r.2 ↔ q ∈ r'.2) o o'

theorem SamePaths.append {o o' u u' : Option (List Bytes)} (h : SamePaths o o')
    (h' : SamePaths u u') :
    SamePaths (o.bind fun ps => u.map (ps ++ ·)) (o'.bind fun ps => u'.map (ps ++ ·)) := by
  cases h with
  | none => exact .none
  | some ho =>
    cases h' with
    | none => exact .none
    | some hu =>
      refine .some fun q => ?_
      rw [List.mem_append, List.mem_append, ho, hu]

theorem SameOutcome.snd (h : SameOutcome o o') :
    SamePaths (o.map Prod.snd) (o'.map Prod.snd) := by
  cases h with
  | none => exact .none
  | some h => exact .some h.2

theorem SameOutcome.reported (h : SameOutcome o o') (path : Bytes) :
    SamePaths (o.map (reported path)) (o'.map (reported path)) := by
  cases h with
  | none => exact .none
  | some h =>
    refine .some fun q => ?_
    rw [Fieldtracker.reported, Fieldtracker.reported, List.mem_append, List.mem_append, h.1, h.2]

theorem SamePaths.mk_true {o o' : Option (List Bytes)} (h : SamePaths o o') :
    SameOutcome (o.map (true, ·)) (o'.map (true, ·)) := by
  cases h with
  | none => exact .none
  | some h => exact .some ⟨rfl, h⟩

theorem sameOutcome_some (b : Bool) (ps : List Bytes) : SameOutcome (some (b, ps)) (some (b, ps)) :=
  .some ⟨rfl, fun _ => Iff.rfl⟩

def Symmetric (T : Nat → List Field) (opts : Options) (v w : Value) : Prop :=
  ∀ ro pre depth,
    SameOutcome (fastCompare T opts ro v w pre depth) (fastCompare T opts ro w v pre depth)

theorem samePaths_fields (h : FieldPairs T (fun v w _ _ _ => Symmetric T opts v w) vs ws fields)
    (pre : Bytes) (depth : Nat) :
    SamePaths (compareStructsFast T opts vs ws fields pre depth)
      (compareStructsFast T opts ws vs fields pre depth) := by
  induction h with
  | nil => exact .some fun _ => Iff.rfl
  | cons hv hw h hrest ih =>
    rw [compareStructsFast, compareStructsFast]
    refine SamePaths.append ?_ ih
    split
    · exact (h _ pre (depth + 1)).snd
    · split
      · exact .some fun _ => Iff.rfl
      · split
        · exact .some fun _ => Iff.rfl
        · exact (h false _ (depth + 1)).reported _

theorem SameOutcome.unlessIgnored (h : SameOutcome o o') (path : Bytes) :
    SamePaths (o.map fun r => if opts.ignoreFields path then r.2 else Fieldtracker.reported path r)
      (o'.map fun r => if opts.ignoreFields path then r.2 else Fieldtracker.reported path r) := by
  cases opts.ignoreFields path
  · exact h.reported path
  · exact h.snd

theorem samePaths_items (h : ∀ v ∈ vs, ∀ w ∈ ws, Symmetric T opts v w)
    (hlen : vs.length = ws.length) (pre : Bytes) (i depth : Nat) :
    SamePaths (compareSliceFast T opts vs ws pre i depth)
      (compareSliceFast T opts ws vs pre i depth) := by
  induction vs generalizing ws i with
  | nil =>
    cases ws with
    | nil => exact .some fun _ => Iff.rfl
    | cons w ws => cases hlen
  | cons v vs ih =>
    cases ws with
    | nil => cases hlen
    | cons w ws =>
      obtain ⟨hvw, hrest⟩ := pairs_cons h
      rw [compareSliceFast, compareSliceFast]
      exact ((hvw false _ depth).unlessIgnored _).append (ih hrest (Nat.succ.inj hlen) (i + 1))

/-- The loop over a map panics at an entry, or has the paths of all entries. -/
theorem compareMapFast_spec (pre : Bytes) (depth : Nat) :
    (compareMapFast T opts es fs pre depth = none ↔
    ∃ e ∈ es, compareEntry T opts e fs pre depth = none) ∧
      ∀ ps, compareMapFast T opts es fs pre depth = some ps →
        ∀ q, q ∈ ps ↔ ∃ e ∈ es, ∃ qs, compareEntry T opts e fs pre depth = some qs ∧ q ∈ qs := by
  induction es with
  | nil => simp [compareMapFast]
  | cons e es ih =>
    rw [compareMapFast]
    simp only [List.exists_mem_cons_iff]
    cases hentry : compareEntry T opts e fs pre depth with
    | none => simp
    | some qs =>
      cases hloop : compareMapFast T opts es fs pre depth with
      | none =>
        rw [hloop] at ih
        refine ⟨iff_of_true rfl (.inr (ih.1.mp rfl)), ?_⟩
        intro _ h
        cases h
      | some ps =>
        rw [hloop] at ih
        constructor
        · refine iff_of_false (Option.some_ne_none _) ?_
          rintro (h | h)
          · cases h
          · cases ih.1.mpr h
        · rintro _ ⟨⟩ q
          rw [List.mem_append, ih.2 ps rfl]
          simp

theorem samePaths_entry {k : MapKey} (hsym : Symmetric T opts v w)
    (hes : es.lookup k = some v) (hfs : fs.lookup k = some w) (pre : Bytes) (depth : Nat) :
    SamePaths (compareEntry T opts (k, v) fs pre depth)
      (compareEntry T opts (k, w) es pre depth) := by
  rw [compareEntry, compareEntry, hes, hfs]
  exact (hsym false _ depth).unlessIgnored _

theorem mem_addedKeys {pre q : Bytes} : q ∈ addedKeys opts es fs pre ↔
    ∃ f ∈ fs, f.1 ∉ es.map Prod.fst ∧ q = bracketed pre (formatMapKey f.1) ∧
      opts.ignoreFields q = false := by
  simp only [addedKeys, List.mem_filter, List.mem_map, decide_eq_true_eq, Bool.not_eq_true']
  constructor
  · rintro ⟨⟨f, ⟨hf, hnew⟩, rfl⟩, hign⟩
    exact ⟨f, hf, hnew, rfl, hign⟩
  · rintro ⟨f, hf, hnew, rfl, hign⟩
    exact ⟨⟨f, ⟨hf, hnew⟩, rfl⟩, hign⟩

/-- A key that the other map does not have is reported on both sides: in the loop, or as an added
one. -/
theorem compareEntry_of_new {e : MapKey × Value} (hnew : e.1 ∉ fs.map Prod.fst) (pre : Bytes)
    (depth : Nat) :
    ∃ qs, compareEntry T opts e fs pre depth = some qs ∧ ∀ q, q ∈ qs ↔
      q = bracketed pre (formatMapKey e.1) ∧ opts.ignoreFields q = false := by
  obtain ⟨k, v⟩ := e
  have hlookup : fs.lookup k = none := by
    cases hl : fs.lookup k with
    | none => rfl
    | some w => exact absurd (List.mem_map.mpr ⟨(k, w), Assoc.mem_of_lookup hl, rfl⟩) hnew
  rw [compareEntry, hlookup]
  refine ⟨_, rfl, fun q => ?_⟩
  cases hign : opts.ignoreFields (bracketed pre (formatMapKey k)) with
  | false =>
    simp only [Bool.false_eq_true, if_false, List.mem_singleton]
    exact ⟨fun hq => ⟨hq, hq ▸ hign⟩, fun hq => hq.1⟩
  | true =>
    simp only [if_true, List.not_mem_nil, false_iff]
    rintro ⟨rfl, hq⟩
    cases hign.symm.trans hq

/-- The entries of the keys that both maps have are compared in the same way. -/
def SameEntries (T : Nat → List Field) (opts : Options) (es fs : List (MapKey × Value))
    (pre : Bytes) (depth : Nat) : Prop :=
  ∀ k v w, (k, v) ∈ es → (k, w) ∈ fs →
    SamePaths (compareEntry T opts (k, v) fs pre depth) (compareEntry T opts (k, w) es pre depth)

theorem SamePaths.symm {o o' : Option (List Bytes)} (h : SamePaths o o') : SamePaths o' o := by
  cases h with
  | none => exact .none
  | some h => exact .some fun q => (h q).symm

theorem SameEntries.symm {pre : Bytes} {depth : Nat} (h : SameEntries T opts es fs pre depth) :
    SameEntries T opts fs es pre depth := fun k v w hv hw => (h k w v hw hv).symm

variable {pre : Bytes} {depth : Nat}

theorem SameEntries.none (h : SameEntries T opts es fs pre depth)
    (hnone : compareMapFast T opts es fs pre depth = none) :
    compareMapFast T opts fs es pre depth = none := by
  obtain ⟨⟨k, v⟩, hv, hentry⟩ := (compareMapFast_spec pre depth).1.mp hnone
  by_cases hk : k ∈ fs.map Prod.fst
  · obtain ⟨⟨k', w⟩, hw, rfl⟩ := List.mem_map.mp hk
    have hsame := h k' v w hv hw
    rw [hentry] at hsame
    refine (compareMapFast_spec pre depth).1.mpr ⟨(k', w), hw, ?_⟩
    generalize compareEntry T opts (k', w) es pre depth = o at hsame
    cases hsame
    rfl
  · obtain ⟨qs, hqs, -⟩ := @compareEntry_of_new T opts fs (k, v) hk pre depth
    cases hentry.symm.trans hqs

theorem SameEntries.mem (h : SameEntries T opts es fs pre depth) {ps ps' : List Bytes} {q : Bytes}
    (hps : compareMapFast T opts es fs pre depth = some ps)
    (hps' : compareMapFast T opts fs es pre depth = some ps')
    (hq : q ∈ ps ++ addedKeys opts es fs pre) : q ∈ ps' ++ addedKeys opts fs es pre := by
  rw [List.mem_append, (compareMapFast_spec pre depth).2 ps' hps']
  rcases List.mem_append.mp hq with hq | hq
  · obtain ⟨⟨k, v⟩, hv, qs, hqs, hq⟩ := ((compareMapFast_spec pre depth).2 ps hps q).mp hq
    by_cases hk : k ∈ fs.map Prod.fst
    · obtain ⟨⟨k', w⟩, hw, rfl⟩ := List.mem_map.mp hk
      have hsame := h k' v w hv hw
      rw [hqs] at hsame
      cases hentry : compareEntry T opts (k', w) es pre depth with
      | none =>
        rw [hentry] at hsame
        cases hsame
      | some qs' =>
        rw [hentry] at hsame
        cases hsame with
        | some hsame => exact .inl ⟨(k', w), hw, qs', hentry, (hsame q).mp hq⟩
    · obtain ⟨qs', hqs', hmem⟩ := @compareEntry_of_new T opts fs (k, v) hk pre depth
      cases hqs.symm.trans hqs'
      obtain ⟨heq, hign⟩ := (hmem q).mp hq
      exact .inr (mem_addedKeys.mpr ⟨(k, v), hv, hk, heq, hign⟩)
  · obtain ⟨f, hf, hnew, heq, hign⟩ := mem_addedKeys.mp hq
    obtain ⟨qs, hqs, hmem⟩ := @compareEntry_of_new T opts es f hnew pre depth
    exact .inl ⟨f, hf, qs, hqs, (hmem q).mpr ⟨heq, hign⟩⟩

theorem SameEntries.outcome (h : SameEntries T opts es fs pre depth) :
    SameOutcome ((compareMapFast T opts es fs pre depth).map fun ps =>
      (true, ps ++ addedKeys opts es fs pre))
      ((compareMapFast T opts fs es pre depth).map fun ps =>
      (true, ps ++ addedKeys opts fs es pre)) := by
  cases hps : compareMapFast T opts es fs pre depth with
  | none =>
    rw [h.none hps]
    exact .none
  | some ps =>
    cases hps' : compareMapFast T opts fs es pre depth with
    | none => cases hps.symm.trans (h.symm.none hps')
    | some ps' => exact .some ⟨rfl, fun q => ⟨h.mem hps hps', h.symm.mem hps' hps⟩⟩

theorem symmetric_list {n m : Bool} (h : ∀ v ∈ vs, ∀ w ∈ ws, Symmetric T opts v w) :
    Symmetric T opts (.list n vs) (.list m ws) := by
  intro ro pre depth
  rw [fastCompare, fastCompare]
  by_cases hlen : vs.length = ws.length
  · rw [if_neg (not_not.mpr hlen), if_neg (not_not.mpr hlen.symm)]
    exact (samePaths_items h hlen pre 0 depth).mk_true
  · rw [if_pos hlen, if_pos (Ne.symm hlen)]
    exact sameOutcome_some _ _

theorem symmetric_struct {i : Nat}
    (hcomm : deepEqual (.struct i vs) (.struct i ws) = deepEqual (.struct i ws) (.struct i vs))
    (h : FieldPairs T (fun v w _ _ _ => Symmetric T opts v w) vs ws (T i)) :
    Symmetric T opts (.struct i vs) (.struct i ws) := by
  intro ro pre depth
  rw [fastCompare, fastCompare, hcomm]
  split
  · split
    · exact sameOutcome_some _ _
    · exact (samePaths_fields h pre depth).mk_true
  · split
    · exact .none
    · exact sameOutcome_some _ _

theorem symmetric (hv : Typed T v t) (hw : Typed T w t) : Symmetric T opts v w := by
  induction v, w, t, hv, hw using Typed.pairs with
  | prim x y k =>
    intro ro pre depth
    rw [fastCompare, fastCompare, show decide (x = y) = decide (y = x) by simp [eq_comm]]
    exact sameOutcome_some _ _
  | other x y k =>
    intro ro pre depth
    rw [fastCompare, fastCompare, show decide (x = y) = decide (y = x) by simp [eq_comm]]
    split
    · exact .none
    · exact sameOutcome_some _ _
  | ptr v w k t hv hw _ _ ih => exact ih
  | list n m vs ws t u hv hw hu hvs hws ih => exact symmetric_list ih
  | map n m es fs k key t hv hw hes hfs _ _ ih =>
    intro ro pre depth
    rw [fastCompare, fastCompare]
    refine SameEntries.outcome fun k v w hv hw => ?_
    exact samePaths_entry (ih _ hv _ hw) ((Assoc.lookup_eq_some_iff_mem hes).mpr hv)
      ((Assoc.lookup_eq_some_iff_mem hfs).mpr hw) pre depth
  | iface t v w hv hw _ _ ih =>
    intro ro pre depth
    rw [fastCompare, fastCompare, if_neg (by simp), if_neg (by simp)]
    exact ih ro pre depth
  | ifaceOther t v u w hv hw hu =>
    intro ro pre depth
    rw [fastCompare, fastCompare, if_pos hu, if_pos (Ne.symm hu)]
    exact sameOutcome_some _ _
  | struct i vs ws hv hw h => exact symmetric_struct (deepEqual_comm hv hw) h
  | _ => exact fun _ _ _ => sameOutcome_some _ _

end

/-! ## Completeness -/

section

variable {T : Nat → List Field} {opts : Options} {i : Nat}

structure StructValue (T : Nat → List Field) (i : Nat) where
  fields : List Value
  typed : TypedFields T fields (T i)

def StructValue.arg (a : StructValue T i) : Option (Ty × Value) :=
  some (.struct i, .struct i a.fields)

def StructValue.Agree (a b : StructValue T i) : Prop := agreeFields T a.fields b.fields (T i) = true

/-- The tracker misreads the two values; it does not look at a struct without a field to track. -/
def StructValue.Misread (opts : Options) (a b : StructValue T i) : Prop :=
  if trackable (T i) then misreadFields T opts a.fields b.fields (T i) = true else ¬a.Agree b

/-- Nothing is reported exactly if the two values agree. -/
def StructValue.Told (opts : Options) (a b : StructValue T i) : Prop :=
  ∃ ps, getChangedFields T opts a.arg b.arg = some ps ∧ (ps = [] ↔ a.Agree b)

theorem getChangedFields_arg (hopts : opts.Full) (a b : StructValue T i) :
    getChangedFields T opts a.arg b.arg =
      if trackable (T i) then compareStructsFast T opts a.fields b.fields (T i) [] 0
      else some [] := by
  simp only [getChangedFields, StructValue.arg, Option.bind_some, deref, ne_eq, not_true_eq_false,
    if_false, tooDeep_eq_false hopts, Bool.false_or]
  cases trackable (T i) <;> rfl

theorem told_iff (hopts : opts.Full) (a b : StructValue T i) : a.Told opts b ↔
      (if trackable (T i) then silentFields T a.fields b.fields (T i) else some true) =
        some (agreeFields T a.fields b.fields (T i)) := by
  have hquiet := quiet_fields hopts
    (.of_typed (fun _ _ _ _ => pathless hopts) a.typed b.typed) [] 0
  unfold StructValue.Told StructValue.Agree
  rw [getChangedFields_arg hopts, ← hquiet]
  cases trackable (T i) with
  | false =>
    cases agreeFields T a.fields b.fields (T i) <;> simp
  | true =>
    rw [if_pos rfl, if_pos rfl]
    cases compareStructsFast T opts a.fields b.fields (T i) [] 0 with
    | none => simp [quiet]
    | some ps => cases ps <;> cases agreeFields T a.fields b.fields (T i) <;> simp [quiet]

end

/-- Struct types: a plain one with an `ID`, one that embeds a pointer to it, one that embeds it with
the tag `-`, one with a field named by one letter, U+042D, and one with the tag `-,`, and one that
embeds an unexported type without exported fields. -/
def sampleTypes : Nat → List Field
  | 0 => [⟨[73, 68], [], true, false, .prim 0⟩]
  | 1 => [⟨[66, 97, 115, 101], [], true, true, .ptr 0 (.struct 0)⟩]
  | 2 => [⟨[66, 97, 115, 101], [dash], true, true, .struct 0⟩]
  | 3 => [⟨[73, 68], [], true, false, .prim 0⟩, ⟨[0x42d], [], true, false, .prim 0⟩,
      ⟨[65], [dash, comma], true, false, .prim 0⟩]
  | 4 => [⟨[115], [], false, true, .struct 5⟩]
  | _ => []

def noLimits : Options := ⟨fun _ => false, 0⟩

def int (n : Int) : Value := .prim (.int n)

theorem not_misread_id (a b : StructValue sampleTypes 0) : ¬a.Misread noLimits b := by
  obtain ⟨vs, hvs⟩ := a
  obtain ⟨ws, hws⟩ := b
  cases hvs with
  | cons hv hvs =>
    cases hvs
    cases hws with
    | cons hw hws =>
      cases hws
      cases hv
      cases hw
      exact Bool.false_ne_true

/-- What the tracker says of two values of a sample type, and whether they agree. -/
def sample (i : Nat) (vs ws : List Value) : Option (List Bytes) × Bool :=
  (getChangedFields sampleTypes noLimits (some (.struct i, .struct i vs))
    (some (.struct i, .struct i ws)), agreeFields sampleTypes vs ws (sampleTypes i))

end GoAtlas.Fieldtracker
