import GoAtlas.FieldMask.Mask
import GoAtlas.FieldMask.Message

/-!
# Walking a path down a schema

`pathWalker` follows the segments of a path through the message types and calls back where the path
and the schema part. A missing callback is `none`; what it then does (stop, or go on) is the
walker's. The same walk validates a path and finds list indexes in it.
-/

namespace GoAtlas.FieldMask

variable {σ : Type}

/-- `strconv.Atoi` takes the segment for a number: an optional sign and digits, within an
`int64`. -/
def isNumericSegment (s : String) : Bool :=
  let (negative, digits) := match s.toList with
    | '-' :: rest => (true, rest)
    | '+' :: rest => (false, rest)
    | rest => (false, rest)
  let n := digits.foldl (fun n c => 10 * n + (c.toNat - '0'.toNat)) 0
  !digits.isEmpty && digits.all Char.isDigit && decide (n ≤ if negative then 2 ^ 63 else 2 ^ 63 - 1)

structure ValidationError where
  path : String
  reason : String
  deriving DecidableEq, Repr

structure PathWalker (S : Schema σ) where
  onListIndex : Option (S.Field → String → Bool → Option ValidationError) := none
  onListWildcardOnScalar : Option (S.Field → Option ValidationError) := none
  onListIndexOnScalar : Option (S.Field → Option ValidationError) := none
  onListFieldOnScalar : Option (S.Field → String → Option ValidationError) := none
  onMapScalarValueDeref : Option (S.Field → Option ValidationError) := none
  onMissingField : Option (Fin S.types → String → Option ValidationError) := none
  onNonMessageContext : Option (String → Option ValidationError) := none
  onScalarDeref : Option (S.Field → String → Option ValidationError) := none

inductive After (τ : Type) where
  | fail (e : ValidationError)
  /-- The walk ends without an error. -/
  | stop
  /-- The segment is used up; the rest goes on in the type, if there is one. -/
  | consumed (next : Option τ)
  | field (next : τ)

namespace PathWalker

variable {S : Schema σ} (w : PathWalker S)

/-- A callback that ends the walk with its error, or with none goes on outside any message. -/
def After.called {τ : Type} : Option ValidationError → After τ
  | some e => .fail e
  | none => .consumed none

def afterList (list : S.Field) (part : String) (isLast : Bool) : After (Fin S.types) :=
  if part = wildcardSegment then
    match list.kind with
    | .message t => .consumed (some t)
    | .dynamic _ => .stop
    | .scalar => match isLast, w.onListWildcardOnScalar with
      | false, some call => After.called (call list)
      | _, _ => .stop
  else if isNumericSegment part then
    match (w.onListIndex.bind fun call => call list part isLast) with
    | some e => .fail e
    | none => match list.kind with
      | .message t => .consumed (some t)
      | .dynamic _ => .stop
      | .scalar => match isLast, w.onListIndexOnScalar with
        | false, some call => After.called (call list)
        | _, _ => .stop
  else
    match list.kind with
    | .message t => .field t
    | .dynamic _ => .stop
    | .scalar => match w.onListFieldOnScalar with
      | some call => After.called (call list part)
      | none => .stop

def afterMap (mapField : S.Field) (isLast : Bool) : After (Fin S.types) :=
  match mapField.kind with
  | .message t => .consumed (some t)
  | .dynamic _ => .stop
  | .scalar => match isLast, w.onMapScalarValueDeref with
    | false, some call => match call mapField with
      | some e => .fail e
      | none => .stop
    | _, _ => .stop

/-- The walk over the segments: inside the message type `current`, or right after the list or map
field `previous`. -/
def walkParts : Path → Option (Fin S.types) → Option S.Field → Option ValidationError
  | [], _, _ => none
  | part :: rest, current, previous =>
    let isLast := rest.isEmpty
    let lookup : Option (Fin S.types) → Option ValidationError := fun current =>
      match current with
      | none => w.onNonMessageContext.bind fun call => call part
      | some t => match S.field? t part with
        | none => w.onMissingField.bind fun call => call t part
        | some field =>
          if isLast then none
          else match field.card, field.kind with
            | .singular, .message t' => walkParts rest (some t') none
            | .singular, .dynamic _ => none
            | .singular, .scalar => w.onScalarDeref.bind fun call => call field (rest.headD "")
            | .list, _ => walkParts rest none (some field)
            | .map, _ => walkParts rest none (some field)
    match previous with
    | none => lookup current
    | some field =>
      match (if field.card = .list then w.afterList field part isLast else w.afterMap field isLast)
        with
      | .fail e => some e
      | .stop => none
      | .consumed next => walkParts rest next none
      | .field t => lookup (some t)

def walk (root : Fin S.types) (path : String) : Option ValidationError :=
  if path = "" then none else w.walkParts (splitPath path) (some root) none

end PathWalker

namespace Schema

variable (S : Schema σ)

def validatingWalker (path : String) : PathWalker S where
  onListWildcardOnScalar := some fun list => some
    ⟨path, "cannot access field beyond wildcard on list of scalar type at field: " ++ list.name⟩
  onListIndexOnScalar := some fun list => some
    ⟨path, "cannot access field in list of scalar type at field: " ++ list.name⟩
  onListFieldOnScalar := some fun list segment => some
    ⟨path, "cannot access field '" ++ segment ++ "' in list of scalar type at field: " ++ list.name⟩
  onMapScalarValueDeref := some fun mapField => some
    ⟨path, "cannot access nested field in map with scalar values at field: " ++ mapField.name⟩
  onMissingField := some fun parent segment => some
    ⟨path, "field '" ++ segment ++ "' does not exist in message " ++ S.fullName parent⟩
  onNonMessageContext := some fun segment => some
    ⟨path, "attempting to access field in non-message type at part: " ++ segment⟩
  onScalarDeref := some fun scalar next => some
    ⟨path, "cannot access field '" ++ next ++ "' in scalar field: " ++ scalar.name⟩

def validatePath (t : Fin S.types) (path : String) : Option ValidationError :=
  (S.validatingWalker path).walk t path

def indexWalker (path : String) : PathWalker S where
  onListIndex := some fun list _ _ => some
    ⟨path, "indexed access to repeated field '" ++ list.name ++
      "' is not permitted on update; replace the entire list instead"⟩

def rejectIndexedRepeatedAccess (t : Fin S.types) (path : String) : Option ValidationError :=
  (S.indexWalker path).walk t path

end Schema

/-! ## What a valid path is -/

/-- The segments lead down the schema from a value of this kind and cardinality, without an index:
after a list the element is `*` or left out, after a map any segment is a key. -/
def Resolves (S : Schema σ) : Path → Kind (Fin S.types) → Card → Prop
  | [], _, _ => True
  | s :: p, .message t, .singular => ∃ fd, S.field? t s = some fd ∧ Resolves S p fd.kind fd.card
  | _ :: _, .dynamic _, .singular => True
  | _ :: _, .scalar, .singular => False
  | s :: p, k, .list =>
    if s = wildcardSegment then Resolves S p k .singular
    else match k with
      | .message t => ∃ fd, S.field? t s = some fd ∧ Resolves S p fd.kind fd.card
      | .dynamic _ => True
      | .scalar => False
  | _ :: p, k, .map => Resolves S p k .singular

theorem resolves_dynamic (S : Schema σ) (d : Dynamic) (p : Path) :
    Resolves S p (.dynamic d) .singular := by
  cases p with
  | nil => trivial
  | cons s p => trivial

theorem resolves_list {S : Schema σ} {s : String} {p : Path} {k : Kind (Fin S.types)} :
    Resolves S (s :: p) k .list ↔ if s = wildcardSegment then Resolves S p k .singular
      else match k with
        | .message t => ∃ fd, S.field? t s = some fd ∧ Resolves S p fd.kind fd.card
        | .dynamic _ => True
        | .scalar => False := by
  cases k <;> rfl

theorem resolves_map {S : Schema σ} {s : String} {p : Path} {k : Kind (Fin S.types)} :
    Resolves S (s :: p) k .map ↔ Resolves S p k .singular := by
  cases k <;> rfl

section Valid

variable {S : Schema σ} {path : String}

def Passes (S : Schema σ) (path : String) (parts : Path) (current : Option (Fin S.types))
    (previous : Option S.Field) : Prop :=
  (S.validatingWalker path).walkParts parts current previous = none ∧
    (S.indexWalker path).walkParts parts current previous = none

theorem Passes.field {s : String} {p : Path} {t : Fin S.types}
    (h : Passes S path (s :: p) (some t) none) :
    ∃ fd, S.field? t s = some fd ∧ (p = [] ∨ match fd.card, fd.kind with
      | .singular, .message t' => Passes S path p (some t') none
      | .singular, .dynamic _ => True
      | .singular, .scalar => False
      | _, _ => Passes S path p none (some fd)) := by
  obtain ⟨hv, hi⟩ := h
  simp only [PathWalker.walkParts] at hv hi
  cases hf : S.field? t s with
  | none => simp [hf, Schema.validatingWalker] at hv
  | some fd =>
    refine ⟨fd, rfl, ?_⟩
    cases p with
    | nil => exact .inl rfl
    | cons s' p' =>
      right
      simp only [hf, List.isEmpty_cons, Bool.false_eq_true, if_false] at hv hi
      cases hc : fd.card with
      | singular =>
        cases hk : fd.kind with
        | scalar => simp [hc, hk, Schema.validatingWalker] at hv
        | message t' => exact ⟨by simpa [hc, hk] using hv, by simpa [hc, hk] using hi⟩
        | dynamic d => trivial
      | list => exact ⟨by simpa [hc] using hv, by simpa [hc] using hi⟩
      | map => exact ⟨by simpa [hc] using hv, by simpa [hc] using hi⟩

theorem Passes.list {s : String} {p : Path} {fd : S.Field} (hc : fd.card = .list)
    (h : Passes S path (s :: p) none (some fd)) :
    if s = wildcardSegment then match fd.kind with
      | .message t => Passes S path p (some t) none
      | .dynamic _ => True
      | .scalar => p = []
    else match fd.kind with
      | .message t => Passes S path (s :: p) (some t) none
      | .dynamic _ => True
      | .scalar => False := by
  obtain ⟨hv, hi⟩ := h
  simp only [PathWalker.walkParts, hc, if_true, PathWalker.afterList.eq_def] at hv hi
  split
  · rename_i hs
    simp only [hs, if_true] at hv hi
    cases hk : fd.kind with
    | message t => exact ⟨by simpa [hk] using hv, by simpa [hk] using hi⟩
    | dynamic d => trivial
    | scalar =>
      cases p with
      | nil => rfl
      | cons s' p' => simp [hk, Schema.validatingWalker, PathWalker.After.called] at hv
  · rename_i hs
    simp only [hs, if_false] at hv hi
    cases hnum : isNumericSegment s with
    | true => simp [hnum, Schema.indexWalker] at hi
    | false =>
      cases hk : fd.kind with
      | message t =>
        constructor
        · simpa [hk, hnum, PathWalker.walkParts] using hv
        · simpa [hk, hnum, PathWalker.walkParts] using hi
      | dynamic d => trivial
      | scalar => simp [hk, hnum, Schema.validatingWalker, PathWalker.After.called] at hv

theorem Passes.map {s : String} {p : Path} {fd : S.Field} (hc : fd.card = .map)
    (h : Passes S path (s :: p) none (some fd)) :
    match fd.kind with
      | .message t => Passes S path p (some t) none
      | .dynamic _ => True
      | .scalar => p = [] := by
  obtain ⟨hv, hi⟩ := h
  simp only [PathWalker.walkParts, hc, PathWalker.afterMap, reduceCtorEq, if_false] at hv hi
  cases hk : fd.kind with
  | message t => exact ⟨by simpa [hk] using hv, by simpa [hk] using hi⟩
  | dynamic d => trivial
  | scalar =>
    cases p with
    | nil => rfl
    | cons s' p' => simp [hk, Schema.validatingWalker] at hv

/-- From a field on, given what the rest of the walk shows. -/
theorem resolves_after {p : Path} {fd : S.Field}
    (hmsg : ∀ t, Passes S path p (some t) none → Resolves S p (.message t) .singular)
    (hcol : fd.card ≠ .singular → Passes S path p none (some fd) → Resolves S p fd.kind fd.card)
    (h : p = [] ∨ match fd.card, fd.kind with
      | .singular, .message t' => Passes S path p (some t') none
      | .singular, .dynamic _ => True
      | .singular, .scalar => False
      | _, _ => Passes S path p none (some fd)) : Resolves S p fd.kind fd.card := by
  obtain rfl | h := h
  · simp [Resolves]
  cases hc : fd.card with
  | singular =>
    rw [hc] at h
    cases hk : fd.kind with
    | scalar => simp [hk] at h
    | message t => exact hmsg t (by simpa [hk] using h)
    | dynamic d => exact resolves_dynamic S d p
  | list =>
    rw [hc] at h hcol
    exact hcol (by simp) h
  | map =>
    rw [hc] at h hcol
    exact hcol (by simp) h

/-- A path that both walks pass leads down the schema. -/
theorem resolves_of_passes (p : Path) :
    (∀ t, Passes S path p (some t) none → Resolves S p (.message t) .singular) ∧
      ∀ fd : S.Field, fd.card ≠ .singular → Passes S path p none (some fd) →
        Resolves S p fd.kind fd.card := by
  induction p with
  | nil => exact ⟨fun _ _ => trivial, fun _ _ _ => by simp [Resolves]⟩
  | cons s p ih =>
    have hfield {t : Fin S.types} (h : Passes S path (s :: p) (some t) none) :
        ∃ fd, S.field? t s = some fd ∧ Resolves S p fd.kind fd.card := by
      obtain ⟨fd, hfd, hrest⟩ := h.field
      exact ⟨fd, hfd, resolves_after ih.1 (ih.2 fd) hrest⟩
    refine ⟨fun t h => hfield h, fun fd hc h => ?_⟩
    cases hcard : fd.card with
    | singular => exact absurd hcard hc
    | list =>
      have hl := h.list hcard
      rw [resolves_list]
      split at hl
      · rename_i hs
        rw [if_pos hs]
        cases hk : fd.kind with
        | scalar =>
          simp only [hk] at hl
          subst hl
          trivial
        | message t => exact ih.1 t (by simpa [hk] using hl)
        | dynamic d => exact resolves_dynamic S d p
      · rename_i hs
        rw [if_neg hs]
        cases hk : fd.kind with
        | scalar => simp [hk] at hl
        | message t => exact hfield (by simpa [hk] using hl)
        | dynamic d => trivial
    | map =>
      have hm := h.map hcard
      rw [resolves_map]
      cases hk : fd.kind with
      | scalar =>
        simp only [hk] at hm
        subst hm
        trivial
      | message t => exact ih.1 t (by simpa [hk] using hm)
      | dynamic d => exact resolves_dynamic S d p

theorem resolves_of_valid {t : Fin S.types} (hv : S.validatePath t path = none)
    (hi : S.rejectIndexedRepeatedAccess t path = none) :
    Resolves S (splitPath path) (.message t) .singular := by
  simp only [Schema.validatePath, Schema.rejectIndexedRepeatedAccess, PathWalker.walk] at hv hi
  split at hv
  · rename_i hempty
    rw [splitPath, if_pos hempty]
    trivial
  · rename_i hne
    rw [if_neg hne] at hi
    exact (resolves_of_passes _).1 t ⟨hv, hi⟩

end Valid

end GoAtlas.FieldMask
