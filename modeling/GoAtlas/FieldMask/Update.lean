import Mathlib.Data.List.Dedup
import GoAtlas.FieldMask.PathWalker
import GoAtlas.FieldMask.Walk

/-!
# Update masks

`ApplyUpdateMask` checks a mask against the field behaviors of the schema, takes the `OUTPUT_ONLY`
fields out of it, adds the set identifiers, filters the message and sets the selected fields that
are unset to their defaults. A mask stands for a message, for the elements of a list or for the
values of a map (`Ctx`). Go iterates a map in any order; only `setDefaultsForUnsetFields` depends on
it, and gets the order of each of the mask's maps as an argument.
-/

namespace GoAtlas.FieldMask

variable {σ : Type}

structure FieldViolation where
  path : String
  behavior : Behavior
  reason : String
  deriving DecidableEq, Repr

inductive UpdateError where
  | validation (e : ValidationError)
  | behavior (violations : List FieldViolation)
  deriving DecidableEq, Repr

inductive Ctx (τ : Type) where
  | message (t : τ)
  | list (t : τ)
  | map (t : τ)
  deriving DecidableEq, Repr

/-- What a sub-mask of the field selects from: a singular message (`isExpandableMessage`), or the
messages of a collection (`wildcardElementDescriptor`). -/
def FieldDesc.below? {τ : Type} (fd : FieldDesc σ τ) : Option (Ctx τ) :=
  match fd.card, fd.kind with
  | .singular, .message t => some (.message t)
  | .list, .message t => some (.list t)
  | .map, .message t => some (.map t)
  | _, _ => none

/-- The keys of a mask in lexicographic order, `slices.Sorted(maps.Keys(msk))`. -/
def sortedKeys (keys : List String) : List String := keys.mergeSort fun a b => decide (a ≤ b)

def elementPath (pre key : String) : String :=
  if key = "" then pre else joinPath pre (quotePathSegment key)

namespace Schema

variable (S : Schema σ)

/-! ## Checks -/

def protectedReason : Behavior → String
  | .outputOnly =>
    "output-only field would be replaced with its parent; list the parent's other fields in the update mask"
  | .identifier =>
    "identifier field cannot be modified by replacing its parent; list the parent's other fields in the update mask"
  | _ =>
    "immutable field cannot be modified by replacing its parent; list the parent's other fields in the update mask"

/-- The server-managed fields of a message type and of its singular sub-messages. `visited` are the
types on the way to this one, so `fuel` need only cover the number of types. -/
def protectedLoop : Nat → Fin S.types → String → List (Fin S.types) → List FieldViolation
  | 0, _, _, _ => []
  | fuel + 1, md, pre, visited => (S.fields md).flatMap fun fd =>
    if fd.serverManagedBehavior ≠ .unspecified then
      [⟨joinPath pre fd.name, fd.serverManagedBehavior, protectedReason fd.serverManagedBehavior⟩]
    else match fd.expandable? with
      | none => []
      | some t =>
        if t ∈ md :: visited then []
        else protectedLoop fuel t (joinPath pre fd.name) (md :: visited)

def protectedDescendants (md : Fin S.types) (pre : String) : List FieldViolation :=
  S.protectedLoop S.types md pre []

def identifierViolation (path : String) : FieldViolation :=
  ⟨path, .identifier, "identifier field cannot be modified"⟩

def immutableViolation (path : String) : FieldViolation :=
  ⟨path, .immutable, "immutable field cannot be modified"⟩

def requiredViolation (path : String) : FieldViolation :=
  ⟨path, .required, "required field cannot be cleared"⟩

/-- A field that the mask names whole, or with a sub-mask that `below` checks. -/
def selectionViolations (fd : S.Field) (path : String) (isLeaf : Bool)
    (below : Ctx (Fin S.types) → List FieldViolation) : List FieldViolation :=
  if isLeaf then
    match fd.expandable? with
    | some t => S.protectedDescendants t path
    | none => []
  else match fd.below? with
    | some ctx => below ctx
    | none => []

def schemaViolations (md : Fin S.types) (name path : String) (isLeaf : Bool)
    (below : Ctx (Fin S.types) → List FieldViolation) : List FieldViolation :=
  match S.field? md name with
  | none => []
  | some fd => match fd.serverManagedBehavior with
    | .outputOnly => []
    | .identifier => [identifierViolation path]
    | .immutable => [immutableViolation path]
    | _ => S.selectionViolations fd path isLeaf below

/-- `validateSchemaBehaviors` of a message, and `validateElementBehaviors` of a collection: a list
has the fields of its elements in the mask itself and in the sub-mask of the wildcard, a map in the
sub-mask of every key. -/
def validateSchemaBehaviors : Mask → Ctx (Fin S.types) → String → List FieldViolation
  | .leaf, _, _ => []
  | .node keys sub, ctx, pre =>
    let fields : Fin S.types → List FieldViolation := fun md =>
      (sortedKeys keys).flatMap fun name =>
        S.schemaViolations md name (joinPath pre name) (sub name).isLeaf
          fun ctx => validateSchemaBehaviors (sub name) ctx (joinPath pre name)
    match ctx with
    | .message md => fields md
    | .list elem => fields elem ++
      if wildcardSegment ∈ keys then
        validateSchemaBehaviors (sub wildcardSegment) (.message elem)
          (elementPath pre wildcardSegment)
      else []
    | .map elem => (sortedKeys keys).flatMap fun key =>
      validateSchemaBehaviors (sub key) (.message elem) (elementPath pre key)

def fieldViolations (md : Fin S.types) (f : Fields σ) (name path : String) (isLeaf : Bool)
    (below : Ctx (Fin S.types) → List FieldViolation) : List FieldViolation :=
  match S.field? md name with
  | none => []
  | some fd =>
    if fd.hasBehavior .outputOnly then []
    else if fd.hasBehavior .identifier then [identifierViolation path]
    else if fd.hasBehavior .immutable then [immutableViolation path]
    else if fd.hasBehavior .required && !(f name).has then [requiredViolation path]
    else S.selectionViolations fd path isLeaf below

def validateFieldBehaviors : Mask → Fin S.types → Fields σ → String → List FieldViolation
  | .leaf, _, _, _ => []
  | .node keys sub, md, f, pre => (sortedKeys keys).flatMap fun name =>
    S.fieldViolations md f name (joinPath pre name) (sub name).isLeaf fun ctx => match ctx with
      | .message t => validateFieldBehaviors (sub name) t (f name).fields (joinPath pre name)
      | ctx => S.validateSchemaBehaviors (sub name) ctx (joinPath pre name)

/-! ## The mask that is applied -/

/-- Which fields are taken out of a mask, and whether an empty branch below a singular field that is
not a message goes too. -/
structure Removal (S : Schema σ) where
  drops : S.Field → Bool
  emptyValues : Bool

/-- Whether the entry of a field stays, with its sub-mask edited by `edit`. -/
def entryStays (r : Removal S) (md : Fin S.types) (name : String) (sub : Mask)
    (edit : Ctx (Fin S.types) → Mask) : Bool :=
  match S.field? md name with
  | none => true
  | some fd => !r.drops fd && (sub.isLeaf || match fd.below? with
    | some ctx => !(edit ctx).isEmpty
    | none => !(r.emptyValues && fd.card = .singular && sub.isEmpty))

def entryRest (md : Fin S.types) (name : String) (sub : Mask) (edit : Ctx (Fin S.types) → Mask) :
    Mask :=
  match (S.field? md name).bind FieldDesc.below? with
  | some ctx => edit ctx
  | none => sub

/-- Takes fields out of a mask and of its sub-masks, and with them the branches this leaves
empty. -/
def withoutFields (r : Removal S) : Mask → Ctx (Fin S.types) → Mask
  | .leaf, _ => .leaf
  | .node keys sub, ctx => match ctx with
    | .message md =>
      .node (keys.filter fun name => S.entryStays r md name (sub name) (withoutFields r (sub name)))
        fun name => S.entryRest md name (sub name) (withoutFields r (sub name))
    | .list elem =>
      .node
        (keys.filter fun name =>
          if name = wildcardSegment then
            (sub name).isLeaf || !(withoutFields r (sub name) (.message elem)).isEmpty
          else S.entryStays r elem name (sub name) (withoutFields r (sub name)))
        fun name =>
          if name = wildcardSegment then withoutFields r (sub name) (.message elem)
          else S.entryRest elem name (sub name) (withoutFields r (sub name))
    | .map elem =>
      -- the key "" stays with an empty sub-mask: the loop takes it for the list's own form
      .node (keys.filter fun key => key = "" || (sub key).isLeaf ||
          !(withoutFields r (sub key) (.message elem)).isEmpty)
        fun key => withoutFields r (sub key) (.message elem)

/-- `stripOutputOnlyForDescriptor`. -/
def removeOutputOnlyFields (msk : Mask) (md : Fin S.types) : Mask :=
  S.withoutFields ⟨fun fd => fd.hasBehavior .outputOnly, false⟩ msk (.message md)

def dropIdentifiers (msk : Mask) (md : Fin S.types) : Mask :=
  S.withoutFields ⟨fun fd => fd.hasBehavior .identifier, true⟩ msk (.message md)

def identifierFields (md : Fin S.types) : List S.Field :=
  (S.fields md).filter fun fd => fd.serverManagedBehavior = .identifier

/-- Whether a walk over messages can find an identifier to add, for a message or for the elements of
a collection. -/
def mayPreserve : Mask → Ctx (Fin S.types) → Bool
  | .leaf, _ => false
  | .node keys sub, ctx =>
    let fields : Fin S.types → Bool := fun md =>
      !(S.identifierFields md).isEmpty || keys.any fun name =>
        !(sub name).isLeaf && match (S.field? md name).bind FieldDesc.below? with
          | some below => mayPreserve (sub name) below
          | none => false
    let elements : Fin S.types → Bool := fun elem =>
      keys.any fun key => !(sub key).isLeaf && mayPreserve (sub key) (.message elem)
    match ctx with
    | .message md => fields md
    | .list elem => fields elem || elements elem
    | .map elem => elements elem

def addIdentifiers (md : Fin S.types) (f : Fields σ) (msk : Mask) : Mask :=
  (S.identifierFields md).foldl (fun msk fd =>
    if (f fd.name).has ∧ msk.get? fd.name = none then msk.set fd.name .leaf else msk) msk

/-- `preserveIdentifiers` of a message and `preserveElementIdentifiers` of a collection, whose
elements share their masks. -/
def preserve : Val σ → Kind (Fin S.types) → Card → Mask → Mask
  | .message f, .message md, .singular, msk =>
    match S.addIdentifiers md f msk with
    | .leaf => .leaf
    | .node keys sub => .node keys fun name =>
      if (sub name).isLeaf then sub name
      else match S.field? md name with
        | none => sub name
        | some fd => if (f name).has then preserve (f name) fd.kind fd.card (sub name) else sub name
  | .list n e, .message elem, .list, nested =>
    match nested.get? wildcardSegment with
    | some wildcard =>
      if wildcard.isLeaf || !S.mayPreserve wildcard (.message elem) then nested
      else nested.set wildcardSegment
        ((List.range n).foldl (fun m i => preserve (e i) (.message elem) .singular m) wildcard)
    | none =>
      if !S.mayPreserve nested (.message elem) then nested
      else (List.range n).foldl (fun m i => preserve (e i) (.message elem) .singular m) nested
  | .map keys e, .message elem, .map, nested =>
    match nested.get? wildcardSegment with
    | none => nested.keys.foldl (fun acc key => match acc.get? key with
      | none => acc
      | some sub =>
        if sub.isLeaf || !S.mayPreserve sub (.message elem) || !keys.contains key then acc
        else acc.set key (preserve (e key) (.message elem) .singular sub)) nested
    | some _ =>
      if !S.mayPreserve nested (.map elem) then nested
      else keys.foldl (fun acc key =>
        let at_ := if (acc.get? key).isSome then key else wildcardSegment
        match acc.get? at_ with
        | none => acc
        | some sub =>
          if sub.isLeaf then acc else acc.set at_ (preserve (e key) (.message elem) .singular sub))
        nested
  | _, _, _, msk => msk

def preserveIdentifierFields (msk : Mask) (md : Fin S.types) (f : Fields σ) : Mask :=
  S.preserve (.message f) (.message md) .singular msk

/-! ## Defaults -/

/-- `Set`: a field of a oneof clears the others. -/
def setField (md : Fin S.types) (f : Fields σ) (fd : S.Field) (v : Val σ) : Fields σ := fun name =>
  if name = fd.name then v
  else if fd.oneof.isSome ∧ ((S.field? md name).bind FieldDesc.oneof) = fd.oneof then .unset
  else f name

/-- The order in which a map of the mask is iterated, by the path to it. -/
structure Order where
  keys : Path → List String → List String
  perm : ∀ path l, (keys path l).Perm l

def Order.asListed : Order := ⟨fun _ l => l, fun _ l => .refl l⟩

/-- The default that is set for an unset field: what `below` sets in an empty message, and the value
that is there but empty of a list (`materializeEmptyList`) or a map. -/
def defaultOf (fd : S.Field) (isLeaf : Bool) (below : Fin S.types → Fields σ → Fields σ) : Val σ :=
  match fd.card, fd.kind with
  | .list, _ => .list 0 fun _ => .unset
  | .map, _ => .map [] fun _ => .unset
  | .singular, .message t => .message (if isLeaf then fun _ => .unset else below t fun _ => .unset)
  | .singular, .dynamic .struct => .struct [] fun _ => .unset
  | .singular, .dynamic .listValue => .listValue 0 fun _ => .unset
  | .singular, .dynamic .value => .scalar fd.default
  | .singular, .scalar => if fd.presence then .scalar fd.default else .unset

def setDefault (md : Fin S.types) (name : String) (isLeaf : Bool)
    (below : Fin S.types → Fields σ → Fields σ) (f : Fields σ) : Fields σ :=
  match S.field? md name with
  | none => f
  | some fd =>
    if (f name).has then
      match isLeaf, fd.expandable? with
      | false, some t => Function.update f name (.message (below t (f name).fields))
      | _, _ => f
    else S.setField md f fd (S.defaultOf fd isLeaf below)

def setDefaultsForUnsetFields (ord : Order) :
    Mask → Path → Fin S.types → Fields σ → Fields σ
  | .leaf, _, _, f => f
  | .node keys sub, path, md, f => (ord.keys path keys.dedup).foldl (fun f name =>
    S.setDefault md name (sub name).isLeaf
      (fun t => setDefaultsForUnsetFields ord (sub name) (path ++ [name]) t) f) f

/-! ## ApplyUpdateMask -/

inductive PathValidationMode where
  | disabled | warn | enforce
  deriving DecidableEq, Repr

/-- What a successful call leaves: the mask, the message, and the paths it reported. -/
structure Applied (σ : Type) where
  msk : Mask
  fields : Fields σ
  reported : List ValidationError

/-- The checks, with the paths that are reported but not refused. -/
def checkUpdateMask (mode : PathValidationMode) (msk : Mask) (md : Fin S.types) (f : Fields σ) :
    Except UpdateError (List ValidationError) :=
  let invalid := msk.toPaths.filterMap (S.validatePath md)
  match mode, invalid.head? with
  | .enforce, some e => .error (.validation e)
  | _, _ =>
    match msk.toPaths.findSome? (S.rejectIndexedRepeatedAccess md) with
    | some e => .error (.validation e)
    | none =>
      let violations := S.validateFieldBehaviors msk md f ""
      if violations ≠ [] then .error (.behavior violations)
      else .ok (if mode = .warn then invalid else [])

def appliedMask (msk : Mask) (md : Fin S.types) (f : Fields σ) : Mask :=
  S.preserveIdentifierFields (S.removeOutputOnlyFields msk md) md f

def applyUpdateMask (ord : Order) (mode : PathValidationMode) (msk : Mask) (md : Fin S.types)
    (f : Fields σ) : Except UpdateError (Applied σ) :=
  (S.checkUpdateMask mode msk md f).map fun reported =>
    let msk := S.appliedMask msk md f
    { msk
      fields := S.setDefaultsForUnsetFields ord msk [] md (msk.iterateFilter (.message f)).fields
      reported }

end Schema

end GoAtlas.FieldMask
