import GoAtlas.FieldMask.Mask
import GoAtlas.FieldMask.Message

/-!
# Filter and Prune

One walk over a message and a mask, with callbacks for what the mask matches and what it does not.
`Filter` clears what is not matched, `Prune` what is.
-/

namespace GoAtlas.FieldMask

variable {σ : Type}

/-- The callbacks of a walk: what becomes of a value, or whether an entry stays. -/
structure MaskOp (σ : Type) where
  onUnmatched : Val σ → Val σ
  onLeaf : Val σ → Val σ
  onListWildcardLeaf : Val σ → Val σ
  onMapEntryUnmatched : Bool
  onMapEntryLeaf : Bool
  onStructUnmatched : Bool
  onStructLeaf : Bool

/-- The mask of a map entry: that of its key before that of the wildcard. -/
def Mask.keyed? (nested : Mask) (key : String) : Option Mask :=
  (nested.get? key).or (nested.get? wildcardSegment)

/-- `FieldMask.walk`, for a field as for a message: a mask below a scalar changes nothing. -/
def walk (op : MaskOp σ) : Val σ → Mask → Val σ
  | .message f, msk => .message fun name => match msk.get? name with
    | none => op.onUnmatched (f name)
    | some nested => if nested.isLeaf then op.onLeaf (f name) else walk op (f name) nested
  | .list n e, nested => match nested.get? wildcardSegment with
    | none => .list n fun i => walk op (e i) nested
    | some wildcardMask =>
      if wildcardMask.isLeaf then op.onListWildcardLeaf (.list n e)
      else .list n fun i => walk op (e i) wildcardMask
  | .map keys e, nested =>
    .map
      (keys.filter fun k => match nested.keyed? k with
        | none => op.onMapEntryUnmatched
        | some finalMask => !finalMask.isLeaf || op.onMapEntryLeaf)
      fun k => match nested.keyed? k with
        | none => e k
        | some finalMask => if finalMask.isLeaf then e k else walk op (e k) finalMask
  -- `walkStruct` and `walkListValue`: every key of a struct is matched by itself, and the elements
  -- of a list value by the mask of the list
  | .struct keys e, msk =>
    .struct
      (keys.filter fun k => match msk.get? k with
        | none => op.onStructUnmatched
        | some nested => !nested.isLeaf || op.onStructLeaf)
      fun k => match msk.get? k with
        | none => e k
        | some nested => if nested.isLeaf then e k else walk op (e k) nested
  | .listValue n e, msk => .listValue n fun i => walk op (e i) msk
  | v, _ => v

def filterOp : MaskOp σ where
  onUnmatched _ := .unset
  onLeaf v := v
  onListWildcardLeaf v := v
  onMapEntryUnmatched := false
  onMapEntryLeaf := true
  onStructUnmatched := false
  onStructLeaf := true

def pruneOp : MaskOp σ where
  onUnmatched v := v
  onLeaf _ := .unset
  onListWildcardLeaf _ := .unset
  onMapEntryUnmatched := true
  onMapEntryLeaf := false
  onStructUnmatched := true
  onStructLeaf := false

namespace Mask

def iterateFilter (msk : Mask) (v : Val σ) : Val σ := walk filterOp v msk

def iteratePrune (msk : Mask) (v : Val σ) : Val σ := walk pruneOp v msk

/-- An empty mask filters nothing. -/
def filter (msk : Mask) (v : Val σ) : Val σ := if msk.isEmpty then v else msk.iterateFilter v

def prune (msk : Mask) (v : Val σ) : Val σ := if msk.isEmpty then v else msk.iteratePrune v

end Mask

end GoAtlas.FieldMask
