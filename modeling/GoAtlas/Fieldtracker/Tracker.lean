import GoAtlas.Fieldtracker.Values
import GoAtlas.Lib.Numeral
import GoAtlas.Lib.Trim

/-!
# The field tracker

`GetChangedFields` of `domain/fieldtracker`: which paths it reports for two values of one struct
type. A difference is reported in two ways, by an appended path or by a result that the caller turns
into a path.
-/

namespace GoAtlas.Fieldtracker

open Lib

/-! ## Names and paths -/

def dash : UInt8 := 45

/-- One code point of a name, cut to a byte. -/
def snakeRune (first : Bool) (r : Nat) : Bytes :=
  if 65 ≤ r ∧ r ≤ 90 then (if first then [] else [95]) ++ [UInt8.ofNat (r + 32)]
    else [UInt8.ofNat r]

def toSnakeCaseFast : List Nat → Bytes
  | [] => []
  | r :: rs => snakeRune true r ++ rs.flatMap (snakeRune false)

def Field.tagPart (f : Field) : Bytes := f.tag.takeWhile (· ≠ comma)

def getFieldNameFast (f : Field) : Bytes :=
  if f.tagPart = [] then toSnakeCaseFast f.name else f.tagPart

def fieldPathOf (pre name : Bytes) : Bytes := if pre = [] then name else pre ++ 46 :: name

/-- `prefix[i]`. -/
def bracketed (pre text : Bytes) : Bytes := pre ++ 91 :: text ++ [93]

def formatMapKey : MapKey → Bytes
  | .string s => s
  | .int n => signed n
  | .uint n => decimal n
  | .bool b => if b then [116, 114, 117, 101] else [102, 97, 108, 115, 101]
  -- "<T Value>"
  | .other _ typ => 60 :: typ ++ [32, 86, 97, 108, 117, 101, 62]

/-! ## Types -/

/-- An embedded struct, or an embedded pointer to one. -/
def Field.isEmbedded (f : Field) : Bool :=
  f.anonymous && match f.typ with
    | .struct _ => true
    | .ptr _ (.struct _) => true
    | _ => false

/-- The `trackable` of `buildTypeInfoFast`. -/
def trackable (fields : List Field) : Bool :=
  fields.any fun f => f.isEmbedded || (f.isExported && getFieldNameFast f ≠ [dash])

structure Options where
  ignoreFields : Bytes → Bool
  maxDepth : Int

def Options.tooDeep (opts : Options) (depth : Nat) : Bool :=
  0 < opts.maxDepth && opts.maxDepth < depth

/-! ## The comparison -/

def reported (path : Bytes) (r : Bool × List Bytes) : List Bytes :=
  r.2 ++ if r.1 then [] else [path]

section

variable (T : Nat → List Field) (opts : Options)

/-- The paths of the keys that only the second map has. -/
def addedKeys (es fs : List (MapKey × Value)) (pre : Bytes) : List Bytes :=
  (fs.filter fun f => f.1 ∉ es.map Prod.fst).map (fun f => bracketed pre (formatMapKey f.1))
    |>.filter fun p => !opts.ignoreFields p

mutual

/-- The result and the paths that are appended; no result is a panic. A value that comes from an
embedded field of an unexported type (`ro`) cannot be given to `DeepEqual`. The two values are of
one type. `primitiveEqual`, which the callers try first, decides primitive values in the same
way. -/
def fastCompare (ro : Bool) : Value → Value → Bytes → Nat → Option (Bool × List Bytes)
  | .prim x, .prim y, _, _ => some (x = y, [])
  | .other x, .other y, _, _ => if ro then none else some (x = y, [])
  | .nilPtr, .nilPtr, _, _ => some (true, [])
  | .nilPtr, .ptr _, _, _ => some (false, [])
  | .ptr _, .nilPtr, _, _ => some (false, [])
  | .ptr v, .ptr w, pre, depth => fastCompare ro v w pre depth
  | .list _ vs, .list _ ws, pre, depth =>
    if vs.length ≠ ws.length then some (true, if opts.ignoreFields pre then [] else [pre])
    else (compareSliceFast vs ws pre 0 depth).map (true, ·)
  | .map _ es, .map _ fs, pre, depth =>
    (compareMapFast es fs pre depth).map fun ps => (true, ps ++ addedKeys opts es fs pre)
  | .nilIface, .nilIface, _, _ => some (true, [])
  | .nilIface, .iface _ _, _, _ => some (false, [])
  | .iface _ _, .nilIface, _, _ => some (false, [])
  | .iface t v, .iface u w, pre, depth =>
    if t ≠ u then some (false, []) else fastCompare ro v w pre depth
  | .struct i vs, .struct _ ws, pre, depth =>
    if trackable (T i) then
      if opts.tooDeep depth then some (true, [])
      else (compareStructsFast vs ws (T i) pre depth).map (true, ·)
    else if ro then none
    else some (deepEqual (.struct i vs) (.struct i ws), [])
  | _, _, _, _ => some (true, [])
termination_by structural v => v

def compareStructsFast : List Value → List Value → List Field → Bytes → Nat → Option (List Bytes)
  | v :: vs, w :: ws, f :: fields, pre, depth =>
    -- the result for an embedded field is dropped
    (if f.isEmbedded then (fastCompare (!f.isExported) v w pre (depth + 1)).map Prod.snd
      else if !f.isExported || getFieldNameFast f = [dash] then some []
      else if opts.ignoreFields (fieldPathOf pre (getFieldNameFast f)) then some []
      else (fastCompare false v w (fieldPathOf pre (getFieldNameFast f)) (depth + 1)).map
        (reported (fieldPathOf pre (getFieldNameFast f)))).bind fun ps =>
    (compareStructsFast vs ws fields pre depth).map (ps ++ ·)
  | _, _, _, _, _ => some []
termination_by structural vs => vs

/-- The loop over the elements from `i` on. -/
def compareSliceFast : List Value → List Value → Bytes → Nat → Nat → Option (List Bytes)
  | v :: vs, w :: ws, pre, i, depth =>
    ((fastCompare false v w (bracketed pre (decimal i)) depth).map fun r =>
      if opts.ignoreFields (bracketed pre (decimal i)) then r.2
      else reported (bracketed pre (decimal i)) r).bind fun ps =>
    (compareSliceFast vs ws pre (i + 1) depth).map (ps ++ ·)
  | _, _, _, _, _ => some []
termination_by structural vs => vs

def compareMapFast : List (MapKey × Value) → List (MapKey × Value) → Bytes → Nat →
    Option (List Bytes)
  | [], _, _, _ => some []
  | e :: es, fs, pre, depth =>
    (compareEntry e fs pre depth).bind fun ps => (compareMapFast es fs pre depth).map (ps ++ ·)
termination_by structural es => es

def compareEntry : MapKey × Value → List (MapKey × Value) → Bytes → Nat → Option (List Bytes)
  | (k, v), fs, pre, depth =>
    match fs.lookup k with
    | none =>
      some (if opts.ignoreFields (bracketed pre (formatMapKey k)) then []
        else [bracketed pre (formatMapKey k)])
    | some w =>
      (fastCompare false v w (bracketed pre (formatMapKey k)) depth).map fun r =>
        if opts.ignoreFields (bracketed pre (formatMapKey k)) then r.2
        else reported (bracketed pre (formatMapKey k)) r
termination_by structural e => e

end

def deref : Ty × Value → Option (Ty × Value)
  | (.ptr _ _, .nilPtr) => none
  | (.ptr _ t, .ptr v) => some (t, v)
  | a => some a

/-- `GetChangedFields`; an argument is an interface, which may be nil. -/
def getChangedFields (before after : Option (Ty × Value)) : Option (List Bytes) :=
  match before.bind deref, after.bind deref with
  | some (.struct i, .struct _ vs), some (.struct j, .struct _ ws) =>
    if i ≠ j then some []
    else if opts.tooDeep 0 || !trackable (T i) then some []
    else compareStructsFast T opts vs ws (T i) [] 0
  | _, _ => some []

end

end GoAtlas.Fieldtracker
