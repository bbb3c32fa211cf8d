/-!
# Documents, filters and updates

A document of a MongoDB collection gives a value to some of its fields. A filter is a conjunction of
conditions on single fields and of disjunctions of such. A missing field compares as null for
equality, and is neither above nor below any value. An update fails as a whole if an increment
leaves the 64-bit integers.
-/

namespace GoAtlas.Lib.Document

inductive Value where
  | null
  | int (n : Int)
  | str (s : String)
  | bool (b : Bool)
  | date (ms : Int)
  /-- A value of another type, by its bytes. -/
  | other (bytes : List UInt8)
  deriving DecidableEq

/-- Only values of one type are ordered. -/
def Value.below : Value → Value → Bool
  | .int a, .int b => decide (a < b)
  | .date a, .date b => decide (a < b)
  | _, _ => false

abbrev Doc (φ : Type) : Type := φ → Option Value

inductive Cond where
  | eq (v : Value)
  | ne (v : Value)
  | lt (v : Value)
  | lte (v : Value)
  | gt (v : Value)
  | isIn (vs : List Value)
  | present (yes : Bool)

def Cond.holds : Cond → Option Value → Bool
  | .eq v, x => x.getD .null == v
  | .ne v, x => x.getD .null != v
  | .lt v, x => x.any (·.below v)
  | .lte v, x => x.any fun a => a.below v || a == v
  | .gt v, x => x.any v.below
  | .isIn vs, x => vs.contains (x.getD .null)
  | .present yes, x => x.isSome == yes

variable {φ : Type}

abbrev Fields (φ : Type) : Type := List (φ × Cond)

def Fields.holds (fs : Fields φ) (d : Doc φ) : Bool := fs.all fun p => p.2.holds (d p.1)

structure Query (φ : Type) where
  fields : Fields φ
  anyOf : List (Fields φ)

def Query.holds (q : Query φ) (d : Doc φ) : Bool :=
  Fields.holds q.fields d && (q.anyOf.isEmpty || q.anyOf.any fun fs => Fields.holds fs d)

structure Update (φ : Type) where
  set : List (φ × Value)
  unset : List φ
  inc : List φ

/-- `$inc` by one. -/
def increment : Option Value → Option Value
  | none => some (.int 1)
  | some (.int n) => if n < Int64.maxValue.toInt then some (.int (n + 1)) else none
  | some _ => none

variable [DecidableEq φ]

def Update.apply (u : Update φ) (d : Doc φ) : Option (Doc φ) :=
  if u.inc.all fun f => (increment (d f)).isSome then
    some fun f =>
      if u.unset.contains f then none
      else if u.inc.contains f then increment (d f)
      else (u.set.lookup f).or (d f)
  else none

/-- Whether the update changes the document, which is what a modified count counts. -/
def Update.modifies (u : Update φ) (d : Doc φ) : Bool :=
  u.set.any (fun p => d p.1 != some p.2) || u.unset.any (fun f => (d f).isSome) || !u.inc.isEmpty

/-- An update of the document with some `_id`, if it is there: the document then and whether it was
modified. -/
def updateOne (q : Query φ) (u : Update φ) (d : Option (Doc φ)) : Option (Option (Doc φ) × Bool) :=
  d.elim (some (none, false)) fun doc =>
    if q.holds doc then (u.apply doc).map fun doc' => (some doc', u.modifies doc)
      else some (some doc, false)

theorem updateOne_of_not_holds {q : Query φ} {u : Update φ} {doc : Doc φ}
    (h : q.holds doc = false) :
    updateOne q u (some doc) = some (some doc, false) := by
  simp [updateOne, h]

theorem updateOne_of_holds {q : Query φ} {u : Update φ} {doc doc' : Doc φ} (h : q.holds doc = true)
    (ha : u.apply doc = some doc') :
    updateOne q u (some doc) = some (some doc', u.modifies doc) := by
  simp [updateOne, h, ha]

end GoAtlas.Lib.Document
