import Mathlib.Data.List.DropRight
import Mathlib.Data.String.Basic
import Mathlib.Logic.Function.Basic

/-!
# Field masks

A `FieldMask` is a map from segments to sub-masks, and a `nil` sub-mask is a leaf: everything below
it is selected. Here a mask that is not a leaf has its keys and, for each of them, a sub-mask; what
the function gives for other keys is never read. Go iterates a map in any order; the keys are in the
order of the iteration.
-/

namespace GoAtlas.FieldMask

def pathSeparator : Char := '.'

def quoteChar : Char := '\x60'

def wildcardSegment : String := "*"

abbrev Path := List String

inductive Mask where
  | leaf
  | node (keys : List String) (sub : String → Mask)

namespace Mask

/-- `make(FieldMask)`. -/
def empty : Mask := .node [] fun _ => .leaf

def isLeaf : Mask → Bool
  | .leaf => true
  | .node _ _ => false

def keys : Mask → List String
  | .leaf => []
  | .node keys _ => keys

/-- `nested, exists := msk[key]`. -/
def get? : Mask → String → Option Mask
  | .leaf, _ => none
  | .node keys sub, key => if key ∈ keys then some (sub key) else none

/-- `msk[key] = value`. -/
def set : Mask → String → Mask → Mask
  | .leaf, key, value => .node [key] fun _ => value
  | .node keys sub, key, value =>
    .node (if key ∈ keys then keys else keys ++ [key]) (Function.update sub key value)

def isEmpty (m : Mask) : Bool := m.keys.isEmpty

variable {key : String} {keys : List String} {sub : String → Mask} {value : Mask}

theorem get?_node_of_mem (h : key ∈ keys) : (node keys sub).get? key = some (sub key) := if_pos h

theorem get?_node_of_not_mem (h : key ∉ keys) : (node keys sub).get? key = none := if_neg h

theorem mem_set_keys (keys : List String) (key name : String) :
    name ∈ (if key ∈ keys then keys else keys ++ [key]) ↔ name = key ∨ name ∈ keys := by
  split
  · rename_i h
    exact ⟨.inr, fun hor => hor.elim (fun heq => heq ▸ h) id⟩
  · simp only [List.mem_append, List.mem_singleton]
    exact or_comm

theorem get?_set (m : Mask) (key : String) (value : Mask) (name : String) :
    (m.set key value).get? name = if name = key then some value else m.get? name := by
  cases m with
  | leaf => simp [set, get?]
  | node keys sub =>
    simp only [set, get?, mem_set_keys, Function.update_apply]
    by_cases h : name = key <;> simp [h]

@[simp] theorem isLeaf_set (m : Mask) (key : String) (value : Mask) :
    (m.set key value).isLeaf = false := by
  cases m <;> rfl

theorem set_of_get? {m : Mask} (h : m.get? key = some value) : m.set key value = m := by
  cases m with
  | leaf => cases h
  | node keys sub =>
    simp only [get?, Option.ite_none_right_eq_some, Option.some.injEq] at h
    obtain ⟨hmem, rfl⟩ := h
    rw [set, if_pos hmem, Function.update_eq_self]

end Mask

/-! ## Paths -/

/-- The loop of `splitPath`: `current` is the segment so far, newest character first. -/
def splitLoop : List Char → List Char → Bool → List String
  | [], current, _ => [String.ofList current.reverse]
  | c :: rest, current, inQuotes =>
    if c = quoteChar then splitLoop rest current (!inQuotes)
    else if c = pathSeparator ∧ inQuotes = false then
      String.ofList current.reverse :: splitLoop rest [] inQuotes
    else splitLoop rest (c :: current) inQuotes

/-- A dot outside backticks ends a segment; the backticks are dropped. -/
def splitPath (path : String) : Path :=
  if path = "" then [] else splitLoop path.toList [] false

def quotePathSegment (seg : String) : String :=
  if seg.toList.contains '.' then "`" ++ seg ++ "`" else seg

def joinPath (pre name : String) : String := if pre = "" then name else pre ++ "." ++ name

/-- Drops the empty segments at the end. -/
def trimPath (parts : Path) : Path := parts.rdropWhile (· == "")

/-- A leaf replaces a branch, and stays when a longer path follows; an empty segment ends the
path. -/
def fromPathParts : Path → Mask → Mask
  | [], m => m
  | [head], m => if head = "" then m else m.set head .leaf
  | head :: next :: rest, m =>
    if head = "" then m
    else match m.get? head with
      | some .leaf => m
      | some nested => m.set head (fromPathParts (next :: rest) nested)
      | none => m.set head (fromPathParts (next :: rest) .empty)

def fromPath (m : Mask) (path : String) : Mask := fromPathParts (trimPath (splitPath path)) m

/-- Empty paths are left out. -/
def fromPaths (paths : List String) : Mask :=
  (paths.filter (· ≠ "")).foldl fromPath .empty

namespace Mask

def buildPaths : Mask → String → List String
  | .leaf, _ => []
  | .node keys sub, pre => keys.flatMap fun field =>
    if (sub field).isLeaf then [joinPath pre (quotePathSegment field)]
    else buildPaths (sub field) (joinPath pre (quotePathSegment field))

def toPaths (m : Mask) : List String := (m.buildPaths "").mergeSort fun a b => decide (a ≤ b)

end Mask

end GoAtlas.FieldMask
