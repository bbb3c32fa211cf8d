import GoAtlas.Lib.Decimal
import GoAtlas.Lib.Double

/-!
# The filter AST

`Node` is the tree the CEL parser builds and the translators and the evaluator walk
(`data/filter/node.go`). A Go `Node` is an interface, so every child position can hold `nil`;
that is the constructor `nil`. `Value` is the dynamic value (`any`) of a literal, of a data map
and of a BSON document alike. Strings are valid UTF-8 texts, so bytes and code points order and
split them the same way.
-/

namespace GoAtlas.Filter

open GoAtlas.Lib

/-! ## Operators -/

inductive Operator where
  | opEqual | opNotEqual | opLT | opLTE | opGT | opGTE
  | opAnd | opOr | opNot
  | opIn
  | opContains | opStartsWith | opEndsWith | opMatches
  | opSize | opHas | opExists
  | opSubstring
  /-- A code outside the declared constants. -/
  | other (code : Nat)
  deriving DecidableEq, Repr

namespace Operator

/-- The stringer spelling, `%v` in error messages. -/
def name : Operator → String
  | opEqual => "OpEqual"
  | opNotEqual => "OpNotEqual"
  | opLT => "OpLT"
  | opLTE => "OpLTE"
  | opGT => "OpGT"
  | opGTE => "OpGTE"
  | opAnd => "OpAnd"
  | opOr => "OpOr"
  | opNot => "OpNot"
  | opIn => "OpIn"
  | opContains => "OpContains"
  | opStartsWith => "OpStartsWith"
  | opEndsWith => "OpEndsWith"
  | opMatches => "OpMatches"
  | opSize => "OpSize"
  | opHas => "OpHas"
  | opExists => "OpExists"
  | opSubstring => "OpSubstring"
  | other n => "Operator(" ++ toString n ++ ")"

end Operator

/-! ## Values -/

/-- A dynamic value. A Go `[]byte` is `none` when the slice is nil; a time is its instant in
nanoseconds since the Unix epoch; a decimal is a `decimal.Decimal` or a BSON Decimal128. -/
inductive Value where
  | null
  | bool (b : Bool)
  | int64 (i : Int)
  | int32 (i : Int)
  | int (i : Int)
  | uint64 (n : Nat)
  | float64 (d : Double)
  | string (s : String)
  | bytes (b : Option (List UInt8))
  | time (ns : Int)
  | decimal (d : Decimal)
  | list (elems : List Value)
  | map (fields : List (String × Value))
  /-- Any other dynamic type, by its `%T` name. The value itself is left out: no comparison but the
  equality of `in` looks at it. -/
  | other (type : String)
  deriving Repr

namespace Value

def typeName : Value → String
  | null => "<nil>"
  | bool _ => "bool"
  | int64 _ => "int64"
  | int32 _ => "int32"
  | int _ => "int"
  | uint64 _ => "uint64"
  | float64 _ => "float64"
  | string _ => "string"
  | bytes _ => "[]uint8"
  | time _ => "time.Time"
  | decimal _ => "decimal.Decimal"
  | list _ => "[]interface {}"
  | map _ => "map[string]interface {}"
  | other t => t

def isNull : Value → Bool
  | null => true
  | _ => false

@[simp] theorem isNull_iff (v : Value) : v.isNull = true ↔ v = null := by
  cases v <;> simp [isNull]

end Value

/-! ## Nodes -/

inductive Node where
  | nil
  | literal (value : Value) (text : String)
  | ident (name : String)
  | binaryOp (op : Operator) (left right : Node)
  | unaryOp (op : Operator) (operand : Node)
  | call (op : Operator) (target : Node) (args : List Node)
  | list (elements : List Node)
  deriving Repr

namespace Node

/-- Induction over the nodes in a node. -/
theorem induct {P : Node → Prop} (nil : P .nil) (literal : ∀ v text, P (.literal v text))
    (ident : ∀ name, P (.ident name)) (binaryOp : ∀ op l r, P l → P r → P (.binaryOp op l r))
    (unaryOp : ∀ op x, P x → P (.unaryOp op x))
    (call : ∀ op t args, P t → (∀ a ∈ args, P a) → P (.call op t args))
    (list : ∀ es, (∀ e ∈ es, P e) → P (.list es)) (n : Node) : P n :=
  @Node.rec P (fun ns => ∀ n ∈ ns, P n) nil literal ident binaryOp unaryOp call list
    (fun _ h => absurd h List.not_mem_nil)
    (fun _ _ hn hns => List.forall_mem_cons.mpr ⟨hn, hns⟩) n

def typeName : Node → String
  | nil => "<nil>"
  | literal .. => "*filter.LiteralNode"
  | ident _ => "*filter.IdentNode"
  | binaryOp .. => "*filter.BinaryOpNode"
  | unaryOp .. => "*filter.UnaryOpNode"
  | call .. => "*filter.CallNode"
  | list _ => "*filter.ListNode"

def isNil : Node → Bool
  | nil => true
  | _ => false

def isLiteral : Node → Bool
  | literal .. => true
  | _ => false

/-- `n` is the CEL `null` literal. -/
def isNullLiteral : Node → Bool
  | literal v _ => v.isNull
  | _ => false

end Node

/-- A dotted field path, split at its dots. -/
def splitDots (s : String) : List String := (s.toList.splitOn '.').map String.ofList

end GoAtlas.Filter
