import Mathlib.Data.List.Infix
import GoAtlas.Lib.StateExcept
import GoAtlas.Filter.Options

/-!
# The in-memory evaluator

`Evaluator.Evaluate` walks a filter AST over a data map (`data/filter/evaluator.go`). The operation
counter is the state of the walk; the depth counter is restored by every visit that returns, so it
is an argument. A visit of an operand is passed to the function that consumes it and runs only
where the source calls `Accept`.
-/

namespace GoAtlas.Filter

open GoAtlas.Lib

/-! ## Comparing values -/

def compareResult (op : Operator) (c : Ordering) : Except Err Bool :=
  match op with
  | .opEqual => .ok (c == .eq)
  | .opNotEqual => .ok (c != .eq)
  | .opLT => .ok (c == .lt)
  | .opLTE => .ok (c != .gt)
  | .opGT => .ok (c == .gt)
  | .opGTE => .ok (c != .lt)
  | op => .error ⟨.unsupportedOperation, "operator " ++ op.name⟩

/-- An operator on floats; `none` is an unordered pair, where only `!=` holds. -/
def compareFloats (op : Operator) (c : Option Ordering) : Except Err Bool :=
  match c with
  | some c => compareResult op c
  | none =>
    match op with
    | .opNotEqual => .ok true
    | .opEqual | .opLT | .opLTE | .opGT | .opGTE => .ok false
    | op => .error ⟨.unsupportedOperation, "operator " ++ op.name⟩

def compareNil (op : Operator) (left right : Value) : Except Err Bool :=
  match op with
  | .opEqual => .ok (left.isNull && right.isNull)
  | .opNotEqual => .ok (!left.isNull || !right.isNull)
  | op => .error ⟨.unsupportedOperation, "cannot use " ++ op.name ++ " with nil"⟩

def integerParts : Value → Option (Int ⊕ Nat)
  | .int64 i | .int32 i | .int i => some (.inl i)
  | .uint64 n => some (.inr n)
  | _ => none

/-- Integers compare exactly, signed against unsigned included; `none` unless both are integers. -/
def compareIntegers (a b : Value) : Option Ordering :=
  match integerParts a, integerParts b with
  | some (.inl as), some (.inl bs) => some (compare as bs)
  | some (.inr au), some (.inr bu) => some (compare au bu)
  | some (.inr au), some (.inl bs) => some (if bs < 0 then .gt else compare au bs.toNat)
  | some (.inl as), some (.inr bu) => some (if as < 0 then .lt else compare as.toNat bu)
  | _, _ => none

def toFloat64 : Value → Option Double
  | .int64 i | .int32 i | .int i => some (Double.ofInt i)
  | .uint64 n => some (Double.ofInt n)
  | .float64 f => some f
  | _ => none

def compareBytes (a b : Option (List UInt8)) : Ordering := compare (a.getD []) (b.getD [])

section

variable (lib : GoLib)

/-- The comparison of two operands at least one of which is a decimal. -/
def compareDecimal (left right : Value) : Option (Except Err Ordering) :=
  match left, right with
  | .decimal _, _ | _, .decimal _ => some do
    let l ← decimalLiteral lib left
    let r ← decimalLiteral lib right
    .ok (lib.cmp l r)
  | _, _ => none

/-- The operand `v` of `node` in a comparison against `other`: a float literal compared with a
decimal is read by its source spelling. -/
def exactLiteral (other : Value) (node : Node) (v : Value) : Value :=
  match other, node with
  | .decimal _, .literal _ text => if text ≠ "" then .string text else v
  | _, _ => v

def compareTyped (op : Operator) (left right : Value) : Except Err Bool :=
  match left, right with
  | .time l, .time r => compareResult op (compare l r)
  | .bytes l, .bytes r => compareResult op (compareBytes l r)
  | .string l, .string r => compareResult op (compare l r)
  | .bool l, .bool r =>
    match op with
    | .opEqual => .ok (l == r)
    | .opNotEqual => .ok (l != r)
    | op => .error ⟨.unsupportedOperation, "cannot use " ++ op.name ++ " on booleans"⟩
  | left, right =>
    match compareIntegers left right with
    | some c => compareResult op c
    | none =>
      match toFloat64 left, toFloat64 right with
      | some l, some r => compareFloats op (l.compare r)
      | _, _ => .error ⟨.unsupportedType,
          "cannot compare " ++ left.typeName ++ " and " ++ right.typeName⟩

def compareValues (op : Operator) (left right : Value) : Except Err Bool :=
  if left.isNull || right.isNull then compareNil op left right
  else match compareDecimal lib left right with
    | some (.ok c) => compareResult op c
    | some (.error e) => .error ⟨.unsupportedType, "cannot compare " ++ left.typeName ++ " and " ++
        right.typeName ++ ": " ++ e.message⟩
    | none => compareTyped op left right

/-- Equality for `in`; operands of different types are unequal, never an error. The `==` of two
values of one other comparable type, such as a struct, is not modelled: they count as unequal. -/
def valuesEqual (a b : Value) : Bool :=
  match compareDecimal lib a b with
  | some (.ok c) => c == .eq
  | some (.error _) => false
  | none =>
    match a, b with
    | .time s, .time t => s == t
    | .bytes s, .bytes t => s.getD [] == t.getD []
    | .null, .null => true
    | .bool s, .bool t => s == t
    | .string s, .string t => s == t
    | a, b =>
      match compareIntegers a b with
      | some c => c == .eq
      | none =>
        match toFloat64 a, toFloat64 b with
        | some s, some t => s.compare t == some .eq
        | _, _ => false

end

/-! ## Fields -/

def walkPath : List String → Value → Option Value
  | [], v => some v
  | part :: rest, .map fields => (fields.lookup part).bind (walkPath rest)
  | _ :: _, _ => none

def walkField (data : List (String × Value)) (field : String) : Option Value :=
  walkPath (splitDots field) (.map data)

/-- The value of a dotted field, null when the path is absent. -/
def lookupField (data : List (String × Value)) (field : String) : Value :=
  (walkField data field).getD .null

def fieldExists (data : List (String × Value)) (field : String) : Bool :=
  (walkField data field).isSome

/-! ## The walk -/

abbrev Eval := Run Nat Err

structure Evaluation where
  config : TranslatorContext
  data : List (String × Value)

namespace Evaluation

variable (lib : GoLib) (e : Evaluation)

def checkOps : Eval Unit := do
  let ops ← get
  set (ops + 1)
  if e.config.maxOperations < ops + 1 then
    throw ⟨.maxOperationsExceeded, "operation count " ++ toString (ops + 1) ++
      " exceeds maximum " ++ toString e.config.maxOperations⟩
  else pure ()

def enterNode (depth : Nat) : Eval Unit := do
  e.checkOps
  liftM (e.config.enter depth)

def visitIdent (name : String) : Eval Value := do
  e.checkOps
  if !e.config.isFieldAllowed name then throw ⟨.fieldNotAllowed, name⟩
  else pure (lookupField e.data (e.config.applyFieldMapping name))

def evalBoolOperand (visit : Eval Value) (opName : String) : Eval Bool := do
  match ← visit with
  | .bool b => pure b
  | _ => throw ⟨.invalidExpression, opName ++ " requires bool operands"⟩

def evalLogical (left right : Eval Value) (opName : String) (shortCircuit : Bool) :
    Eval Value := do
  let lb ← evalBoolOperand left opName
  if lb = shortCircuit then pure (.bool shortCircuit)
  else do
    let rb ← evalBoolOperand right opName
    pure (.bool rb)

def evalComparison (op : Operator) (l r : Node) (left right : Eval Value) : Eval Value := do
  liftM (e.config.checkComparison lib l r)
  let lv ← left
  let rv ← right
  let b ← liftM (compareValues lib op (exactLiteral rv l lv) (exactLiteral lv r rv))
  pure (.bool b)

/-- The schema check of `in`, made only when the left operand is a field. -/
def checkIn (l r : Node) : Except Err Unit :=
  match l with
  | .ident name => e.config.checkLiteralKind lib name r
  | _ => .ok ()

def evalInList (lv : Value) : List (Node × Eval Value) → Eval Bool
  | [] => pure false
  | (n, visit) :: rest => do
    let v ← visit
    let found ← evalInList lv rest
    pure (valuesEqual lib lv (exactLiteral lv n v) || found)

/-- `in`; `elements` are the visits of the members when the right operand is a list literal. -/
def evalIn (l r : Node) (left right : Eval Value) (elements : List (Node × Eval Value))
    (depth : Nat) : Eval Value := do
  liftM (e.checkIn lib l r)
  let lv ← left
  match r with
  | .list _ => do
    e.enterNode depth
    let found ← evalInList lib lv elements
    pure (.bool found)
  | _ => do
    match ← right with
    | .list items => pure (.bool (items.any (valuesEqual lib lv)))
    | _ => throw ⟨.invalidExpression, "in requires a list on the right side"⟩

def evalBinary (op : Operator) (l r : Node) (left right : Eval Value)
    (elements : List (Node × Eval Value)) (depth : Nat) : Eval Value :=
  match op with
  | .opAnd => evalLogical left right "&&" false
  | .opOr => evalLogical left right "||" true
  | .opIn => e.evalIn lib l r left right elements depth
  | op => e.evalComparison lib op l r left right

def evalUnary (op : Operator) (operand : Eval Value) : Eval Value :=
  if op ≠ .opNot then throw ⟨.unsupportedOperation, "unary operator " ++ op.name⟩
  else do
    match ← operand with
    | .bool b => pure (.bool !b)
    | v => throw ⟨.invalidExpression, "! requires bool operand, got " ++ v.typeName⟩

/-- The target and the argument of a string function; `none` for a target that is no string,
which is decided before the arguments are looked at. -/
def stringCallArgs (target : Eval Value) (args : List (Eval Value)) (label : String) :
    Eval (Option (String × String)) := do
  match ← target with
  | .string s =>
    match args with
    | [arg] => do
      match ← arg with
      | .string a => pure (some (s, a))
      | _ => throw ⟨.invalidExpression, label ++ " argument must be a string"⟩
    | _ => throw ⟨.invalidExpression, label ++ " requires exactly 1 argument"⟩
  | _ => pure none

def evalStringFunc (fn : List Char → List Char → Bool) (target : Eval Value)
    (args : List (Eval Value)) : Eval Value := do
  match ← stringCallArgs target args "string function" with
  | some (s, a) => pure (.bool (fn s.toList a.toList))
  | none => pure (.bool false)

def evalMatches (target : Eval Value) (args : List (Eval Value)) : Eval Value := do
  match ← stringCallArgs target args "matches()" with
  | some (s, pattern) =>
    if e.config.maxRegexLength < pattern.utf8ByteSize then
      throw ⟨.invalidRegex, "pattern length " ++ toString pattern.utf8ByteSize ++
        " exceeds maximum " ++ toString e.config.maxRegexLength⟩
    else match lib.compile pattern with
      | .error m => throw ⟨.invalidRegex, m⟩
      | .ok matcher => pure (.bool (matcher s))
  | none => pure (.bool false)

/-- Existence of a field; the target is not visited. -/
def evalHas (target : Node) : Eval Value :=
  match target with
  | .ident name =>
    if !e.config.isFieldAllowed name then throw ⟨.fieldNotAllowed, name⟩
    else pure (.bool (fieldExists e.data (e.config.applyFieldMapping name)))
  | _ => throw ⟨.invalidExpression, "has() requires an identifier"⟩

def evalSize (target : Eval Value) : Eval Value := do
  match ← target with
  | .string s => pure (.int64 s.length)
  | .list items => pure (.int64 items.length)
  | v => throw ⟨.unsupportedOperation, "size() not supported for " ++ v.typeName⟩

def evalIntArg (visit : Eval Value) : Eval Int := do
  match ← visit with
  | .int64 i => pure i
  | v => throw ⟨.invalidExpression, "argument must be int, got " ++ v.typeName⟩

/-- Code points `start` to `stop` of a string, both within its length. -/
def substringOf (s : String) (start stop : Int) : Except Err Value :=
  if start < 0 ∨ stop < 0 ∨ stop < start ∨ (s.length : Int) < stop then
    .error ⟨.invalidExpression, "substring(" ++ toString start ++ ", " ++ toString stop ++
      ") out of range for string of length " ++ toString s.length⟩
  else .ok (.string (String.ofList ((s.toList.take stop.toNat).drop start.toNat)))

def evalSubstring (target : Eval Value) (args : List (Eval Value)) : Eval Value := do
  match ← target with
  | .string s =>
    match args with
    | [a] => do
      let start ← evalIntArg a
      liftM (substringOf s start s.length)
    | [a, b] => do
      let start ← evalIntArg a
      let stop ← evalIntArg b
      liftM (substringOf s start stop)
    | _ => throw ⟨.invalidExpression, "substring() requires 1 or 2 arguments"⟩
  | v => throw ⟨.invalidExpression, "substring() target must be string, got " ++ v.typeName⟩

def evalCall (op : Operator) (t : Node) (target : Eval Value) (args : List (Eval Value)) :
    Eval Value :=
  if t.isNil then throw ⟨.invalidExpression, op.name ++ " call without a target"⟩
  else match op with
    | .opContains => evalStringFunc (fun s a => decide (a <:+: s)) target args
    | .opStartsWith => evalStringFunc (fun s a => decide (a <+: s)) target args
    | .opEndsWith => evalStringFunc (fun s a => decide (a <:+ s)) target args
    | .opMatches => e.evalMatches lib target args
    | .opHas | .opExists => e.evalHas t
    | .opSize => evalSize target
    | .opSubstring => evalSubstring target args
    | op => throw ⟨.unsupportedOperation, "function " ++ op.name⟩

def evalElements : List (Node × Eval Value) → Eval (List Value)
  | [] => pure []
  | (_, visit) :: rest => do
    let v ← visit
    let vs ← evalElements rest
    pure (v :: vs)

mutual

/-- `node.Accept(e)` at nesting `depth`. -/
def accept : Node → Nat → Eval Value
  | .nil, _ => throw ⟨.nilDereference, ""⟩
  | .literal v _, _ => do
    e.checkOps
    pure v
  | .ident name, _ => e.visitIdent name
  | .binaryOp op l r, depth => do
    e.enterNode depth
    e.evalBinary lib op l r (accept l (depth + 1)) (accept r (depth + 1))
      (members r (depth + 2)) (depth + 1)
  | .unaryOp op x, depth => do
    e.enterNode depth
    evalUnary op (accept x (depth + 1))
  | .call op t args, depth => do
    e.enterNode depth
    e.evalCall lib op t (accept t (depth + 1)) ((visits args (depth + 1)).map Prod.snd)
  | .list es, depth => do
    e.enterNode depth
    let vs ← evalElements (visits es (depth + 1))
    pure (.list vs)

def members : Node → Nat → List (Node × Eval Value)
  | .list es, depth => visits es depth
  | _, _ => []

def visits : List Node → Nat → List (Node × Eval Value)
  | [], _ => []
  | n :: ns, depth => (n, accept n depth) :: visits ns depth

end

end Evaluation

/-- `Evaluate`: the truth value of a filter over a data map. -/
def evaluate (lib : GoLib) (config : TranslatorContext) (node : Node)
    (data : List (String × Value)) : Except Err Bool :=
  match (Evaluation.accept lib ⟨config, data⟩ node 0).run 0 with
  | .error e => .error e
  | .ok (.bool b, _) => .ok b
  | .ok (v, _) => .error ⟨.invalidExpression,
      "expression must evaluate to bool, got " ++ v.typeName⟩

end GoAtlas.Filter
