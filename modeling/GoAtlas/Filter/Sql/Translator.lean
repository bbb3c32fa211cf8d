import GoAtlas.Lib.StateExcept
import GoAtlas.Filter.Sql.Dialect

/-!
# The SQL translator

`sqlbase.Translator` walks a filter AST and renders it as a WHERE clause, collecting the bound
values in an argument slice as it goes. The slice is the state of the walk. The depth guard is
restored by every visit that succeeds and a failed visit ends the translation, so the depth is an
argument. `translateTree` gives the clause as a tree; `translate` is what the source returns.
-/

namespace GoAtlas.Filter.Sql

open GoAtlas.Filter GoAtlas.Lib

/-- A step of the walk: it reads and extends the argument slice. -/
abbrev Walk := Run (List Value) Err

structure Translator where
  config : TranslatorContext
  dialect : Dialect
  inline : Bool

/-- A value that can be bound as a query argument. -/
def supportedValue : Value → Bool
  | .bool _ | .int64 _ | .uint64 _ | .float64 _ | .string _ | .bytes _ | .time _ => true
  | _ => false

def comparisonOperator : Operator → Except Err CmpOp
  | .opEqual => .ok .eq
  | .opNotEqual => .ok .ne
  | .opLT => .ok .lt
  | .opLTE => .ok .lte
  | .opGT => .ok .gt
  | .opGTE => .ok .gte
  | op => .error ⟨.unsupportedOperation, "comparison operator " ++ op.name⟩

/-- What a visit returns (`any`): a rendered text, a literal value or the results of a list. -/
inductive Result where
  | clause (c : Clause)
  | column (o : Operand)
  | value (v : Value)
  | list (rs : List Result)

def Result.typeName : Result → String
  | clause _ | column _ => "string"
  | value v => v.typeName
  | list _ => "[]interface {}"

namespace Translator

variable (lib : GoLib) (t : Translator)

/-! ## Operands -/

def visitLiteral (v : Value) : Except Err Value :=
  if !v.isNull && !supportedValue v then .error ⟨.unsupportedType, v.typeName⟩ else .ok v

def visitIdent (name : String) : Except Err Operand :=
  if !t.config.isFieldAllowed name then .error ⟨.fieldNotAllowed, name⟩
  else do
    let mapped := t.config.applyFieldMapping name
    let quoted ← t.dialect.quoteIdent mapped
    .ok (.column mapped quoted)

def column (node : Node) : Except Err Operand :=
  match node with
  | .ident name => t.visitIdent name
  | n => .error ⟨.invalidExpression, "expected field reference, got " ++ n.typeName⟩

/-- A literal in the active mode: a bind slot whose value joins the slice, or inline text. -/
def value (v : Value) : Walk Operand :=
  if v.isNull then pure .null
  else if t.inline then do
    let rendered ← liftM (t.dialect.formatLiteral v)
    pure (.inline v rendered)
  else if !supportedValue v then throw ⟨.unsupportedType, v.typeName⟩
  else do
    let args ← get
    set (args ++ [v])
    pure (.bind (args.length + 1) (t.dialect.placeholder (args.length + 1)) v)

/-- The operand of size() is the target, or the single argument of a call without one. -/
def sizeTarget (target : Node) (args : List Node) : Node :=
  match target, args with
  | .nil, [a] => a
  | t, _ => t

def sizeSQL (target : Node) (args : List Node) : Except Err Operand := do
  let col ← t.column (sizeTarget target args)
  .ok (t.dialect.sizeExpr col)

def operandSQL (node : Node) : Walk Operand :=
  match node with
  | .ident name => liftM (t.column (.ident name))
  | .literal v _ => do
    let v ← liftM (visitLiteral v)
    t.value v
  | .call .opSize target args => liftM (t.sizeSQL target args)
  | n => throw ⟨.unsupportedOperation, n.typeName ++ " as a comparison operand"⟩

/-! ## Predicates -/

def translateNullComparison (op : Operator) (other : Node) : Walk Atom := do
  let expr ← t.operandSQL other
  match op with
  | .opEqual => pure (.isNull expr)
  | .opNotEqual => pure (.isNotNull expr)
  | op => throw ⟨.unsupportedOperation, "comparison " ++ op.name ++ " with null"⟩

def translateComparison (op : Operator) (left right : Node) : Walk Atom := do
  liftM (t.config.checkComparison lib left right)
  if right.isNullLiteral then t.translateNullComparison op left
  else if left.isNullLiteral then t.translateNullComparison op right
  else do
    let sqlOp ← liftM (comparisonOperator op)
    let lhs ← t.operandSQL left
    let rhs ← t.operandSQL right
    pure (.cmp sqlOp lhs rhs)

/-- The schema check of `in`, made only when the left operand is a field. -/
def checkIn (left right : Node) : Except Err Unit :=
  match left with
  | .ident name => t.config.checkLiteralKind lib name right
  | _ => .ok ()

def translateIn (left right : Node) : Walk Clause := do
  liftM (t.checkIn lib left right)
  match right with
  | .list elements => do
    let before ← get
    let expr ← t.operandSQL left
    if elements.isEmpty then do
      -- the left operand was rendered for its checks only; its slots are given back
      set ((← get).take before.length)
      pure .matchNone
    else if elements.all Node.isLiteral then do
      let rendered ← elements.mapM t.operandSQL
      pure (.atom (.inSet expr rendered))
    else do
      set ((← get).take before.length)
      let parts ← elements.mapM (t.translateComparison lib .opEqual left)
      pure (.anyOf parts)
  | n => throw ⟨.invalidExpression, "in operator requires a list, got " ++ n.typeName⟩

/-- One string predicate from a template table; `value` is called once per operand rendering. -/
def renderStringPredicate (op : Operator) (col : Operand) (needle : String)
    (value : Value → Walk Operand) (tpl : StringPredicates) : Walk Atom := do
  let arg ← value (.string needle)
  match op with
  | .opContains => pure (tpl.contains.tree col [arg])
  | .opStartsWith => pure (tpl.startsWith.tree col [arg])
  | .opMatches => pure (tpl.matches.tree col [arg])
  | .opEndsWith => do
    let more ← (List.replicate (tpl.endsWithBinds - 1) (Value.string needle)).mapM value
    pure (tpl.endsWith.tree col (arg :: more))
  | op => throw ⟨.unsupportedOperation, "string predicate " ++ op.name⟩

def stringPredicate (op : Operator) (col : Operand) (needle : String)
    (value : Value → Walk Operand) : Walk Atom := do
  let needle ← liftM (t.dialect.needle op needle)
  renderStringPredicate op col needle value t.dialect.stringPredicates

def checkRegex (pattern : String) : Except Err Unit :=
  let maxLen := if t.config.maxRegexLength = 0 then defaultMaxRegexLength
    else t.config.maxRegexLength
  validateRegex lib pattern maxLen

def translateStringPredicate (op : Operator) (target : Node) (args : List Node) : Walk Atom := do
  let col ← liftM (t.column target)
  match args with
  | [.ident name] =>
    if op = .opMatches then
      throw ⟨.unsupportedOperation, "matches() requires a literal pattern for validation"⟩
    else do
      let needle ← liftM (t.column (.ident name))
      -- a column takes no bind slot, however often the template repeats it
      t.stringPredicate op col "" (fun _ => pure needle)
  | [.literal v _] => do
    let v ← liftM (visitLiteral v)
    match v with
    | .string needle => do
      liftM (if op = .opMatches then t.checkRegex lib needle else .ok ())
      t.stringPredicate op col needle t.value
    | _ => throw ⟨.invalidExpression, "string function argument must be a string"⟩
  | [n] => throw ⟨.unsupportedOperation, "expected literal operand, got " ++ n.typeName⟩
  | _ => throw ⟨.invalidExpression, "string function requires exactly 1 argument"⟩

def translateExists (target : Node) : Except Err Atom := do
  let col ← t.column target
  .ok (.isNotNull col)

/-- A call in predicate position. -/
def translateCall (op : Operator) (target : Node) (args : List Node) : Walk Clause :=
  match op with
  | .opContains | .opStartsWith | .opEndsWith | .opMatches =>
    Clause.atom <$> t.translateStringPredicate lib op target args
  | .opHas | .opExists => Clause.atom <$> (liftM (t.translateExists target) : Walk Atom)
  | .opSize => throw ⟨.unsupportedOperation, "size() outside a comparison"⟩
  | op => throw ⟨.unsupportedOperation, "function " ++ op.name⟩

def translateLogical (c : Conn) (left right : Walk Clause) : Walk Clause := do
  let lhs ← left
  let rhs ← right
  pure (.logical c lhs rhs)

/-- A binary operator; `left` and `right` render its operands as predicates. -/
def translateBinary (op : Operator) (l r : Node) (left right : Walk Clause) : Walk Clause :=
  match op with
  | .opAnd => translateLogical .and left right
  | .opOr => translateLogical .or left right
  | .opIn => t.translateIn lib l r
  | op => Clause.atom <$> t.translateComparison lib op l r

def translateUnary (op : Operator) (operand : Walk Clause) : Walk Clause :=
  if op = .opNot then Clause.not <$> operand
  else throw ⟨.unsupportedOperation, "unary operator " ++ op.name⟩

/-! ## The walk -/

/-- `acceptPredicate` of a node, given what a visit of it does. -/
def predicateOf (node : Node) (visit : Walk Result) : Walk Clause :=
  match node with
  | .ident name => do
    let col ← liftM (t.column (.ident name))
    let lit ← liftM (t.dialect.formatLiteral (.bool true))
    pure (.atom (.cmp .eq col (.inline (.bool true) lit)))
  | .literal v _ =>
    throw ⟨.invalidExpression, "expected filter clause, got literal " ++ v.typeName⟩
  | _ => do
    match ← visit with
    | .clause c => pure c
    | r => throw ⟨.invalidExpression, "expected filter clause, got " ++ r.typeName⟩

mutual

/-- `node.Accept(t)` at nesting `depth`. -/
def accept : Node → Nat → Walk Result
  | .nil, _ => throw ⟨.nilDereference, ""⟩
  | .literal v _, _ => Result.value <$> (liftM (visitLiteral v) : Walk Value)
  | .ident name, _ => Result.column <$> (liftM (t.visitIdent name) : Walk Operand)
  | .binaryOp op l r, depth => do
    liftM (t.config.enter depth)
    Result.clause <$> t.translateBinary lib op l r
      (t.predicateOf l (accept l (depth + 1))) (t.predicateOf r (accept r (depth + 1)))
  | .unaryOp op x, depth => do
    liftM (t.config.enter depth)
    Result.clause <$> translateUnary op (t.predicateOf x (accept x (depth + 1)))
  | .call op target args, depth => do
    liftM (t.config.enter depth)
    Result.clause <$> t.translateCall lib op target args
  | .list es, depth => do
    liftM (t.config.enter depth)
    Result.list <$> visitElements es (depth + 1)

def visitElements : List Node → Nat → Walk (List Result)
  | [], _ => pure []
  | n :: ns, depth => do
    let r ← accept n depth
    let rs ← visitElements ns depth
    pure (r :: rs)

end

def acceptPredicate (node : Node) (depth : Nat) : Walk Clause :=
  t.predicateOf node (t.accept lib node depth)

/-! ## Entry points -/

def translateTree (node : Node) : Except Err (Clause × List Value) := do
  t.config.checkLimits node
  if node.isNil then .ok (.matchAll, [])
  else (t.acceptPredicate lib node 0).run []

/-- `Translate`: the clause text and its arguments. -/
def translate (node : Node) : Except Err (String × List Value) := do
  let p ← { t with inline := false }.translateTree lib node
  .ok (p.1.text, p.2)

/-- `TranslateInline`: the clause with every literal in place. -/
def translateInline (node : Node) : Except Err String := do
  let p ← { t with inline := true }.translateTree lib node
  .ok p.1.text

/-! ## What a successful visit went through -/

section

open Run

variable {t : Translator}

theorem ok_clause {v : Walk Result} {s u : List Value} {c : Clause} (h : Ok (do
    match ← v with
    | .clause c => pure c
    | r => throw ⟨.invalidExpression, "expected filter clause, got " ++ r.typeName⟩ :
    Walk Clause) s c u) : Ok v s (.clause c) u := by
  obtain ⟨r, w, hr, h⟩ := ok_bind.mp h
  split at h
  · obtain ⟨rfl, rfl⟩ := ok_pure.mp h
    exact hr
  · exact absurd h not_ok_throw

theorem ok_enter {depth : Nat} {x : Walk Clause} {s u : List Value} {c : Clause} (h : Ok (do
      liftM (t.config.enter depth)
      Result.clause <$> x : Walk Result) s (.clause c) u) : Ok x s c u := by
  obtain ⟨_, w, he, h⟩ := ok_bind.mp h
  obtain ⟨-, rfl⟩ := ok_lift.mp he
  obtain ⟨c', hc, h⟩ := ok_map.mp h
  cases hc
  exact h

end

end Translator

end GoAtlas.Filter.Sql
