import GoAtlas.Filter.Ast

/-!
# Translator options and their checks

`TranslatorContext` is the configuration every translator and the evaluator share
(`data/filter/options.go`, `limits.go`, `depth.go`), with the schema checks on literals and the
budget check on a whole tree. The Go library calls the package makes (regexp, decimal parsing,
number and time formatting) are the fields of `GoLib`.
-/

namespace GoAtlas.Filter

open GoAtlas.Lib

/-! ## Errors -/

inductive Sentinel where
  | unsupportedOperation | fieldNotAllowed | allowlistRequired | maxDepthExceeded
  | invalidExpression | unsupportedType | fieldTypeMismatch | enumValueNotAllowed
  | invalidRegex | maxOperationsExceeded
  /-- A nil pointer dereference in the Go code. -/
  | nilDereference
  deriving DecidableEq, Repr

def Sentinel.text : Sentinel → String
  | unsupportedOperation => "unsupported operation"
  | fieldNotAllowed => "field not allowed"
  | allowlistRequired => "allowlist is required for untrusted input"
  | maxDepthExceeded => "expression depth exceeds maximum allowed"
  | invalidExpression => "invalid expression structure"
  | unsupportedType => "unsupported type"
  | fieldTypeMismatch => "filter value type does not match field type"
  | enumValueNotAllowed => "filter value is not an allowed enum value"
  | invalidRegex => "invalid or unsafe regex pattern"
  | maxOperationsExceeded => "operation count exceeds maximum allowed"
  | nilDereference => "runtime error: invalid memory address or nil pointer dereference"

/-- A sentinel error with its wrapping context, empty when it is returned bare. -/
structure Err where
  sentinel : Sentinel
  context : String
  deriving DecidableEq, Repr

def Err.message (e : Err) : String :=
  if e.context = "" then e.sentinel.text else e.context ++ ": " ++ e.sentinel.text

def hexDigit (n : Nat) : Char := "0123456789abcdef".toList.getD n '0'

def quoteChar (c : Char) : String :=
  if c = '"' then "\\\""
  else if c = '\\' then "\\\\"
  else if c.toNat = 7 then "\\a"
  else if c.toNat = 8 then "\\b"
  else if c.toNat = 12 then "\\f"
  else if c = '\n' then "\\n"
  else if c = '\r' then "\\r"
  else if c = '\t' then "\\t"
  else if c.toNat = 11 then "\\v"
  else if c.toNat < 32 ∨ c.toNat = 127 then
    "\\x" ++ String.ofList [hexDigit (c.toNat / 16), hexDigit (c.toNat % 16)]
  else String.singleton c

/-- `%q` of a text whose characters from U+0080 on are printable. -/
def quote (s : String) : String := "\"" ++ String.join (s.toList.map quoteChar) ++ "\""

/-- The library functions the package calls; a failed call gives the text of its error. -/
structure GoLib where
  /-- `regexp.Compile`, with `MatchString` of the result. -/
  compile : String → Except String (String → Bool)
  /-- `syntax.Parse(p, syntax.Perl)`, printed by `String`. -/
  parse : String → Except String String
  /-- `syntax.Parse(p, syntax.Perl)`, printed after `clearWasDollar`. -/
  parseNoDollar : String → Except String String
  /-- `strconv.FormatFloat(v, 'g', -1, 64)`. -/
  formatFloat : Double → String
  /-- `t.UTC().Format(layout)`. -/
  formatTime : String → Int → String
  /-- `decimal.NewFromString`. -/
  newFromString : String → Except String Decimal
  /-- `Cmp` of two decimals. -/
  cmp : Decimal → Decimal → Ordering

/-- `Cmp` is the order of the numbers. -/
def GoLib.CmpByValue (lib : GoLib) : Prop := ∀ a b, lib.cmp a b = compare a.val b.val

def refusingLib : GoLib where
  compile _ := .error "refused"
  parse _ := .error "refused"
  parseNoDollar _ := .error "refused"
  formatFloat _ := ""
  formatTime _ _ := ""
  newFromString _ := .error "refused"
  cmp a b := compare a.val b.val

/-! ## Configuration -/

inductive FieldKind where
  | unspecified | int | float | string | bool | bytes | timestamp | decimal
  deriving DecidableEq, Repr

def FieldKind.name : FieldKind → String
  | unspecified => "unspecified"
  | int => "int"
  | float => "float"
  | string => "string"
  | bool => "bool"
  | bytes => "bytes"
  | timestamp => "timestamp"
  | decimal => "decimal"

/-- A map built once: its keys are distinct. The entries stand in iteration order. -/
structure ImmutableMap (κ β : Type) where
  entries : List (κ × β)
  nodup : (entries.map Prod.fst).Nodup

namespace ImmutableMap

variable {κ β : Type} [DecidableEq κ]

def get (m : ImmutableMap κ β) (k : κ) : Option β := m.entries.lookup k

def contains (m : ImmutableMap κ β) (k : κ) : Bool := (m.get k).isSome

def keys (m : ImmutableMap κ β) : List κ := m.entries.map Prod.fst

end ImmutableMap

/-- The options a constructor can produce: the limits are positive, as their setters ignore
other values, and `WithZeroWhenAbsent` keeps no entry of unspecified kind. -/
structure TranslatorContext where
  allowedFields : Option (ImmutableMap String Unit)
  fieldMapping : Option (ImmutableMap String String)
  fieldTypes : Option (ImmutableMap String FieldKind)
  enumValues : Option (ImmutableMap String (ImmutableMap Int Unit))
  zeroWhenAbsent : Option (ImmutableMap String FieldKind)
  maxDepth : Nat
  maxRegexLength : Nat
  maxOperations : Nat
  untrustedInput : Bool
  maxDepth_pos : 0 < maxDepth
  maxRegexLength_pos : 0 < maxRegexLength
  maxOperations_pos : 0 < maxOperations
  zero_specified : ∀ m ∈ zeroWhenAbsent, ∀ e ∈ m.entries, e.2 ≠ .unspecified

def defaultMaxDepth : Nat := 20
def defaultMaxRegexLength : Nat := 1024
def defaultMaxOperations : Nat := 1000

def defaultTranslatorOptions : TranslatorContext where
  allowedFields := none
  fieldMapping := none
  fieldTypes := none
  enumValues := none
  zeroWhenAbsent := none
  maxDepth := defaultMaxDepth
  maxRegexLength := defaultMaxRegexLength
  maxOperations := defaultMaxOperations
  untrustedInput := false
  maxDepth_pos := by decide
  maxRegexLength_pos := by decide
  maxOperations_pos := by decide
  zero_specified := by simp

namespace TranslatorContext

def applyFieldMapping (o : TranslatorContext) (field : String) : String :=
  match o.fieldMapping with
  | none => field
  | some m => (m.get field).getD field

def isFieldAllowed (o : TranslatorContext) (field : String) : Bool :=
  match o.allowedFields with
  | none => true
  | some m => m.contains field

def fieldKind (o : TranslatorContext) (field : String) : FieldKind :=
  match o.fieldTypes with
  | none => .unspecified
  | some m => (m.get field).getD .unspecified

def enumValuesOf (o : TranslatorContext) (field : String) : Option (ImmutableMap Int Unit) :=
  match o.enumValues with
  | none => none
  | some m => m.get field

end TranslatorContext

/-! ## Decimal literals -/

def maxExactFloatDigits : Nat := 15
def decimalMaxDigits : Nat := 34
def decimalMinExp : Int := -6176
def decimalMaxExp : Int := 6111
def maxCoefficientBits : Nat := 4096

def bitLen (n : Nat) : Nat := if n = 0 then 0 else n.log2 + 1

def digits (n : Nat) : List Char := (toString n).toList

/-- Digits of the coefficient without trailing zeros, and the exponent that goes with it. -/
def normalizeDecimal (d : Decimal) : Option (Nat × Int) :=
  if d.coefficient = 0 then some (0, 0)
  else if maxCoefficientBits < bitLen d.coefficient.natAbs then none
  else
    let s := digits d.coefficient.natAbs
    let trimmed := (s.reverse.dropWhile (· == '0')).reverse
    some (trimmed.length, d.exponent + (s.length - trimmed.length : Nat))

def boundedDecimal (d : Decimal) : Except Err Decimal :=
  match normalizeDecimal d with
  | none => .error ⟨.fieldTypeMismatch,
      "decimal coefficient exceeds " ++ toString maxCoefficientBits ++ " bits"⟩
  | some (digits, exp) =>
    if digits = 0 then .ok ⟨0, 0⟩
    else if decimalMaxDigits < digits ∨ exp < decimalMinExp ∨
        decimalMaxExp + decimalMaxDigits - digits < exp then
      .error ⟨.fieldTypeMismatch, "decimal with " ++ toString digits ++
        " significant digits and exponent " ++ toString exp ++ " is out of the Decimal128 range"⟩
    else
      let shift := exp - d.exponent
      let c := if 0 < shift then d.coefficient.tdiv (10 ^ shift.toNat) else d.coefficient
      .ok ⟨c, exp⟩

/-- `FieldKind`-flavoured label of a value. -/
def valueKindName : Value → String
  | .int64 _ | .uint64 _ => FieldKind.int.name
  | .float64 _ => FieldKind.float.name
  | .string _ => FieldKind.string.name
  | .bool _ => FieldKind.bool.name
  | .bytes _ => FieldKind.bytes.name
  | .time _ => FieldKind.timestamp.name
  | .decimal _ => FieldKind.decimal.name
  | v => v.typeName

section Checks

variable (lib : GoLib)

def stringDecimal (s : String) : Except Err Decimal :=
  match lib.newFromString s with
  | .error _ => .error ⟨.fieldTypeMismatch, quote s ++ " is not a decimal number"⟩
  | .ok d => boundedDecimal d

def floatDecimal (f : Double) : Except Err Decimal :=
  if f.isNaN || f.isInf then
    .error ⟨.fieldTypeMismatch, lib.formatFloat f ++ " is not a finite decimal"⟩
  else match lib.newFromString (lib.formatFloat f) with
    | .error e => .error ⟨.fieldTypeMismatch, lib.formatFloat f ++ ": " ++ e⟩
    | .ok d =>
      match normalizeDecimal d with
      | some (digits, _) =>
        if maxExactFloatDigits < digits then
          .error ⟨.fieldTypeMismatch, "float " ++ lib.formatFloat f ++ " has " ++ toString digits ++
            " significant digits, more than the " ++ toString maxExactFloatDigits ++
            " that are exact; write it as a decimal string"⟩
        else boundedDecimal d
      | none => boundedDecimal d

def decimalLiteral : Value → Except Err Decimal
  | .decimal d => boundedDecimal d
  | .int64 i | .int32 i | .int i => .ok ⟨i, 0⟩
  | .uint64 n => .ok ⟨n, 0⟩
  | .float64 f => floatDecimal lib f
  | .string s => stringDecimal lib s
  | v => .error ⟨.fieldTypeMismatch, valueKindName v ++ " is not a decimal"⟩

/-! ## Schema checks -/

def kindOperand (kind : FieldKind) (value : Value) (text : String) : Value :=
  if kind = .decimal ∧ text ≠ "" then .string text else value

def kindAccepts (kind : FieldKind) (value : Value) : Bool :=
  match kind, value with
  | .unspecified, _ => true
  | .int, .int64 _ | .int, .uint64 _ => true
  | .float, .float64 _ | .float, .int64 _ | .float, .uint64 _ => true
  | .string, .string _ => true
  | .bool, .bool _ => true
  | .bytes, .bytes _ => true
  | .timestamp, .time _ => true
  | .decimal, v => (decimalLiteral lib v).toBool
  | _, _ => false

def checkSingleLiteral (field : String) (kind : FieldKind) (value : Value) : Except Err Unit :=
  if value.isNull then .ok ()
  else if kind = .decimal then
    match decimalLiteral lib value with
    | .ok _ => .ok ()
    | .error e => .error ⟨.fieldTypeMismatch,
        "field " ++ quote field ++ " (" ++ kind.name ++ "): " ++ e.message⟩
  else if kindAccepts lib kind value then .ok ()
  else .error ⟨.fieldTypeMismatch, "field " ++ quote field ++ " (" ++ kind.name ++
    "): value is " ++ valueKindName value ++ " (want " ++ kind.name ++ ")"⟩

def checkListKinds (field : String) (kind : FieldKind) : Nat → List Node → Except Err Unit
  | _, [] => .ok ()
  | i, .literal v text :: rest =>
    if v.isNull then checkListKinds field kind (i + 1) rest
    else if kindAccepts lib kind (kindOperand kind v text) then
      checkListKinds field kind (i + 1) rest
    else .error ⟨.fieldTypeMismatch, "field " ++ quote field ++ " (" ++ kind.name ++
      "): list element [" ++ toString i ++ "] is " ++ valueKindName v ++
      " (want " ++ kind.name ++ ")"⟩
  | i, _ :: rest => checkListKinds field kind (i + 1) rest

def maxInt64 : Int := 2 ^ 63 - 1

/-- A CEL integer literal as an int64. -/
def enumInt64 : Value → Option Int
  | .int64 i => some i
  | .uint64 n => if maxInt64 < n then none else some n
  | _ => none

/-- `%v` of a list of integers. -/
def formatInts (l : List Int) : String := "[" ++ " ".intercalate (l.map toString) ++ "]"

def checkEnumLiteral (field : String) (set : ImmutableMap Int Unit) (value : Value) :
    Except Err Unit :=
  match value with
  | .uint64 n =>
    if maxInt64 < n then
      .error ⟨.enumValueNotAllowed, "field " ++ quote field ++ ": value " ++ toString n ++
        " exceeds the enum's int64 range"⟩
    else check
  | _ => check
where
  check : Except Err Unit :=
    match enumInt64 value with
    | none => .ok ()
    | some v =>
      if set.contains v then .ok ()
      else .error ⟨.enumValueNotAllowed, "field " ++ quote field ++ ": value " ++ toString v ++
        " is not in " ++ formatInts (set.keys.mergeSort (fun a b => decide (a ≤ b)))⟩

def checkListEnums (field : String) (set : ImmutableMap Int Unit) : List Node → Except Err Unit
  | [] => .ok ()
  | .literal v _ :: rest => do
    checkEnumLiteral field set v
    checkListEnums field set rest
  | _ :: rest => checkListEnums field set rest

namespace TranslatorContext

variable (o : TranslatorContext)

def checkLiteralFieldKind (field : String) (right : Node) : Except Err Unit :=
  let kind := o.fieldKind field
  if kind = .unspecified then .ok ()
  else match right with
    | .literal v text => checkSingleLiteral lib field kind (kindOperand kind v text)
    | .list es => checkListKinds lib field kind 0 es
    | _ => .ok ()

def checkEnumMembership (field : String) (right : Node) : Except Err Unit :=
  match o.enumValuesOf field with
  | none => .ok ()
  | some set =>
    match right with
    | .literal v _ => checkEnumLiteral field set v
    | .list es => checkListEnums field set es
    | _ => .ok ()

def checkLiteralKind (field : String) (right : Node) : Except Err Unit := do
  o.checkLiteralFieldKind lib field right
  o.checkEnumMembership field right

/-- The schema check of a comparison, whichever side the field is on. -/
def checkComparison (left right : Node) : Except Err Unit :=
  match left, right with
  | .ident name, right => o.checkLiteralKind lib name right
  | left, .ident name => o.checkLiteralKind lib name left
  | _, _ => .ok ()

end TranslatorContext

end Checks

/-! ## Limits -/

namespace TranslatorContext

variable (o : TranslatorContext)

def spend (remaining : Nat) : Except Err Nat :=
  if remaining = 0 then .error ⟨.maxOperationsExceeded, ""⟩ else .ok (remaining - 1)

def checkNodeDepth (depth : Nat) : Except Err Unit :=
  if o.maxDepth ≤ depth then .error ⟨.maxDepthExceeded, ""⟩ else .ok ()

mutual

/-- One operation a node, one level of depth a compound node; the budget left over. -/
def checkNodeLimits : Node → Nat → Nat → Except Err Nat
  | .nil, _, _ => .error ⟨.invalidExpression, "nil AST node"⟩
  | .literal .., _, rem => spend rem
  | .ident _, _, rem => spend rem
  | .binaryOp _ l r, depth, rem => do
    let rem ← spend rem
    o.checkNodeDepth depth
    let rem ← if l.isNil then .ok rem else checkNodeLimits l (depth + 1) rem
    if r.isNil then .ok rem else checkNodeLimits r (depth + 1) rem
  | .unaryOp _ x, depth, rem => do
    let rem ← spend rem
    o.checkNodeDepth depth
    if x.isNil then .ok rem else checkNodeLimits x (depth + 1) rem
  | .call _ t args, depth, rem => do
    let rem ← spend rem
    o.checkNodeDepth depth
    let rem ← if t.isNil then .ok rem else checkNodeLimits t (depth + 1) rem
    checkNodesLimits args (depth + 1) rem
  | .list es, depth, rem => do
    let rem ← spend rem
    o.checkNodeDepth depth
    checkNodesLimits es (depth + 1) rem

def checkNodesLimits : List Node → Nat → Nat → Except Err Nat
  | [], _, rem => .ok rem
  | n :: ns, depth, rem => do
    let rem ← checkNodeLimits n depth rem
    checkNodesLimits ns depth rem

end

/-- Bound a complete translation before any output is built. -/
def checkLimits (root : Node) : Except Err Unit :=
  if root.isNil then .ok ()
  else do
    let _ ← o.checkNodeLimits root 0 o.maxOperations
    .ok ()

/-- `DepthGuard.Enter` at nesting `depth`. -/
def enter (depth : Nat) : Except Err Unit :=
  if o.maxDepth ≤ depth then
    .error ⟨.maxDepthExceeded,
      "depth " ++ toString depth ++ " exceeds maximum " ++ toString o.maxDepth⟩
  else .ok ()

end TranslatorContext

/-- `ValidateRegex`: the length cap, then the compile check. -/
def validateRegex (lib : GoLib) (pattern : String) (maxLength : Nat) : Except Err Unit :=
  if maxLength < pattern.utf8ByteSize then
    .error ⟨.invalidRegex, "pattern length " ++ toString pattern.utf8ByteSize ++
      " exceeds maximum " ++ toString maxLength⟩
  else match lib.compile pattern with
    | .error e => .error ⟨.invalidRegex, e⟩
    | .ok _ => .ok ()

end GoAtlas.Filter
