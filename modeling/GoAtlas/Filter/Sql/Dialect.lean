import GoAtlas.Filter.Regexanchor
import GoAtlas.Filter.Sql.Syntax

/-!
# SQL dialects

What each backend decides for itself: identifier quoting, bind markers, literals, size() and the
four string predicates. A `Template` keeps the format string of the source next to the tree it
renders, with the proof that the tree prints exactly that format and renders its operands in the
order they are bound.
-/

namespace GoAtlas.Filter.Sql

open GoAtlas.Filter GoAtlas.Lib

/-! ## Identifiers -/

def isIdentStart (c : Char) : Bool :=
  ('a' ≤ c && c ≤ 'z') || ('A' ≤ c && c ≤ 'Z') || c = '_'

def isIdentChar (c : Char) : Bool := isIdentStart c || ('0' ≤ c && c ≤ '9')

/-- `s` matches `[A-Za-z_][A-Za-z0-9_]*`. -/
def isIdentSegment (s : String) : Bool :=
  match s.toList with
  | [] => false
  | c :: cs => isIdentStart c && cs.all isIdentChar

def validateIdent (name : String) : Except Err Unit :=
  if name = "" then .error ⟨.invalidExpression, "empty column name"⟩
  else if (splitDots name).all isIdentSegment then .ok ()
  else .error ⟨.invalidExpression, quote name ++ " is not a valid SQL column name"⟩

def quoteWhole (name q : String) : Except Err String := do
  validateIdent name
  .ok (q ++ name ++ q)

def quoteQualified (name q : String) : Except Err String := do
  validateIdent name
  .ok (".".intercalate ((splitDots name).map (fun s => q ++ s ++ q)))

/-! ## String predicates -/

/-- One predicate template over a column and `operands` renderings of the needle, as the tree its
format string writes; the format strings stand beside the templates. -/
structure Template where
  operands : Nat
  tree : Operand → List Operand → Atom
  tree_binds : ∀ c xs, c.binds = [] → xs.length = operands →
    (tree c xs).binds = xs.flatMap Operand.binds

structure StringPredicates where
  contains : Template
  startsWith : Template
  endsWith : Template
  «matches» : Template
  /-- How often the endsWith template renders its operand; zero means once. -/
  endsWithBinds : Nat
  contains_operands : contains.operands = 1
  startsWith_operands : startsWith.operands = 1
  matches_operands : «matches».operands = 1
  endsWith_operands : endsWith.operands = 1 + (endsWithBinds - 1)

def zero : Operand := .inline (.int64 0) "0"

def one : Operand := .inline (.int64 1) "1"


def Template.single (tree : Operand → Operand → Atom)
    (binds : ∀ c x, c.binds = [] → (tree c x).binds = x.binds) : Template where
  operands := 1
  tree c xs := tree c (xs.headD .null)
  tree_binds c xs hc h := by
    obtain ⟨x, rfl⟩ := List.length_eq_one_iff.mp h
    simpa using binds c x hc

/-! ## Literals -/

def hexByte (b : UInt8) : String :=
  String.ofList [hexDigit (b.toNat / 16), hexDigit (b.toNat % 16)]

/-- `hex.EncodeToString`; a nil slice encodes as an empty one. -/
def encodeToString (b : Option (List UInt8)) : String := String.join ((b.getD []).map hexByte)

/-- A string between `opening` and a single quote, escaped character by character. -/
def quoteWith (opening : String) (escape : Char → Option String) (s : String) : String :=
  opening ++ String.join (s.toList.map (fun c => (escape c).getD (String.singleton c))) ++ "\'"

def escapeControl (c : Char) : Option String :=
  if c = '\n' then some "\\n"
  else if c = '\r' then some "\\r"
  else if c = '\t' then some "\\t"
  else none

/-- `FormatLiteral`: the dialects differ in how they spell a truth value, a float, a string,
bytes and a time. -/
def formatLiteralWith (bool : Bool → String) (float : Double → Except Err String)
    (string : String → String) (bytes : Option (List UInt8) → String) (time : Int → String) :
    Value → Except Err String
  | .null => .ok "NULL"
  | .bool b => .ok (bool b)
  | .int64 i => .ok (toString i)
  | .uint64 n => .ok (toString n)
  | .float64 f => float f
  | .string s => .ok (string s)
  | .bytes b => .ok (bytes b)
  | .time t => .ok (time t)
  | v => .error ⟨.unsupportedType, v.typeName⟩

/-! ## The dialects -/

structure Dialect where
  quoteIdent : String → Except Err String
  placeholder : Nat → String
  formatLiteral : Value → Except Err String
  sizeExpr : Operand → Operand
  stringPredicates : StringPredicates
  /-- What a dialect does to a needle before it renders it. -/
  needle : Operator → String → Except Err String
  sizeExpr_binds : ∀ c, c.binds = [] → (sizeExpr c).binds = []

inductive Backend where
  | postgres | mariadb | clickhouse
  deriving DecidableEq, Repr

section Dialects

variable (lib : GoLib)

namespace Postgres

def dateTimeLayout : String := "2006-01-02 15:04:05.000000-07"

def quoteString : String → String := quoteWith "E\'" (fun c =>
  if c = '\\' then some "\\\\"
  else if c.toNat = 39 then some "\\\'"
  else if c.toNat = 0 then some "\\000"
  else escapeControl c)

def formatFloat (f : Double) : String :=
  if f.isNaN then "\'NaN\'::double precision"
  else if f.isInf && !f.neg then "\'Infinity\'::double precision"
  else if f.isInf then "\'-Infinity\'::double precision"
  else lib.formatFloat f

def formatLiteral : Value → Except Err String :=
  formatLiteralWith (fun b => if b then "TRUE" else "FALSE") (fun f => .ok (formatFloat lib f))
    quoteString (fun b => "decode(\'" ++ encodeToString b ++ "\', \'hex\')")
    (fun t => "TIMESTAMP WITH TIME ZONE \'" ++ lib.formatTime dateTimeLayout t ++ "\'")

def endsWith : Template where
  -- right(%[1]s, length(%[2]s)) = %[3]s
  operands := 2
  tree c xs := .cmp .eq (.fn2 .rightPg c (.fn1 .length (xs.getD 0 .null))) (xs.getD 1 .null)
  tree_binds c xs hc h := by
    obtain ⟨x, y, rfl⟩ := List.length_eq_two.mp h
    simp [hc]

def stringPredicates : StringPredicates where
  -- strpos(%[1]s, %[2]s) > 0
  contains := .single (fun c x => .cmp .gt (.fn2 .strpos c x) zero)
    (fun c x hc => by simp [hc, zero])
  -- starts_with(%[1]s, %[2]s)
  startsWith := .single (fun c x => .holds (.fn2 .startsWithPg c x))
    (fun c x hc => by simp [hc])
  endsWith := endsWith
  -- %[1]s ~ %[2]s
  «matches» := .single (fun c x => .cmp .tilde c x)
    (fun c x hc => by simp [hc])
  endsWithBinds := 2
  contains_operands := rfl
  startsWith_operands := rfl
  matches_operands := rfl
  endsWith_operands := rfl

def dialect : Dialect where
  quoteIdent name := quoteQualified name "\""
  placeholder n := "$" ++ toString n
  formatLiteral := formatLiteral lib
  sizeExpr c := .fn1 .length c
  stringPredicates := stringPredicates
  needle _ s := .ok s
  sizeExpr_binds c hc := by simp [hc]

end Postgres

namespace Mariadb

def dateTimeLayout : String := "2006-01-02 15:04:05.000000"

def quoteString : String → String := quoteWith "\'" (fun c =>
  if c.toNat = 39 then some "\'\'"
  else if c = '\\' then some "\\\\"
  else if c.toNat = 0 then some "\\0"
  else escapeControl c)

/-- MariaDB has no spelling for the non-finite values. -/
def formatFloat (f : Double) : Except Err String :=
  if f.isNaN || f.isInf then
    .error ⟨.unsupportedType, "MariaDB has no literal for " ++ lib.formatFloat f⟩
  else .ok (lib.formatFloat f)

def formatLiteral : Value → Except Err String :=
  formatLiteralWith (fun b => if b then "TRUE" else "FALSE") (formatFloat lib) quoteString
    (fun b => "X\'" ++ encodeToString b ++ "\'")
    (fun t => "\'" ++ lib.formatTime dateTimeLayout t ++ "\'")

/-- The suffix comparison with its length guard, which keeps padding collations exact. -/
def endsWith : Template where
  -- (CHAR_LENGTH(%[1]s) >= CHAR_LENGTH(%[2]s) AND RIGHT(%[1]s, CHAR_LENGTH(%[3]s)) = %[4]s)
  operands := 3
  tree c xs := .both
    (.cmp .gte (.fn1 .charLength c) (.fn1 .charLength (xs.getD 0 .null)))
    (.cmp .eq (.fn2 .right c (.fn1 .charLength (xs.getD 1 .null))) (xs.getD 2 .null))
  tree_binds c xs hc h := by
    obtain ⟨x, y, z, rfl⟩ := List.length_eq_three.mp h
    simp [hc]

def stringPredicates : StringPredicates where
  -- LOCATE(%[2]s, %[1]s) > 0
  contains := .single (fun c x => .cmp .gt (.fn2 .locate x c) zero)
    (fun c x hc => by simp [hc, zero])
  -- LOCATE(%[2]s, %[1]s) = 1
  startsWith := .single (fun c x => .cmp .eq (.fn2 .locate x c) one)
    (fun c x hc => by simp [hc, one])
  endsWith := endsWith
  -- %[1]s REGEXP %[2]s
  «matches» := .single (fun c x => .cmp .regexp c x)
    (fun c x hc => by simp [hc])
  endsWithBinds := 3
  contains_operands := rfl
  startsWith_operands := rfl
  matches_operands := rfl
  endsWith_operands := rfl

def dialect : Dialect where
  quoteIdent name := quoteQualified name "`"
  placeholder _ := "?"
  formatLiteral := formatLiteral lib
  sizeExpr c := .fn1 .charLength c
  stringPredicates := stringPredicates
  needle op s := if op = .opMatches then Regexanchor.endOfText lib s else .ok s
  sizeExpr_binds c hc := by simp [hc]

end Mariadb

namespace Clickhouse

def dateTimeLayout : String := "2006-01-02 15:04:05.000"

def quoteString : String → String := quoteWith "\'" (fun c =>
  if c = '\\' then some "\\\\"
  else if c.toNat = 39 then some "\\\'"
  else if c.toNat = 0 then some "\\0"
  else escapeControl c)

def formatFloat (f : Double) : String :=
  if f.isNaN then "nan"
  else if f.isInf && !f.neg then "inf"
  else if f.isInf then "-inf"
  else lib.formatFloat f

def formatLiteral : Value → Except Err String :=
  formatLiteralWith (fun b => if b then "true" else "false") (fun f => .ok (formatFloat lib f))
    quoteString (fun b => "unhex(\'" ++ encodeToString b ++ "\')")
    (fun t => "toDateTime64(\'" ++ lib.formatTime dateTimeLayout t ++ "\', 3, \'UTC\')")

/-- Code points of a string, elements of an array. -/
def sizeExpr (c : Operand) : Operand :=
  .fn3 .cond (.fn2 .startsWith (.fn1 .toTypeName c) (.inline (.string "Array(") "\'Array(\'"))
    (.fn1 .length c) (.fn1 .lengthUTF8 (.fn1 .toString c))

def stringPredicates : StringPredicates where
  -- position(%[1]s, %[2]s) > 0
  contains := .single (fun c x => .cmp .gt (.fn2 .position c x) zero)
    (fun c x hc => by simp [hc, zero])
  -- startsWith(%[1]s, %[2]s)
  startsWith := .single (fun c x => .holds (.fn2 .startsWith c x))
    (fun c x hc => by simp [hc])
  -- endsWith(%[1]s, %[2]s)
  endsWith := .single (fun c x => .holds (.fn2 .endsWith c x))
    (fun c x hc => by simp [hc])
  -- match(%[1]s, %[2]s)
  «matches» := .single (fun c x => .holds (.fn2 .match c x))
    (fun c x hc => by simp [hc])
  endsWithBinds := 0
  contains_operands := rfl
  startsWith_operands := rfl
  matches_operands := rfl
  endsWith_operands := rfl

def dialect : Dialect where
  quoteIdent name := quoteWhole name "`"
  placeholder _ := "?"
  formatLiteral := formatLiteral lib
  sizeExpr := sizeExpr
  stringPredicates := stringPredicates
  needle _ s := .ok s
  sizeExpr_binds c hc := by simp [sizeExpr, hc]

end Clickhouse

def Backend.dialect : Backend → Dialect
  | postgres => Postgres.dialect lib
  | mariadb => Mariadb.dialect lib
  | clickhouse => Clickhouse.dialect lib

end Dialects

end GoAtlas.Filter.Sql
