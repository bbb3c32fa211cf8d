import GoAtlas.Filter.Ast

/-!
# The emitted SQL

The text a SQL translator emits, kept as the tree it was concatenated from: operands, atomic
predicates, clauses. `text` is that concatenation. A bind slot remembers the value pushed onto the
argument slice when it was rendered; only its marker reaches the text.
-/

namespace GoAtlas.Filter.Sql

open GoAtlas.Filter

/-! ## Operands -/

inductive Fn where
  | strpos | startsWithPg | rightPg | length
  | locate | charLength | right
  | position | startsWith | endsWith | «match» | toTypeName | toString | lengthUTF8 | cond
  deriving DecidableEq, Repr

@[simp] def Fn.text : Fn → String
  | strpos => "strpos"
  | startsWithPg => "starts_with"
  | rightPg => "right"
  | length => "length"
  | locate => "LOCATE"
  | charLength => "CHAR_LENGTH"
  | right => "RIGHT"
  | position => "position"
  | startsWith => "startsWith"
  | endsWith => "endsWith"
  | «match» => "match"
  | toTypeName => "toTypeName"
  | toString => "toString"
  | lengthUTF8 => "lengthUTF8"
  | cond => "if"

inductive Operand where
  /-- A column by its mapped name, with the quoted form the dialect gave it. -/
  | column (name quoted : String)
  /-- The `n`-th bind slot, its marker and the value bound there. -/
  | bind (n : Nat) (marker : String) (value : Value)
  | null
  | inline (value : Value) (rendered : String)
  | fn1 (f : Fn) (a : Operand)
  | fn2 (f : Fn) (a b : Operand)
  | fn3 (f : Fn) (a b c : Operand)
  deriving Repr

namespace Operand

@[simp] def text : Operand → String
  | column _ quoted => quoted
  | bind _ marker _ => marker
  | null => "NULL"
  | inline _ rendered => rendered
  | fn1 f a => f.text ++ "(" ++ a.text ++ ")"
  | fn2 f a b => f.text ++ "(" ++ a.text ++ ", " ++ b.text ++ ")"
  | fn3 f a b c => f.text ++ "(" ++ a.text ++ ", " ++ b.text ++ ", " ++ c.text ++ ")"

/-- The bind slots in the order of the text, each with its value. -/
@[simp] def binds : Operand → List (Value × Nat)
  | bind n _ v => [(v, n)]
  | column .. | null | inline .. => []
  | fn1 _ a => a.binds
  | fn2 _ a b => a.binds ++ b.binds
  | fn3 _ a b c => a.binds ++ b.binds ++ c.binds

end Operand

/-! ## Predicates -/

inductive CmpOp where
  | eq | ne | lt | lte | gt | gte
  /-- The regular-expression operators of PostgreSQL and MariaDB. -/
  | tilde | regexp
  deriving DecidableEq, Repr

@[simp] def CmpOp.text : CmpOp → String
  | eq => "="
  | ne => "!="
  | lt => "<"
  | lte => "<="
  | gt => ">"
  | gte => ">="
  | tilde => "~"
  | regexp => "REGEXP"

inductive Atom where
  | cmp (op : CmpOp) (a b : Operand)
  | isNull (a : Operand)
  | isNotNull (a : Operand)
  | inSet (a : Operand) (members : List Operand)
  | holds (a : Operand)
  /-- Two predicates joined inside one pair of parentheses. -/
  | both (a b : Atom)
  deriving Repr

namespace Atom

@[simp] def text : Atom → String
  | cmp op a b => a.text ++ " " ++ op.text ++ " " ++ b.text
  | isNull a => a.text ++ " IS NULL"
  | isNotNull a => a.text ++ " IS NOT NULL"
  | inSet a ms => a.text ++ " IN (" ++ ", ".intercalate (ms.map Operand.text) ++ ")"
  | holds a => a.text
  | both a b => "(" ++ a.text ++ " AND " ++ b.text ++ ")"

@[simp] def binds : Atom → List (Value × Nat)
  | cmp _ a b => a.binds ++ b.binds
  | isNull a | isNotNull a | holds a => a.binds
  | inSet a ms => a.binds ++ ms.flatMap Operand.binds
  | both a b => a.binds ++ b.binds

end Atom

inductive Conn where
  | and | or
  deriving DecidableEq, Repr

@[simp] def Conn.text : Conn → String
  | and => "AND"
  | or => "OR"

inductive Clause where
  | atom (a : Atom)
  /-- The disjunction a dynamic `in` list renders to. -/
  | anyOf (parts : List Atom)
  | logical (c : Conn) (l r : Clause)
  | not (c : Clause)
  deriving Repr

namespace Clause

@[simp] def text : Clause → String
  | atom a => a.text
  | anyOf ps => "(" ++ " OR ".intercalate (ps.map (fun p => "(" ++ p.text ++ ")")) ++ ")"
  | logical c l r => "(" ++ l.text ++ ") " ++ c.text ++ " (" ++ r.text ++ ")"
  | not c => "NOT (" ++ c.text ++ ")"

@[simp] def binds : Clause → List (Value × Nat)
  | atom a => a.binds
  | anyOf ps => ps.flatMap Atom.binds
  | logical _ l r => l.binds ++ r.binds
  | not c => c.binds

def matchAll : Clause := .atom (.cmp .eq (.inline (.int64 1) "1") (.inline (.int64 1) "1"))

def matchNone : Clause := .atom (.cmp .eq (.inline (.int64 1) "1") (.inline (.int64 0) "0"))

end Clause

/-! ## Replacing bind slots -/

section Subst

variable (g : Nat → String → Value → Operand)

@[simp] def Operand.subst : Operand → Operand
  | .bind n marker v => g n marker v
  | .column name quoted => .column name quoted
  | .null => .null
  | .inline v rendered => .inline v rendered
  | .fn1 f a => .fn1 f a.subst
  | .fn2 f a b => .fn2 f a.subst b.subst
  | .fn3 f a b c => .fn3 f a.subst b.subst c.subst

@[simp] def Atom.subst : Atom → Atom
  | .cmp op a b => .cmp op (a.subst g) (b.subst g)
  | .isNull a => .isNull (a.subst g)
  | .isNotNull a => .isNotNull (a.subst g)
  | .inSet a ms => .inSet (a.subst g) (ms.map (Operand.subst g))
  | .holds a => .holds (a.subst g)
  | .both a b => .both a.subst b.subst

@[simp] def Clause.subst : Clause → Clause
  | .atom a => .atom (a.subst g)
  | .anyOf ps => .anyOf (ps.map (Atom.subst g))
  | .logical c l r => .logical c l.subst r.subst
  | .not c => .not c.subst

variable {g} (hg : ∀ n marker v, (g n marker v).text = marker)

include hg

theorem Operand.text_subst (o : Operand) : (o.subst g).text = o.text := by
  induction o <;> simp_all

theorem Atom.text_subst (a : Atom) : (a.subst g).text = a.text := by
  induction a <;> simp_all [Operand.text_subst hg, Function.comp_def]

theorem Clause.text_subst (c : Clause) : (c.subst g).text = c.text := by
  induction c <;> simp_all [Atom.text_subst hg, Function.comp_def]

end Subst

end GoAtlas.Filter.Sql
