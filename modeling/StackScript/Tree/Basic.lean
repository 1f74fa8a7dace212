import StackScript.Number.Binary64
import StackScript.Text.Position

/-!
# Programs as trees

What a source text says: items, statements, expressions, patterns and written types.

## Design Notes

Expressions, `let` statements and `for` statements carry a number; the numbers of a program are
`0, 1, …, nodeCount - 1`.  A node is a place together with its form, so that a function on trees
matches on the form and leaves the place alone.
-/

namespace StackScript

/-! ### Operators -/

/-- Operators between two operands. -/
inductive BinaryOp where
  | add | sub | mul | div | rem | eq | ne | lt | le | gt | ge | and | or
  deriving DecidableEq, Repr

namespace BinaryOp

/-- The spelling of an operator. -/
def text : BinaryOp → String
  | add => "+"
  | sub => "-"
  | mul => "*"
  | div => "/"
  | rem => "%"
  | eq => "=="
  | ne => "!="
  | lt => "<"
  | le => "<="
  | gt => ">"
  | ge => ">="
  | and => "&&"
  | or => "||"

/-- Whether the operator compares. -/
def isComparison : BinaryOp → Bool
  | eq | ne | lt | le | gt | ge => true
  | _ => false

/-- Whether the operator may skip its second operand. -/
def isLogical : BinaryOp → Bool
  | and | or => true
  | _ => false

end BinaryOp

/-- Operators in front of one operand. -/
inductive UnaryOp where
  | neg
  | not
  deriving DecidableEq, Repr

/-- The spelling of an operator. -/
def UnaryOp.text : UnaryOp → String
  | neg => "-"
  | not => "!"

/-! ### Types and patterns -/

mutual

/-- A written type and its place. -/
structure TypeExpr where
  form : TypeForm
  span : Span

/-- The forms of a written type. -/
inductive TypeForm where
  | named (name : String)
  | array (elem : TypeExpr)
  | result (ok err : TypeExpr)
  | promise (inner : TypeExpr)
  | fn (params : List TypeExpr) (ret : TypeExpr)

end

mutual

/-- A match pattern and its place. -/
structure Pattern where
  form : PatternForm
  span : Span

/-- The forms of a pattern. -/
inductive PatternForm where
  | wildcard
  | binding (name : String)
  | int (value : Int)
  | float (value : Binary64)
  | bool (value : Bool)
  | str (value : String)
  | variant (qualifier : Option String) (name : String) (payload : Option Pattern)

end

/-- A parameter and its type. -/
structure Param where
  name : String
  ty : TypeExpr
  span : Span

/-! ### Expressions and statements -/

mutual

/-- An expression: its number, its form and its place. -/
structure Expr where
  id : Nat
  form : ExprForm
  span : Span

/-- The forms of an expression. -/
inductive ExprForm where
  | int (value : Nat)
  | float (value : Binary64)
  | bool (value : Bool)
  | str (value : String)
  | bytes (value : List UInt8)
  /-- A string with expressions inside. -/
  | interp (parts : List InterpPart)
  | ident (name : String)
  | path (qualifier name : String)
  | binary (op : BinaryOp) (lhs rhs : Expr)
  | unary (op : UnaryOp) (operand : Expr)
  | cast (operand : Expr) (ty : TypeExpr)
  | call (callee : Expr) (args : List Expr)
  | methodCall (receiver : Expr) (method : String) (args : List Expr)
  | field (object : Expr) (name : String)
  | index (object position : Expr)
  | await (operand : Expr)
  /-- The operand's success, or a return of its failure. -/
  | try_ (operand : Expr)
  /-- A success (`isOk`) or a failure. -/
  | outcome (isOk : Bool) (value : Expr)
  | array (elements : List Expr)
  | structLit (name : String) (fields : List FieldInit)
  | match_ (scrutinee : Expr) (arms : List MatchArm)
  | lambda (params : List Param) (ret : Option TypeExpr) (body : LambdaBody)
  | block (block : Block)

/-- A piece of an interpolated string. -/
inductive InterpPart where
  | text (value : String)
  | expr (value : Expr)

/-- A field of a struct literal. -/
structure FieldInit where
  name : String
  value : Expr
  span : Span

/-- An arm of a match. -/
structure MatchArm where
  pattern : Pattern
  body : Expr
  span : Span

/-- The body of a function literal. -/
inductive LambdaBody where
  | expr (value : Expr)
  | block (block : Block)

/-- Statements between braces. -/
structure Block where
  stmts : List Stmt
  span : Span

/-- A statement and its place. -/
structure Stmt where
  form : StmtForm
  span : Span

/-- The forms of a statement. -/
inductive StmtForm where
  | let_ (id : Nat) (name : String) (isConst : Bool) (ty : Option TypeExpr) (init : Expr)
  /-- An assignment, with the operator of a compound one. -/
  | assign (target : Expr) (op : Option BinaryOp) (value : Expr)
  | if_ (cond : Expr) (thenBlock : Block) (elseBlock : Option Block)
  | while_ (cond : Expr) (body : Block)
  | for_ (id : Nat) (var : String) (iterable : Expr) (body : Block)
  | break_
  | continue_
  | return_ (value : Option Expr)
  | expr (value : Expr)
  | block (block : Block)

end

/-! ### Items -/

/-- A function, a method or a declared host function. -/
structure FunctionDecl where
  name : String
  params : List Param
  ret : Option TypeExpr
  /-- Absent for host functions. -/
  body : Option Block
  isAsync : Bool := false
  isExternal : Bool := false
  isExport : Bool := false
  /-- Whether a method takes the value it is called on. -/
  hasSelf : Bool := false
  span : Span

/-- A field of a struct. -/
structure FieldDecl where
  name : String
  ty : TypeExpr
  span : Span

/-- A struct with its methods. -/
structure StructDecl where
  name : String
  fields : List FieldDecl
  methods : List FunctionDecl
  span : Span

/-- A variant of an enum. -/
structure VariantDecl where
  name : String
  payload : Option TypeExpr
  span : Span

/-- An enum. -/
structure EnumDecl where
  name : String
  variants : List VariantDecl
  span : Span

/-- What stands at the top level. -/
inductive Item where
  | function (decl : FunctionDecl)
  | struct (decl : StructDecl)
  | enum (decl : EnumDecl)
  | stmt (stmt : Stmt)

/-- A whole source text. -/
structure Program where
  items : List Item
  /-- How many numbers were given to nodes. -/
  nodeCount : Nat
  span : Span

end StackScript
