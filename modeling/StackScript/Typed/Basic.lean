import StackScript.Tree.Basic
import StackScript.Ty.Symbols

/-!
# Checked programs

Programs in which every expression has its type and every name its meaning.

## Design Notes

Variables are numbered through the whole program in the order of their declarations.  A name that
stands for a variable of the innermost function is `local_`; one of a function around a function
literal is `captured`, and the literal lists the variables that it captures.  Nodes keep the numbers
of the tree that they come from.
-/

namespace StackScript

/-- A declared variable. -/
structure Variable where
  /-- Its number in the program. -/
  id : Nat
  name : String
  ty : Ty
  isConst : Bool

/-- What a direct call calls. -/
inductive CallTarget where
  | function (name : String)
  | external (name : String)
  | builtin (b : Builtin)
  /-- A method that takes no receiver. -/
  | static (struct : String) (slot : Nat)

namespace Typed

/-- A pattern whose names have their meaning. -/
inductive Pattern where
  | wildcard
  | bind (v : Variable)
  /-- A number, for a value of integer or float type. -/
  | int (value : Int) (ty : Ty)
  | float (value : Binary64)
  | bool (value : Bool)
  | str (value : String)
  /-- A variant by its tag, with a pattern for what it carries and that one's type. -/
  | variant (tag : Nat) (payload : Option (Ty × Pattern))

/-- The variable of a pattern; there is at most one. -/
def Pattern.binder? : Pattern → Option Variable
  | .bind v => some v
  | .variant _ (some (_, p)) => p.binder?
  | _ => none

mutual

/-- An expression with its type. -/
structure Expr where
  id : Nat
  ty : Ty
  form : Form

/-- The forms of a checked expression. -/
inductive Form where
  | int (value : Nat)
  | float (value : Binary64)
  | bool (value : Bool)
  | str (value : String)
  | bytes (value : List UInt8)
  | interp (parts : List Part)
  /-- A variable of the innermost function. -/
  | local_ (v : Variable)
  /-- A variable of a function around the innermost one. -/
  | captured (v : Variable)
  /-- A named function as a value. -/
  | function (name : String)
  /-- A variant that carries nothing. -/
  | unit (enum : String) (tag : Nat)
  | binary (op : BinaryOp) (lhs rhs : Expr)
  | unary (op : UnaryOp) (operand : Expr)
  | cast (operand : Expr)
  | call (target : CallTarget) (args : List Expr)
  | method (struct : String) (slot : Nat) (receiver : Expr) (args : List Expr)
  /-- A call of a function value. -/
  | indirect (callee : Expr) (args : List Expr)
  | variant (enum : String) (tag : Nat) (payload : Option Expr)
  | push (receiver value : Expr)
  | pop (receiver : Expr)
  | arrayLength (receiver : Expr)
  | byteLength (receiver : Expr)
  /-- A field by its place in the struct. -/
  | field (object : Expr) (place : Nat)
  | index (object position : Expr)
  | await (operand : Expr)
  | try_ (operand : Expr)
  | outcome (isOk : Bool) (value : Expr)
  | array (elements : List Expr)
  /-- Fields with their places, and the number of fields of the struct. -/
  | structLit (size : Nat) (fields : List Init)
  | match_ (scrutinee : Expr) (arms : List Arm)
  | lambda (params captures : List Variable) (body : Body)
  | block (stmts : List Stmt)

/-- A piece of an interpolated string. -/
inductive Part where
  | text (value : String)
  | expr (value : Expr)

/-- A field of a struct literal: its place, its type and its value. -/
structure Init where
  place : Nat
  ty : Ty
  value : Expr

/-- An arm of a match. -/
structure Arm where
  pattern : Pattern
  body : Expr

/-- The body of a function literal. -/
inductive Body where
  | expr (value : Expr)
  | block (stmts : List Stmt)

/-- A checked statement. -/
inductive Stmt where
  | let_ (id : Nat) (v : Variable) (init : Expr)
  | assign (target : Expr) (op : Option BinaryOp) (value : Expr)
  | if_ (cond : Expr) (thenBlock : List Stmt) (elseBlock : Option (List Stmt))
  | while_ (cond : Expr) (body : List Stmt)
  /-- A loop over the elements, of type `elem`, of an array. -/
  | for_ (id : Nat) (v : Variable) (iterable : Expr) (body : List Stmt)
  | break_
  | continue_
  | return_ (value : Option Expr)
  | expr (value : Expr)
  | block (stmts : List Stmt)

end

/-- A function or method with its body. -/
structure Routine where
  /-- The struct of a method, and the method's place in it. -/
  owner : Option (String × Nat)
  sig : FunctionSig
  params : List Variable
  body : List Stmt

/-- The name of a routine in the program: a method's has its struct in front. -/
def Routine.fullName (r : Routine) : String :=
  match r.owner with
  | some (struct, _) => struct ++ "." ++ r.sig.name
  | none => r.sig.name

/-- A checked program. -/
structure Program where
  symbols : SymbolTable
  /-- Functions and methods in order of declaration. -/
  routines : List Routine
  /-- The statements at the top level. -/
  script : List Stmt

end Typed

end StackScript
