import Mathlib.Data.List.Basic
import StackScript.Tree.Grammar

/-!
# Numbers in trees
-/

namespace StackScript

/-! ## Numbers in a tree -/

mutual

/-- The numbers of an expression and of everything in it. -/
@[simp] def Expr.numbers : Expr → List Nat
  | ⟨id, form, _⟩ => form.numbers ++ [id]

@[simp] def ExprForm.numbers : ExprForm → List Nat
  | .int _ | .float _ | .bool _ | .str _ | .bytes _ | .ident _ | .path _ _ => []
  | .interp parts => partNumbers parts
  | .binary _ lhs rhs => lhs.numbers ++ rhs.numbers
  | .unary _ e => e.numbers
  | .cast e _ => e.numbers
  | .call callee args => callee.numbers ++ exprNumbers args
  | .methodCall receiver _ args => receiver.numbers ++ exprNumbers args
  | .field object _ => object.numbers
  | .index object position => object.numbers ++ position.numbers
  | .await e => e.numbers
  | .try_ e => e.numbers
  | .outcome _ e => e.numbers
  | .array es => exprNumbers es
  | .structLit _ fields => fieldNumbers fields
  | .match_ scrutinee arms => scrutinee.numbers ++ armNumbers arms
  | .lambda _ _ body => body.numbers
  | .block b => b.numbers

@[simp] def exprNumbers : List Expr → List Nat
  | [] => []
  | e :: es => e.numbers ++ exprNumbers es

@[simp] def partNumbers : List InterpPart → List Nat
  | [] => []
  | .text _ :: ps => partNumbers ps
  | .expr e :: ps => e.numbers ++ partNumbers ps

@[simp] def fieldNumbers : List FieldInit → List Nat
  | [] => []
  | ⟨_, e, _⟩ :: fs => e.numbers ++ fieldNumbers fs

@[simp] def armNumbers : List MatchArm → List Nat
  | [] => []
  | ⟨_, e, _⟩ :: as => e.numbers ++ armNumbers as

@[simp] def LambdaBody.numbers : LambdaBody → List Nat
  | .expr e => e.numbers
  | .block b => b.numbers

@[simp] def Block.numbers : Block → List Nat
  | ⟨ss, _⟩ => stmtNumbers ss

@[simp] def stmtNumbers : List Stmt → List Nat
  | [] => []
  | s :: ss => s.numbers ++ stmtNumbers ss

/-- The numbers of a statement and of everything in it. -/
@[simp] def Stmt.numbers : Stmt → List Nat
  | ⟨form, _⟩ => form.numbers

@[simp] def StmtForm.numbers : StmtForm → List Nat
  | .let_ id _ _ _ init => init.numbers ++ [id]
  | .assign target _ value => target.numbers ++ value.numbers
  | .if_ cond thenBlock none => cond.numbers ++ thenBlock.numbers
  | .if_ cond thenBlock (some elseBlock) => cond.numbers ++ thenBlock.numbers ++ elseBlock.numbers
  | .while_ cond body => cond.numbers ++ body.numbers
  | .for_ id _ iterable body => iterable.numbers ++ body.numbers ++ [id]
  | .break_ | .continue_ => []
  | .return_ none => []
  | .return_ (some e) => e.numbers
  | .expr e => e.numbers
  | .block b => b.numbers

end

/-- The numbers in the body of a function. -/
def FunctionDecl.numbers (d : FunctionDecl) : List Nat :=
  d.body.toList.flatMap Block.numbers

/-- The numbers in an item. -/
def Item.numbers : Item → List Nat
  | .function d => d.numbers
  | .struct d => d.methods.flatMap FunctionDecl.numbers
  | .enum _ => []
  | .stmt s => s.numbers

/-- The numbers of all nodes of a program. -/
def Program.numbers (p : Program) : List Nat :=
  p.items.flatMap Item.numbers

/-! ### Lists -/

theorem exprNumbers_eq (es : List Expr) : exprNumbers es = es.flatMap Expr.numbers := by
  induction es with
  | nil => rfl
  | cons e es ih => rw [exprNumbers, ih, List.flatMap_cons]

theorem stmtNumbers_eq (ss : List Stmt) : stmtNumbers ss = ss.flatMap Stmt.numbers := by
  induction ss with
  | nil => rfl
  | cons s ss ih => rw [stmtNumbers, ih, List.flatMap_cons]

theorem fieldNumbers_eq (fs : List FieldInit) : fieldNumbers fs = fs.flatMap fun f => f.value.numbers := by
  induction fs with
  | nil => rfl
  | cons f fs ih =>
    obtain ⟨name, value, span⟩ := f
    rw [fieldNumbers, ih, List.flatMap_cons]

theorem armNumbers_eq (as : List MatchArm) : armNumbers as = as.flatMap fun a => a.body.numbers := by
  induction as with
  | nil => rfl
  | cons a as ih =>
    obtain ⟨pattern, body, span⟩ := a
    rw [armNumbers, ih, List.flatMap_cons]

@[simp] theorem partNumbers_ofText_append (s : String) (parts : List InterpPart) :
    partNumbers (InterpPart.ofText s ++ parts) = partNumbers parts := by
  unfold InterpPart.ofText
  split
  · rfl
  · rw [List.singleton_append, partNumbers]

end StackScript
