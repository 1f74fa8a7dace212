import StackScript.Typing.Check

/-!
# The flow of control through trees
-/

namespace StackScript

namespace Typed

/-- How control passes through a tree. -/
inductive Flow where
  | stmt (t : Stmt) (inner : List Flow)
  /-- Leaves the innermost loop, or starts its next round. -/
  | jump (isBreak : Bool)
  /-- Control does not come back. -/
  | leave
  | maybe (inner : List Flow)
  | either (a b : List Flow)
  | loop (inner : List Flow)

namespace Flow

mutual

/-- The statements in a flow. -/
def ownStmts : Flow → List Stmt
  | stmt t inner => t :: stmts inner
  | jump _ | leave => []
  | maybe inner | loop inner => stmts inner
  | either a b => stmts a ++ stmts b

/-- The statements in flows one after the other. -/
def stmts : List Flow → List Stmt
  | [] => []
  | x :: xs => x.ownStmts ++ stmts xs

end

mutual

/-- The jumps of a flow to a loop around, in order. -/
def ownJumps : Flow → List Bool
  | stmt _ inner | maybe inner => jumps inner
  | jump isBreak => [isBreak]
  | leave | loop _ => []
  | either a b => jumps a ++ jumps b

/-- The jumps of flows one after the other to a loop around. -/
def jumps : List Flow → List Bool
  | [] => []
  | x :: xs => x.ownJumps ++ jumps xs

end

@[simp] theorem jumps_append (xs ys : List Flow) : jumps (xs ++ ys) = jumps xs ++ jumps ys := by
  induction xs with
  | nil => rfl
  | cons x xs ih => simp only [List.cons_append, jumps, ih, List.append_assoc]

@[simp] theorem stmts_append (xs ys : List Flow) : stmts (xs ++ ys) = stmts xs ++ stmts ys := by
  induction xs with
  | nil => rfl
  | cons x xs ih => simp only [List.cons_append, stmts, ih, List.append_assoc]

end Flow

mutual

/-- The flow of an expression; a function literal runs elsewhere. -/
def Expr.flow : Expr → List Flow
  | ⟨_, _, form⟩ => form.flow

/-- The flow of a form. -/
def Form.flow : Form → List Flow
  | .int _ | .float _ | .bool _ | .str _ | .bytes _ | .function _ | .unit _ _ => []
  | .local_ _ | .captured _ | .lambda _ _ _ => []
  | .interp parts => partFlow parts
  | .binary op lhs rhs => lhs.flow ++ if op.isLogical then [.maybe rhs.flow] else rhs.flow
  | .unary _ e | .cast e | .pop e | .arrayLength e | .byteLength e | .field e _ | .await e | .try_ e
  | .outcome _ e => e.flow
  | .call _ args => exprFlow args
  | .method _ _ e args | .indirect e args => e.flow ++ exprFlow args
  | .variant _ _ none => []
  | .variant _ _ (some e) => e.flow
  | .push e value | .index e value => e.flow ++ value.flow
  | .array es => exprFlow es
  | .structLit _ fields => initFlow fields
  | .match_ e arms => e.flow ++ armFlow arms
  | .block ss => stmtFlow ss

/-- The flow of expressions one after the other. -/
def exprFlow : List Expr → List Flow
  | [] => []
  | e :: es => e.flow ++ exprFlow es

/-- The flow of the pieces of a string. -/
def partFlow : List Part → List Flow
  | [] => []
  | .text _ :: ps => partFlow ps
  | .expr e :: ps => e.flow ++ partFlow ps

/-- The flow of field values. -/
def initFlow : List Init → List Flow
  | [] => []
  | ⟨_, _, e⟩ :: fs => e.flow ++ initFlow fs

/-- The flow of arms, of which one is run. -/
def armFlow : List Arm → List Flow
  | [] => [.leave]
  | ⟨_, e⟩ :: as => [.either e.flow (armFlow as)]

/-- The flow of statements one after the other. -/
def stmtFlow : List Stmt → List Flow
  | [] => []
  | s :: ss => .stmt s s.flow :: stmtFlow ss

/-- The flow of a statement. -/
def Stmt.flow : Stmt → List Flow
  | .let_ _ _ e | .expr e => e.flow
  | .assign t _ e => t.flow ++ e.flow
  | .if_ c t none => c.flow ++ [.maybe (stmtFlow t)]
  | .if_ c t (some e) => c.flow ++ [.either (stmtFlow t) (stmtFlow e)]
  | .while_ c b => [.loop (c.flow ++ stmtFlow b)]
  | .for_ _ _ e b => e.flow ++ [.loop (stmtFlow b)]
  | .break_ => [.jump true]
  | .continue_ => [.jump false]
  | .return_ none => [.leave]
  | .return_ (some e) => e.flow ++ [.leave]
  | .block ss => stmtFlow ss

end

/-- The flow of a body. -/
def Body.flow : Body → List Flow
  | .expr e => e.flow
  | .block ss => stmtFlow ss

end Typed

end StackScript
