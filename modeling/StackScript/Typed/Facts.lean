import StackScript.Typed.Basic

/-!
# What the checker found out

A checked program read as a list of facts about its nodes, for reports.
-/

namespace StackScript

/-- How a call is carried out. -/
inductive Dispatch where
  | target (t : CallTarget)
  | method (struct : String) (slot : Nat)
  | indirect
  | variant (enum : String) (tag : Nat)
  | push
  | pop
  | arrayLength
  | byteLength

/-- What a name stands for. -/
inductive Resolution where
  | local_ (v : Variable)
  | captured (v : Variable)
  | function (name : String)

/-- The owner of parameters. -/
inductive ParamsOwner where
  | function (name : String)
  | method (struct name : String)
  | lambda (id : Nat)

/-- A fact about a node. -/
inductive Fact where
  | type (id : Nat) (ty : Ty)
  | call (id : Nat) (d : Dispatch)
  | resolution (id : Nat) (r : Resolution)
  | unit (id : Nat) (enum : String) (tag : Nat)
  /-- The variable of a `let`, a `for` or a match arm; an arm is known by its body. -/
  | binding (id : Nat) (v : Variable)
  | params (owner : ParamsOwner) (vs : List Variable)
  | captures (id : Nat) (vs : List Variable)

namespace Typed

/-- The facts of a form that are about its own node. -/
def Form.ownFacts (id : Nat) : Form → List Fact
  | .local_ v => [.resolution id (.local_ v)]
  | .captured v => [.resolution id (.captured v)]
  | .function n => [.resolution id (.function n)]
  | .unit e tag => [.unit id e tag]
  | .call t _ => [.call id (.target t)]
  | .method s slot _ _ => [.call id (.method s slot)]
  | .indirect _ _ => [.call id .indirect]
  | .variant e tag _ => [.call id (.variant e tag)]
  | .push _ _ => [.call id .push]
  | .pop _ => [.call id .pop]
  | .arrayLength _ => [.call id .arrayLength]
  | .byteLength _ => [.call id .byteLength]
  | .lambda ps cs _ => [.params (.lambda id) ps, .captures id cs]
  | _ => []

mutual

/-- The facts of an expression. -/
def Expr.facts : Expr → List Fact
  | ⟨id, ty, form⟩ => .type id ty :: form.ownFacts id ++ form.facts

/-- The facts of the parts of a form. -/
def Form.facts : Form → List Fact
  | .int _ | .float _ | .bool _ | .str _ | .bytes _ => []
  | .local_ _ | .captured _ | .function _ | .unit _ _ => []
  | .interp parts => partFacts parts
  | .binary _ lhs rhs => lhs.facts ++ rhs.facts
  | .unary _ e => e.facts
  | .cast e => e.facts
  | .call _ args => exprFacts args
  | .method _ _ receiver args => receiver.facts ++ exprFacts args
  | .indirect callee args => callee.facts ++ exprFacts args
  | .variant _ _ none => []
  | .variant _ _ (some e) => e.facts
  | .push receiver value => receiver.facts ++ value.facts
  | .pop e => e.facts
  | .arrayLength e => e.facts
  | .byteLength e => e.facts
  | .field e _ => e.facts
  | .index e i => e.facts ++ i.facts
  | .await e => e.facts
  | .try_ e => e.facts
  | .outcome _ e => e.facts
  | .array es => exprFacts es
  | .structLit _ fields => initFacts fields
  | .match_ e arms => e.facts ++ armFacts arms
  | .lambda _ _ (.expr e) => e.facts
  | .lambda _ _ (.block ss) => stmtFacts ss
  | .block ss => stmtFacts ss

/-- The facts of expressions. -/
def exprFacts : List Expr → List Fact
  | [] => []
  | e :: es => e.facts ++ exprFacts es

/-- The facts of the pieces of a string. -/
def partFacts : List Part → List Fact
  | [] => []
  | .text _ :: ps => partFacts ps
  | .expr e :: ps => e.facts ++ partFacts ps

/-- The facts of field values. -/
def initFacts : List Init → List Fact
  | [] => []
  | ⟨_, _, e⟩ :: fs => e.facts ++ initFacts fs

/-- The facts of arms. -/
def armFacts : List Arm → List Fact
  | [] => []
  | ⟨p, e⟩ :: as => (p.binder?.toList.map (.binding e.id)) ++ e.facts ++ armFacts as

/-- The facts of statements. -/
def stmtFacts : List Stmt → List Fact
  | [] => []
  | s :: ss => s.facts ++ stmtFacts ss

/-- The facts of a statement. -/
def Stmt.facts : Stmt → List Fact
  | .let_ id v e => .binding id v :: e.facts
  | .assign t _ e => t.facts ++ e.facts
  | .if_ c t none => c.facts ++ stmtFacts t
  | .if_ c t (some e) => c.facts ++ stmtFacts t ++ stmtFacts e
  | .while_ c b => c.facts ++ stmtFacts b
  | .for_ id v e b => .binding id v :: e.facts ++ stmtFacts b
  | .break_ | .continue_ => []
  | .return_ none => []
  | .return_ (some e) => e.facts
  | .expr e => e.facts
  | .block ss => stmtFacts ss

end

/-- The facts of a function or method. -/
def Routine.facts (r : Routine) : List Fact :=
  let owner :=
    match r.owner with
    | some (struct, _) => ParamsOwner.method struct r.sig.name
    | none => ParamsOwner.function r.sig.name
  .params owner r.params :: stmtFacts r.body

/-- All facts of a program. -/
def Program.facts (p : Program) : List Fact :=
  p.routines.flatMap Routine.facts ++ stmtFacts p.script

/-- The variables that a fact declares. -/
def declaredBy : Fact → List Variable
  | .binding _ v => [v]
  | .params _ vs => vs
  | _ => []

/-- All variables of a program in the order of their numbers. -/
def Program.allVariables (p : Program) : List Variable :=
  (p.facts.flatMap declaredBy).mergeSort fun a b => a.id ≤ b.id

end Typed

end StackScript
