import StackScript.Typed.Basic

/-!
# Captured variables

## Design Notes

Variables are numbered in the order of their declarations, so the variables declared outside a
function literal are those with a number below the first one that the literal declares.
-/

namespace StackScript

/-- Adds a variable to the end of a list unless it is there. -/
def Variable.addNew (vs : List Variable) (v : Variable) : List Variable :=
  if vs.any (·.id = v.id) then vs else vs ++ [v]

namespace Typed

mutual

/-- The variables that an expression reads, in order; a function literal reads what it captures. -/
def Expr.reads : Expr → List Variable
  | ⟨_, _, form⟩ => form.reads

/-- The variables that a form reads. -/
def Form.reads : Form → List Variable
  | .int _ | .float _ | .bool _ | .str _ | .bytes _ | .function _ | .unit _ _ => []
  | .interp parts => partReads parts
  | .local_ v => [v]
  | .captured v => [v]
  | .binary _ lhs rhs => lhs.reads ++ rhs.reads
  | .unary _ e => e.reads
  | .cast e => e.reads
  | .call _ args => exprReads args
  | .method _ _ receiver args => receiver.reads ++ exprReads args
  | .indirect callee args => callee.reads ++ exprReads args
  | .variant _ _ none => []
  | .variant _ _ (some e) => e.reads
  | .push receiver value => receiver.reads ++ value.reads
  | .pop e => e.reads
  | .arrayLength e => e.reads
  | .byteLength e => e.reads
  | .field e _ => e.reads
  | .index e i => e.reads ++ i.reads
  | .await e => e.reads
  | .try_ e => e.reads
  | .outcome _ e => e.reads
  | .array es => exprReads es
  | .structLit _ fields => initReads fields
  | .match_ e arms => e.reads ++ armReads arms
  | .lambda _ captures _ => captures
  | .block ss => stmtReads ss

/-- The variables that expressions read. -/
def exprReads : List Expr → List Variable
  | [] => []
  | e :: es => e.reads ++ exprReads es

/-- The variables that the pieces of a string read. -/
def partReads : List Part → List Variable
  | [] => []
  | .text _ :: ps => partReads ps
  | .expr e :: ps => e.reads ++ partReads ps

/-- The variables that field values read. -/
def initReads : List Init → List Variable
  | [] => []
  | ⟨_, _, e⟩ :: fs => e.reads ++ initReads fs

/-- The variables that arms read. -/
def armReads : List Arm → List Variable
  | [] => []
  | ⟨_, e⟩ :: as => e.reads ++ armReads as

/-- The variables that statements read. -/
def stmtReads : List Stmt → List Variable
  | [] => []
  | s :: ss => s.reads ++ stmtReads ss

/-- The variables that a statement reads. -/
def Stmt.reads : Stmt → List Variable
  | .let_ _ _ e => e.reads
  | .assign t _ e => t.reads ++ e.reads
  | .if_ c t none => c.reads ++ stmtReads t
  | .if_ c t (some e) => c.reads ++ stmtReads t ++ stmtReads e
  | .while_ c b => c.reads ++ stmtReads b
  | .for_ _ _ e b => e.reads ++ stmtReads b
  | .break_ | .continue_ => []
  | .return_ none => []
  | .return_ (some e) => e.reads
  | .expr e => e.reads
  | .block ss => stmtReads ss

end

/-- The variables that the body of a function literal reads. -/
def Body.reads : Body → List Variable
  | .expr e => e.reads
  | .block ss => stmtReads ss

/-- The variables with numbers below `first` that a body reads, each once, in the order of their
first use. -/
def Body.captures (first : Nat) (b : Body) : List Variable :=
  (b.reads.filter (·.id < first)).foldl Variable.addNew []

end Typed

end StackScript
