import StackScript.Machine.Basic
import StackScript.Number.Binary64

/-!
# Instructions
-/

namespace StackScript

/-- Instructions that open and close nothing. -/
inductive Op where
  | unreachable
  /-- Branch to the label `depth` levels out. -/
  | br (depth : UInt32)
  | brIf (depth : UInt32)
  | return_
  /-- Call by function number, imports first. -/
  | call (function : UInt32)
  /-- Call through the table, with the slot on top of the stack, at a type from the type table. -/
  | callIndirect (type : UInt32)
  | drop
  | localGet (i : UInt32)
  | localSet (i : UInt32)
  | localTee (i : UInt32)
  | i32Const (value : BitVec 32)
  | i64Const (value : BitVec 64)
  | f64Const (value : Binary64)
  | load (kind : MemKind) (offset : UInt32)
  | store (kind : MemKind) (offset : UInt32)
  /-- Copies bytes: destination, source, length. -/
  | memoryCopy
  | num (op : NumOp)
  deriving DecidableEq, Repr

/-- Instructions of a flat body. -/
inductive Instr where
  | block (ty : Option ValType)
  | loop (ty : Option ValType)
  | if_ (ty : Option ValType)
  | else_
  | end_
  | op (o : Op)
  deriving DecidableEq, Repr

/-- Instructions with their blocks as trees. -/
inductive Code where
  | op (o : Op)
  | block (ty : Option ValType) (body : List Code)
  | loop (body : List Code)
  | cond (ty : Option ValType) (thenBody : List Code)
  | condElse (ty : Option ValType) (thenBody elseBody : List Code)

namespace Code

mutual

/-- A tree as a flat body. -/
def flat : Code → List Instr
  | op o => [.op o]
  | block ty body => .block ty :: (flatList body ++ [.end_])
  | loop body => .loop none :: (flatList body ++ [.end_])
  | cond ty body => .if_ ty :: (flatList body ++ [.end_])
  | condElse ty body other => .if_ ty :: (flatList body ++ .else_ :: (flatList other ++ [.end_]))

/-- Trees in order as a flat body. -/
def flatList : List Code → List Instr
  | [] => []
  | c :: cs => c.flat ++ flatList cs

end

/-- Plain instructions as trees. -/
def ops (os : List Op) : List Code :=
  os.map op

end Code

end StackScript
