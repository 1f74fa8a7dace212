import StackScript.Emit.Layout
import StackScript.Host.Import
import StackScript.Tree.Basic

/-!
# Instructions for operators and conversions
-/

namespace StackScript

namespace Op

/-- Reads a local. -/
def get (i : Nat) : Op := .localGet i.toUInt32

/-- Writes a local. -/
def set (i : Nat) : Op := .localSet i.toUInt32

/-- Pushes a number of 32 bits. -/
def const (n : Nat) : Op := .i32Const (BitVec.ofNat 32 n)

/-- Calls a function by number. -/
def callFn (i : Nat) : Op := .call i.toUInt32

/-- Calls a function of the host. -/
def host (h : HostImport) : Op := callFn h.index

/-- Reads memory at an offset. -/
def read (kind : MemKind) (offset : Nat) : Op := .load kind offset.toUInt32

/-- Writes memory at an offset. -/
def write (kind : MemKind) (offset : Nat) : Op := .store kind offset.toUInt32

/-- Reads the first four bytes of an object: its length or its tag. -/
def head : Op := read .i32 0

/-- Adds two numbers of 32 bits. -/
def add : Op := .num (.arith .w32 .add)

/-- Subtracts two numbers of 32 bits. -/
def sub : Op := .num (.arith .w32 .sub)

/-- Multiplies two numbers of 32 bits. -/
def mul : Op := .num (.arith .w32 .mul)

/-- Tests a number of 32 bits for zero. -/
def isZero : Op := .num (.eqz .w32)

/-- Whether two numbers of 32 bits differ. -/
def differ : Op := .num (.rel .w32 .ne)

/-- Whether the first of two unsigned numbers is less. -/
def below : Op := .num (.rel .w32 (.lt false))

/-- Whether the first of two unsigned numbers is not less. -/
def notBelow : Op := .num (.rel .w32 (.ge false))

/-- The address of an element: on the stack stand an address and a number of words. -/
def offsetWords : List Op := [const Layout.word, mul, add]

end Op

namespace Emit

open Layout (Word)

/-- An integer literal as a word of its type. -/
def intWord (value : Int) (ty : Ty) : Word :=
  match ty with
  | .float => .f64 (Binary64.ofInt value)
  | .int kind => if kind.isWide then .i64 (BitVec.ofInt 64 value) else .i32 (BitVec.ofInt 32 value)
  | _ => .i32 (BitVec.ofInt 32 value)

/-- The instruction that pushes a word. -/
def wordConst : Word → Op
  | .i32 v => .i32Const v
  | .i64 v => .i64Const v
  | .f64 v => .f64Const v

/-- The instruction that pushes an integer literal. -/
def intConst (value : Int) (ty : Ty) : Op :=
  wordConst (intWord value ty)

/-- The width of the machine word of an integer type. -/
def wordSize (kind : IntKind) : WordSize :=
  if kind.isWide then .w64 else .w32

/-- The instruction of an operator on floats. -/
def floatOp? : BinaryOp → Option NumOp
  | .add => some (.floatArith .add)
  | .sub => some (.floatArith .sub)
  | .mul => some (.floatArith .mul)
  | .div => some (.floatArith .div)
  | .eq => some (.floatRel .eq)
  | .ne => some (.floatRel .ne)
  | .lt => some (.floatRel .lt)
  | .le => some (.floatRel .le)
  | .gt => some (.floatRel .gt)
  | .ge => some (.floatRel .ge)
  | _ => none

/-- The instruction of an operator on integers. -/
def intOp? (size : WordSize) (signed : Bool) : BinaryOp → Option NumOp
  | .add => some (.arith size .add)
  | .sub => some (.arith size .sub)
  | .mul => some (.arith size .mul)
  | .div => some (.arith size (.div signed))
  | .rem => some (.arith size (.rem signed))
  | .eq => some (.rel size .eq)
  | .ne => some (.rel size .ne)
  | .lt => some (.rel size (.lt signed))
  | .le => some (.rel size (.le signed))
  | .gt => some (.rel size (.gt signed))
  | .ge => some (.rel size (.ge signed))
  | _ => none

/-- The instruction of an operator on two values of a type. -/
def numericOp? (op : BinaryOp) (ty : Ty) : Option NumOp :=
  match ty with
  | .float => floatOp? op
  | .int kind => intOp? (wordSize kind) kind.signed op
  | .bool =>
    match op with
    | .eq => some (.rel .w32 .eq)
    | .ne => some (.rel .w32 .ne)
    | _ => none
  | _ => none

/-- Brings an integer of less than 32 bits back into its range. -/
def normalize (kind : IntKind) : List Op :=
  if kind.bits < 32 then
    if kind.signed then
      let shift := 32 - kind.bits
      [.const shift, .num (.bits .shl), .const shift, .num (.bits (.shr true))]
    else [.const (twoPow kind.bits - 1), .num (.bits .and)]
  else []

/-- The instructions of a conversion between number types. -/
def cast? (source target : Ty) : Option (List Op) :=
  match source, target with
  | .float, .float => some []
  | .int a, .float => some [.num (.convert (.toFloat (wordSize a) a.signed))]
  | .float, .int b => some (.num (.convert (.truncate (wordSize b) b.signed)) :: normalize b)
  | .int a, .int b =>
    let resize : List Op :=
      if !a.isWide && b.isWide then [.num (.convert (.extend a.signed))]
      else if a.isWide && !b.isWide then [.num (.convert .wrap)]
      else []
    some (resize ++ if b.isWide then [] else normalize b)
  | _, _ => none

/-- A value as the payload of a promise. -/
def widen : ValType → List Op
  | .i32 => [.num (.convert (.extend false))]
  | .i64 => []
  | .f64 => [.num (.convert .floatBits)]

/-- A value from the payload of a promise; without a value the payload is dropped. -/
def narrow : Option ValType → List Op
  | some .i32 => [.num (.convert .wrap)]
  | some .i64 => []
  | some .f64 => [.num (.convert .bitsFloat)]
  | none => [.drop]

end Emit

end StackScript
