import StackScript.Exec.Fault

/-!
# Operators on machine values

## Design Notes

Integers are bit vectors; an operator that takes a sign reads them as signed or unsigned numbers.
Only division and remainder can fail.
-/

namespace StackScript

/-- Operands, the top first. -/
abbrev Stack := List Value

namespace Stack

/-- Takes the top. -/
def pop : Stack → Except Fault (Value × Stack)
  | [] => .error .stackUnderflow
  | v :: rest => .ok (v, rest)

/-- Takes a number of 32 bits off the top. -/
def popI32 (s : Stack) : Except Fault (BitVec 32 × Stack) := do
  let (v, rest) ← s.pop
  return (← v.toI32, rest)

/-- Takes a number of 64 bits off the top. -/
def popI64 (s : Stack) : Except Fault (BitVec 64 × Stack) := do
  let (v, rest) ← s.pop
  return (← v.toI64, rest)

/-- Takes a float off the top. -/
def popF64 (s : Stack) : Except Fault (Binary64 × Stack) := do
  let (v, rest) ← s.pop
  return (← v.toF64, rest)

/-- Splits off the topmost operands, as many as given, in the order in which they were pushed. -/
def split? (s : Stack) (count : Nat) : Option (List Value × Stack) :=
  if count ≤ s.length then some ((s.take count).reverse, s.drop count) else none

/-- Pushes operands in order. -/
def pushAll (s : Stack) (values : List Value) : Stack :=
  values.reverse ++ s

/-- Drops operands until at most `height` are left. -/
def truncate (s : Stack) (height : Nat) : Stack :=
  s.drop (s.length - height)

end Stack

/-! ### Numbers -/

/-- Compares two integers. -/
def IntRel.eval {w : Nat} (r : IntRel) (a b : BitVec w) : Bool :=
  match r with
  | eq => a == b
  | ne => a != b
  | lt signed => if signed then a.slt b else a.ult b
  | gt signed => if signed then b.slt a else b.ult a
  | le signed => if signed then a.sle b else a.ule b
  | ge signed => if signed then b.sle a else b.ule a

/-- Whether a signed quotient has no place in the width: the least number by minus one. -/
def IntArith.overflows {w : Nat} (a b : BitVec w) : Bool :=
  a == BitVec.intMin w && b == -1#w

/-- Arithmetic on two integers, modulo two to the width. -/
def IntArith.eval {w : Nat} (op : IntArith) (a b : BitVec w) : Except Trap (BitVec w) :=
  match op with
  | add => .ok (a + b)
  | sub => .ok (a - b)
  | mul => .ok (a * b)
  | div signed =>
    if b = 0 then .error .divideByZero
    else if signed then
      if overflows a b then .error .overflow else .ok (a.sdiv b)
    else .ok (a.udiv b)
  | rem signed =>
    if b = 0 then .error .divideByZero
    else if signed then .ok (a.srem b)
    else .ok (a.umod b)

/-- Bit operations; shifts take their amount modulo the width. -/
def BitOp.eval (op : BitOp) (a b : BitVec 32) : BitVec 32 :=
  match op with
  | and => a &&& b
  | or => a ||| b
  | shl => a <<< (b.toNat % 32)
  | shr signed => if signed then a.sshiftRight (b.toNat % 32) else a >>> (b.toNat % 32)

/-- Compares two floats. -/
def FloatRel.eval (r : FloatRel) (a b : Binary64) : Bool :=
  match r with
  | eq => a.equal b
  | ne => !a.equal b
  | lt => a.less b
  | gt => b.less a
  | le => a.lessEq b
  | ge => b.lessEq a

/-- Arithmetic on two floats. -/
def FloatArith.eval (op : FloatArith) (a b : Binary64) : Binary64 :=
  match op with
  | add => a.add b
  | sub => a.sub b
  | mul => a.mul b
  | div => a.div b

/-- An integer as a number. -/
def signedOr {w : Nat} (signed : Bool) (a : BitVec w) : Int :=
  if signed then a.toInt else a.toNat

/-- The integer nearest to a float, toward zero, in the range of a width. -/
def truncateTo (w : Nat) (signed : Bool) (x : Binary64) : BitVec w :=
  let (lo, hi) : Int × Int :=
    if signed then (-(twoPow (w - 1) : Int), twoPow (w - 1) - 1) else (0, twoPow w - 1)
  BitVec.ofInt w (x.truncate lo hi)

/-- Converts a value. -/
def Conversion.eval (c : Conversion) (v : Value) : Except Fault Value :=
  match c with
  | wrap => do return .i32 ((← v.toI64).setWidth 32)
  | extend signed => do
    let a ← v.toI32
    return .i64 (if signed then a.signExtend 64 else a.setWidth 64)
  | toFloat .w32 signed => do return .f64 (.ofInt (signedOr signed (← v.toI32)))
  | toFloat .w64 signed => do return .f64 (.ofInt (signedOr signed (← v.toI64)))
  | truncate .w32 signed => do return .i32 (truncateTo 32 signed (← v.toF64))
  | truncate .w64 signed => do return .i64 (truncateTo 64 signed (← v.toF64))
  | floatBits => do return .i64 (← v.toF64).bits
  | bitsFloat => do return .f64 ⟨← v.toI64⟩

/-! ### Stacks -/

/-- A trap of an operator as a fault of the function that runs it. -/
def Trap.lift {α : Type} (function : String) : Except Trap α → Except Fault α
  | .ok a => .ok a
  | .error cause => .error (.trap function cause)

/-- Takes the operands of an operator off the stack and pushes its result; the function that runs it
is named in faults. -/
def NumOp.eval (function : String) (op : NumOp) (s : Stack) : Except Fault Stack :=
  match op with
  | eqz .w32 => do
    let (a, s) ← s.popI32
    return .ofBool (a == 0) :: s
  | eqz .w64 => do
    let (a, s) ← s.popI64
    return .ofBool (a == 0) :: s
  | rel .w32 r => do
    let (b, s) ← s.popI32
    let (a, s) ← s.popI32
    return .ofBool (r.eval a b) :: s
  | rel .w64 r => do
    let (b, s) ← s.popI64
    let (a, s) ← s.popI64
    return .ofBool (r.eval a b) :: s
  | arith .w32 op => do
    let (b, s) ← s.popI32
    let (a, s) ← s.popI32
    return .i32 (← Trap.lift function (op.eval a b)) :: s
  | arith .w64 op => do
    let (b, s) ← s.popI64
    let (a, s) ← s.popI64
    return .i64 (← Trap.lift function (op.eval a b)) :: s
  | bits op => do
    let (b, s) ← s.popI32
    let (a, s) ← s.popI32
    return .i32 (op.eval a b) :: s
  | floatRel r => do
    let (b, s) ← s.popF64
    let (a, s) ← s.popF64
    return .ofBool (r.eval a b) :: s
  | floatArith op => do
    let (b, s) ← s.popF64
    let (a, s) ← s.popF64
    return .f64 (op.eval a b) :: s
  | floatNeg => do
    let (a, s) ← s.popF64
    return .f64 a.neg :: s
  | convert c => do
    let (v, s) ← s.pop
    return (← c.eval v) :: s

end StackScript
