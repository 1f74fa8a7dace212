import StackScript.Exec.Promise
import StackScript.Exec.Value

/-!
# Faults

Why a module cannot be run, or a run fails.
-/

namespace StackScript

/-- Faults that the program itself raises. -/
inductive Trap where
  | unreachable
  | divideByZero
  | overflow
  deriving DecidableEq, Repr

/-- The words for a trap. -/
def Trap.text : Trap → String
  | unreachable => "unreachable"
  | divideByZero => "integer divide by zero"
  | overflow => "integer overflow"

/-- What makes a module no module. -/
inductive Malformation where
  | elseAt (pc : Nat)
  | endAt (pc : Nat)
  | unterminated
  | noFrames
  | pastEnd (function : String)
  | elseOutside
  | unknownType (index : Nat)
  | unknownLocal (index : Nat)
  | noReturn
  | branchDepth (depth : Nat)
  deriving DecidableEq, Repr

/-- The words for a malformation. -/
def Malformation.text : Malformation → String
  | elseAt pc => "else at " ++ toString pc ++ " outside if"
  | endAt pc => "unbalanced end at " ++ toString pc
  | unterminated => "function body is not terminated"
  | noFrames => "task has no frames"
  | pastEnd function => function ++ " runs past its end"
  | elseOutside => "else outside if"
  | unknownType index => "unknown type index " ++ toString index
  | unknownLocal index => "local " ++ toString index ++ " out of range"
  | noReturn => "return without a frame"
  | branchDepth depth => "branch depth " ++ toString depth ++ " out of range"

/-- Why a function of the host fails. -/
inductive HostFailure where
  | wrongType
  | failed (message : String)
  deriving DecidableEq, Repr

/-- The words for a failure of the host. -/
def HostFailure.text : HostFailure → String
  | wrongType => "returned a value of the wrong type"
  | failed message => message

/-- Why a module cannot be run, or a run fails. -/
inductive Fault where
  | trap (function : String) (cause : Trap)
  | stackOverflow (depth : Nat)
  | stackUnderflow
  | typeMismatch (expected found : ValType)
  | outOfBounds (addr len : Nat)
  | outOfMemory (maxPages : Nat)
  | unknownFunction (index : Nat)
  | tableOutOfBounds (slot : Int)
  | indirectTypeMismatch (index : Nat)
  | unknownExport (name : String)
  /-- An imported function that nobody provides. -/
  | link (name : String)
  | host (name : String) (failure : HostFailure)
  | promise (fault : PromiseFault)
  /-- A task waits for a promise that is rejected. -/
  | rejected (h : PromiseHandle)
  /-- Tasks wait, and no work of the host is left. -/
  | deadlock (tasks : Nat)
  | malformed (m : Malformation)
  deriving DecidableEq, Repr

/-- The words for a fault. -/
def Fault.message : Fault → String
  | trap function cause => "trap in " ++ function ++ ": " ++ cause.text
  | stackOverflow depth => "call stack overflow (depth " ++ toString depth ++ ")"
  | stackUnderflow => "value stack underflow"
  | typeMismatch expected found => "expected " ++ expected.text ++ " but found " ++ found.text
  | outOfBounds addr len =>
    "memory access out of bounds: " ++ toString len ++ " bytes at 0x"
      ++ String.ofList (Nat.toDigits 16 addr)
  | outOfMemory maxPages =>
    "out of memory: cannot grow beyond " ++ toString maxPages ++ " pages"
  | unknownFunction index => "unknown function index " ++ toString index
  | tableOutOfBounds slot => "table slot " ++ toString slot ++ " is out of bounds"
  | indirectTypeMismatch index =>
    "indirect call signature mismatch for function " ++ toString index
  | unknownExport name => "no exported function '" ++ name ++ "'"
  | link name => "unresolved import env." ++ name
  | host name failure => "host function " ++ name ++ " failed: " ++ failure.text
  | promise fault => fault.message
  | rejected h => "awaited " ++ h.text ++ " was rejected"
  | deadlock tasks =>
    "deadlock: " ++ toString tasks ++ " task(s) waiting with no host work pending"
  | malformed m => "malformed module: " ++ m.text

namespace Value

/-- The number of a value of 32 bits. -/
def toI32 : Value → Except Fault (BitVec 32)
  | i32 v => .ok v
  | v => .error (.typeMismatch .i32 v.ty)

/-- The number of a value of 64 bits. -/
def toI64 : Value → Except Fault (BitVec 64)
  | i64 v => .ok v
  | v => .error (.typeMismatch .i64 v.ty)

/-- The number of a float value. -/
def toF64 : Value → Except Fault Binary64
  | f64 v => .ok v
  | v => .error (.typeMismatch .f64 v.ty)

end Value

end StackScript
