import StackScript.Config.Basic
import StackScript.Emit.MethodTable
import StackScript.Emit.Operators
import StackScript.Typed.Basic

/-!
# Emitting code

What code generation knows and keeps.

## Design Notes

Checked programs name only functions, fields and variables that exist, so a `Defect` tells of a
program that was not checked, or of one that does not fit the machine's addresses.
-/

namespace StackScript

/-- Why no code can be generated. -/
inductive Defect where
  | missingLocal (v : Variable)
  | unknownFunction (name : String)
  | unknownMethod (struct : String) (slot : Nat)
  | outsideLoop (isBreak : Bool)
  | strOperator (op : BinaryOp)
  | operator (op : BinaryOp) (ty : Ty)
  | negation (ty : Ty)
  | interpolation (ty : Ty)
  | arrayLiteral (ty : Ty)
  | indexing (ty : Ty)
  | cast (source target : Ty)
  | iteration (ty : Ty)
  | assignment (name : String)
  | temporary
  | callOf (ty : Ty)
  | popOn (ty : Ty)
  | literalPattern (ty : Ty)
  | lambdaType (ty : Ty)
  /-- A size or an address needs more than 32 bits. -/
  | tooLarge
  /-- More functions were found than the program can hold. -/
  | endless

/-- The words for a defect. -/
def Defect.message : Defect → String
  | missingLocal v =>
    "binding " ++ toString v.id ++ " ('" ++ v.name ++ "') has no local in this function"
  | unknownFunction name => "unknown function '" ++ name ++ "'"
  | unknownMethod s slot => "no method in slot " ++ toString slot ++ " of '" ++ s ++ "'"
  | outsideLoop isBreak =>
    "'" ++ (if isBreak then "break" else "continue") ++ "' outside of a loop"
  | strOperator op => "cannot generate code for string operator " ++ op.text
  | operator op ty => "cannot generate code for " ++ op.text ++ " on " ++ ty.text
  | negation ty => "cannot generate code for negation of " ++ ty.text
  | interpolation ty => "cannot generate code for interpolation of " ++ ty.text
  | arrayLiteral ty => "cannot generate code for array literal of " ++ ty.text
  | indexing ty => "cannot generate code for indexing " ++ ty.text
  | cast a b => "cannot generate code for cast from " ++ a.text ++ " to " ++ b.text
  | iteration ty => "cannot generate code for iteration over " ++ ty.text
  | assignment name => "cannot generate code for assignment to '" ++ name ++ "'"
  | temporary => "cannot generate code for assignment to a temporary"
  | callOf ty => "cannot generate code for call of " ++ ty.text
  | popOn ty => "cannot generate code for pop on " ++ ty.text
  | literalPattern ty => "cannot generate code for literal pattern on " ++ ty.text
  | lambdaType ty => "cannot generate code for function literal of type " ++ ty.text
  | tooLarge => "cannot generate code for an object of more than 32 bits"
  | endless => "cannot generate code for so many functions"

/-- The numbers of all functions that are known in advance. -/
structure Plan where
  symbols : SymbolTable
  /-- Declared host functions. -/
  externals : List (String × Nat)
  /-- Functions of the program; for an async one, the function that starts its task. -/
  direct : List (String × Nat)
  methods : MethodTable
  /-- Joins two strings. -/
  strConcat : Nat
  /-- Compares two strings. -/
  strEq : Nat
  /-- Makes room in an array. -/
  arrayGrow : Nat
  /-- The least capacity of an array literal. -/
  arrayCapacity : Nat

/-- A function found while another one is emitted. -/
inductive Job where
  /-- The code of a function literal. -/
  | lambda (id : Nat) (ty : Ty) (params captures : List Variable) (body : Typed.Body)
  /-- A named function called through a function value. -/
  | thunk (sig : FunctionSig)

namespace Emit

/-- What has been generated so far. -/
structure State where
  data : DataRegion
  /-- Types of indirect calls. -/
  types : List FuncType
  table : List Nat
  /-- The number of the next function. -/
  nextFunction : Nat
  /-- Functions to emit, in the order of their numbers. -/
  jobs : List Job
  /-- Addresses of strings. -/
  strings : List (List UInt8 × Nat)
  /-- Addresses of variants that carry nothing. -/
  units : List ((String × Nat) × Nat)
  /-- Addresses of named functions as values. -/
  thunks : List (String × Nat)
  /-- Locals of the current function, after its parameters. -/
  locals : List ValType
  /-- Locals of the variables of the current function. -/
  places : List (Nat × Nat)

/-- What a block is for. -/
inductive Label where
  | plain
  /-- A branch here leaves the loop. -/
  | loopExit
  /-- A branch here starts the next round. -/
  | loopNext
  deriving DecidableEq, Repr

/-- How the current function returns. -/
inductive ReturnMode where
  /-- With the value on the stack. -/
  | direct
  /-- By settling the promise in its first parameter. -/
  | resolve (value : Option ValType)
  deriving DecidableEq, Repr

/-- The function being emitted, and the labels around, the innermost first. -/
structure Site where
  plan : Plan
  paramCount : Nat
  /-- Variables in the environment, which is the first parameter. -/
  captures : List Variable
  ret : ReturnMode
  labels : List Label

/-- The site inside one more block. -/
def Site.inside (s : Site) (l : Label) : Site :=
  { s with labels := l :: s.labels }

end Emit

/-- A generating step. -/
abbrev Emit := StateT Emit.State (Except Defect)

namespace Emit

/-- The contents of an optional value, or a defect. -/
def orDefect {α : Type} (d : Defect) : Option α → Emit α
  | some a => pure a
  | none => throw d

/-! ### Locals -/

/-- A new local. -/
def newLocal (s : Site) (ty : ValType) : Emit Nat := do
  let st ← get
  set { st with locals := st.locals ++ [ty] }
  return s.paramCount + st.locals.length

/-- Keeps a variable in a local. -/
def bindLocal (v : Variable) (i : Nat) : Emit Unit :=
  modify fun st => { st with places := (v.id, i) :: st.places }

/-- The place of a variable in the environment. -/
def captureSlot? (s : Site) (v : Variable) : Option Nat :=
  s.captures.findIdx? (·.id = v.id)

/-- Reads a variable from its local or from the environment. -/
def readVariable (s : Site) (v : Variable) : Emit (List Op) := do
  let st ← get
  match st.places.lookup v.id with
  | some i => return [.get i]
  | none =>
    match captureSlot? s v with
    | some slot => return [.get 0, .read v.ty.slotKind (Layout.word * slot)]
    | none => throw (.missingLocal v)

/-- Allocates bytes; gives the local with their address. -/
def alloc (s : Site) (size : Nat) : Emit (Nat × List Op) := do
  let i ← newLocal s .i32
  return (i, [.const size, .host .alloc, .set i])

/-! ### Constants -/

/-- The address of a string, placed once. -/
def strConst (bytes : List UInt8) : Emit Nat := do
  let st ← get
  match st.strings.lookup bytes with
  | some addr => return addr
  | none =>
    let (addr, data) := st.data.pushStr bytes
    set { st with data, strings := (bytes, addr) :: st.strings }
    return addr

/-- The address of a variant that carries nothing, placed once. -/
def unitConst (enum : String) (tag : Nat) : Emit Nat := do
  let st ← get
  match st.units.lookup (enum, tag) with
  | some addr => return addr
  | none =>
    let (addr, data) := st.data.pushWords [.i32 (BitVec.ofNat 32 tag), .i32 0]
    set { st with data, units := ((enum, tag), addr) :: st.units }
    return addr

/-- The address of constant words. -/
def wordsConst (words : List Layout.Word) : Emit Nat := do
  let st ← get
  let (addr, data) := st.data.pushWords words
  set { st with data }
  return addr

/-! ### Functions -/

/-- Adds a job; gives the table slot of its function. -/
def addJob (job : Job) : Emit Nat := do
  let st ← get
  set { st with
    nextFunction := st.nextFunction + 1
    table := st.table ++ [st.nextFunction]
    jobs := st.jobs ++ [job] }
  return st.table.length

/-- The address of a named function as a value, placed once. -/
def functionConst (s : Site) (name : String) : Emit Nat := do
  let st ← get
  match st.thunks.lookup name with
  | some addr => return addr
  | none =>
    let sig ← orDefect (.unknownFunction name) (s.plan.symbols.function? name)
    let slot ← addJob (.thunk sig)
    let addr ← wordsConst [.i32 (BitVec.ofNat 32 slot), .i32 0]
    modify fun st => { st with thunks := (name, addr) :: st.thunks }
    return addr

/-- The number of a type of indirect calls. -/
def typeIndex (ty : FuncType) : Emit Nat := do
  let st ← get
  match st.types.findIdx? (· = ty) with
  | some i => return i
  | none =>
    set { st with types := st.types ++ [ty] }
    return st.types.length

/-- The type of the code of a function value: the environment comes first. -/
def closureType (params : List Ty) (ret : Ty) : FuncType :=
  .of (.i32 :: params.map Ty.slotType) ret.valType?

/-- Leaves the function with the value on the stack, if it has one. -/
def returnOps (s : Site) : Emit (List Op) := do
  match s.ret with
  | .direct => return [.return_]
  | .resolve (some ty) =>
    let tmp ← newLocal s ty
    return [Op.set tmp, .get 0, .get tmp] ++ widen ty ++ [Op.host .promiseResolve, .return_]
  | .resolve none => return [.get 0, .i64Const 0, .host .promiseResolve, .return_]

/-- The depth of the innermost label for a purpose. -/
def labelDepth (s : Site) (l : Label) : Option Nat :=
  s.labels.findIdx? (· = l)

end Emit

end StackScript
