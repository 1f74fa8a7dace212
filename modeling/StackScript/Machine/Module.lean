import StackScript.Machine.Instr

/-!
# Modules

A compiled program: imported and defined functions, a table for indirect calls, constant data and
one memory.

## Design Notes

Functions are numbered with the imports first.
-/

namespace StackScript

/-- A function that the host provides. -/
structure Import where
  /-- Who provides it. -/
  provider : String
  name : String
  ty : FuncType
  deriving DecidableEq, Repr

/-- A function of the module. -/
structure Function where
  name : String
  ty : FuncType
  /-- Locals after the parameters. -/
  locals : List ValType
  body : List Instr
  /-- The name for callers from outside. -/
  export_ : Option String
  deriving DecidableEq, Repr

/-- Initial bytes of the memory. -/
structure DataSegment where
  offset : UInt32
  bytes : List UInt8
  deriving DecidableEq, Repr

/-- How to run the main function. -/
structure Entry where
  function : UInt32
  /-- Whether it gives a promise to wait for. -/
  isAsync : Bool
  /-- The type of the final value. -/
  result : Option ValType
  deriving DecidableEq, Repr

/-- A compiled program. -/
structure Module where
  /-- The types that indirect calls refer to. -/
  types : List FuncType
  imports : List Import
  functions : List Function
  /-- The functions that indirect calls reach. -/
  table : List UInt32
  data : List DataSegment
  /-- The least size of the memory in pages. -/
  minPages : UInt32
  /-- The first byte after the constant data. -/
  heapBase : UInt32
  /-- The function with the top-level statements. -/
  start : Option UInt32
  main : Option Entry
  deriving DecidableEq, Repr

/-- The bytes of a page. -/
def pageSize : Nat := 65536

namespace Module

/-- The type of the function with a number. -/
def funcType? (m : Module) (index : Nat) : Option FuncType :=
  if index < m.imports.length then m.imports[index]?.map (·.ty)
  else m.functions[index - m.imports.length]?.map (·.ty)

/-- The number of the first defined function for which `p` holds. -/
def indexOf? (m : Module) (p : Function → Bool) : Option Nat :=
  (m.functions.findIdx? p).map (· + m.imports.length)

/-- The number of the defined function with a name. -/
def functionIndex? (m : Module) (name : String) : Option Nat :=
  m.indexOf? (·.name = name)

/-- The number of the function with a name for callers from outside. -/
def export? (m : Module) (name : String) : Option Nat :=
  m.indexOf? (·.export_ = some name)

/-- The number of initial bytes. -/
def dataSize (m : Module) : Nat :=
  (m.data.flatMap (·.bytes)).length

end Module

end StackScript
