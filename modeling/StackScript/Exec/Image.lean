import StackScript.Config.Basic
import StackScript.Exec.Jumps
import StackScript.Machine.Module

/-!
# Loaded modules

What stays the same while a module runs.
-/

namespace StackScript

/-- A function with its jump targets. -/
structure LoadedFunction where
  name : String
  ty : FuncType
  /-- The first values of the locals after the parameters. -/
  locals : Array Value
  body : Array Instr
  jumps : Jumps

/-- A module ready to run. -/
structure Image where
  source : Module
  imports : Array Import
  functions : Array LoadedFunction
  table : Array Nat
  types : Array FuncType
  config : RunConfig

namespace Image

/-- Loads a function. -/
def load (f : Function) : Except Fault LoadedFunction :=
  match Jumps.ofBody f.body with
  | .error m => .error (.malformed m)
  | .ok jumps =>
    .ok {
      name := f.name
      ty := f.ty
      locals := (f.locals.map Value.zero).toArray
      body := f.body.toArray
      jumps }

/-- Loads a module. -/
def ofModule (m : Module) (config : RunConfig) : Except Fault Image := do
  let functions ← m.functions.mapM load
  return {
    source := m
    imports := m.imports.toArray
    functions := functions.toArray
    table := (m.table.map (·.toNat)).toArray
    types := m.types.toArray
    config }

/-- The defined function with a number, imports counted. -/
def defined? (img : Image) (index : Nat) : Option (Nat × LoadedFunction) :=
  if index < img.imports.size then none
  else
    let i := index - img.imports.size
    img.functions[i]?.map (i, ·)

/-- The type of the function with a number. -/
def funcType? (img : Image) (index : Nat) : Option FuncType :=
  if index < img.imports.size then img.imports[index]?.map (·.ty)
  else img.functions[index - img.imports.size]?.map (·.ty)

/-- The function in a table slot. -/
def tableEntry (img : Image) (slot : BitVec 32) : Except Fault Nat :=
  let slot := slot.toInt
  match if 0 ≤ slot then img.table[slot.toNat]? else none with
  | some index => .ok index
  | none => .error (.tableOutOfBounds slot)

end Image

end StackScript
