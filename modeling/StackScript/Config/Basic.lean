/-!
# Settings
-/

namespace StackScript

/-- Settings of compilation. -/
structure CompileConfig where
  /-- Where constant data starts. -/
  dataBase : UInt32 := 1024
  /-- The least size of the memory in pages. -/
  memoryPages : UInt32 := 1
  /-- The least capacity of an array literal. -/
  arrayCapacity : UInt32 := 4
  /-- Whether a match must cover every value. -/
  strictMatch : Bool := true
  /-- Whether every function can be called from outside. -/
  exportAll : Bool := false
  deriving DecidableEq, Repr

/-- Settings of a run. -/
structure RunConfig where
  /-- How deep calls may nest. -/
  maxCallDepth : Nat := 1024
  /-- How large the memory may grow, in pages. -/
  maxMemoryPages : UInt32 := 256
  /-- How many instructions a task runs before the next one; without it there is no bound. -/
  fuel : Option Nat := none
  /-- Whether output lines are kept. -/
  captureOutput : Bool := true
  deriving DecidableEq, Repr

/-- All settings. -/
structure Config where
  compile : CompileConfig := {}
  runtime : RunConfig := {}
  deriving DecidableEq, Repr

end StackScript
