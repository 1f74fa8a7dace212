import StackScript.Config.Basic
import StackScript.Toml.Document

/-!
# Settings in files

## Design Notes

A setting that a file does not name has its default; a name that is no setting means nothing.  The
settings of a section can also be listed in order, without their names.
-/

namespace StackScript

namespace Toml

/-- Settings of a section, by name or by place. -/
inductive Fields where
  | named (entries : Entries)
  | listed (items : List Toml)

/-- The settings of a section. -/
def fields? : Toml → Option Fields
  | .table _ entries => some (.named entries)
  | .array items => some (.listed items)
  | .tables items => some (.listed (items.map (.table .header)))
  | .date => some (.named [])
  | _ => none

/-- The value of a setting, if it is given. -/
def Fields.get? (f : Fields) (place : Nat) (name : String) : Option Toml :=
  match f with
  | .named entries => entries.lookup name
  | .listed items => items[place]?

/-- A setting of some type, or its default where it is not given; a wrong type fails. -/
def Fields.setting {α : Type} (f : Fields) (place : Nat) (name : String) (default : α)
    (read : Toml → Option α) : Option α :=
  match f.get? place name with
  | none => some default
  | some v => read v

/-- A truth value. -/
def asBool? : Toml → Option Bool
  | .bool b => some b
  | _ => none

/-- A natural number. -/
def asNat? : Toml → Option Nat
  | .int (.ofNat n) => some n
  | _ => none

/-- A natural number of 32 bits. -/
def asUInt32? (t : Toml) : Option UInt32 := do
  let n ← t.asNat?
  if n < twoPow 32 then some n.toUInt32 else none

end Toml

/-- Compilation settings from a section. -/
def CompileConfig.ofFields? (f : Toml.Fields) : Option CompileConfig := do
  let d : CompileConfig := {}
  return {
    dataBase := ← f.setting 0 "data_base" d.dataBase Toml.asUInt32?
    memoryPages := ← f.setting 1 "memory_pages" d.memoryPages Toml.asUInt32?
    arrayCapacity := ← f.setting 2 "default_array_capacity" d.arrayCapacity Toml.asUInt32?
    strictMatch := ← f.setting 3 "strict_match" d.strictMatch Toml.asBool?
    exportAll := ← f.setting 4 "export_all" d.exportAll Toml.asBool? }

/-- Settings of runs from a section. -/
def RunConfig.ofFields? (f : Toml.Fields) : Option RunConfig := do
  let d : RunConfig := {}
  return {
    maxCallDepth := ← f.setting 0 "max_call_depth" d.maxCallDepth Toml.asNat?
    maxMemoryPages := ← f.setting 1 "max_memory_pages" d.maxMemoryPages Toml.asUInt32?
    fuel := ← f.setting 2 "fuel" d.fuel (fun t => t.asNat?.map some)
    captureOutput := ← f.setting 3 "capture_output" d.captureOutput Toml.asBool? }

namespace Config

/-- Settings from the table of a file. -/
def ofEntries? (es : Toml.Entries) : Option Config := do
  let file := Toml.Fields.named es
  return {
    compile := ← file.setting 0 "compile" {} fun t => do CompileConfig.ofFields? (← t.fields?)
    runtime := ← file.setting 1 "runtime" {} fun t => do RunConfig.ofFields? (← t.fields?) }

/-- Settings from the text of a file. -/
def ofText? (text : String) : Option Config := do
  ofEntries? (← Toml.ofText? text)

/-- A line with a setting. -/
def line (name value : String) : String :=
  name ++ " = " ++ value ++ "\n"

/-- A truth value as text. -/
def boolText (b : Bool) : String :=
  if b then "true" else "false"

/-- Settings as the text of a file. -/
def text (c : Config) : String :=
  "[compile]\n"
    ++ line "data_base" (toString c.compile.dataBase.toNat)
    ++ line "memory_pages" (toString c.compile.memoryPages.toNat)
    ++ line "default_array_capacity" (toString c.compile.arrayCapacity.toNat)
    ++ line "strict_match" (boolText c.compile.strictMatch)
    ++ line "export_all" (boolText c.compile.exportAll)
    ++ "\n[runtime]\n"
    ++ line "max_call_depth" (toString c.runtime.maxCallDepth)
    ++ line "max_memory_pages" (toString c.runtime.maxMemoryPages.toNat)
    ++ (c.runtime.fuel.elim "" fun n => line "fuel" (toString n))
    ++ line "capture_output" (boolText c.runtime.captureOutput)

end Config

end StackScript
