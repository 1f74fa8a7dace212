import StackScript.Json.Printer
import StackScript.Json.Reader
import StackScript.Machine.Module

/-!
# The interchange form of a module

## Design Notes

An alternative without contents is its name; one with contents is an object whose only member is
named for it.  A record is an object; when it is read, its fields may also stand in an array in
order, members with other names do not matter, and an optional field may be left out.
-/

namespace StackScript

namespace Json

/-! ### Reading parts -/

/-- An integer between two bounds. -/
def intBetween? (lo hi : Int) : Json → Option Int
  | int n => if lo ≤ n ∧ n ≤ hi then some n else none
  | _ => none

/-- An unsigned number of 32 bits. -/
def u32? (j : Json) : Option UInt32 :=
  (j.intBetween? 0 (twoPow 32 - 1)).map fun n => n.toNat.toUInt32

/-- A byte. -/
def u8? (j : Json) : Option UInt8 :=
  (j.intBetween? 0 255).map fun n => n.toNat.toUInt8

/-- A word of 32 bits, written with its sign. -/
def i32? (j : Json) : Option (BitVec 32) :=
  (j.intBetween? (-(twoPow 31 : Int)) (twoPow 31 - 1)).map (BitVec.ofInt 32)

/-- A word of 64 bits, written with its sign. -/
def i64? (j : Json) : Option (BitVec 64) :=
  (j.intBetween? (-(twoPow 63 : Int)) (twoPow 63 - 1)).map (BitVec.ofInt 64)

/-- A float; an integer is rounded to one. -/
def f64? : Json → Option Binary64
  | float x => some x
  | int n => some (Binary64.ofInt n)
  | _ => none

/-- A truth value. -/
def bool? : Json → Option Bool
  | bool b => some b
  | _ => none

/-- A string. -/
def str? : Json → Option String
  | str s => some s
  | _ => none

/-- A list of parts. -/
def list? {α : Type} (f : Json → Option α) : Json → Option (List α)
  | arr items => items.mapM f
  | _ => none

/-- An optional part; null stands for none. -/
def option? {α : Type} (f : Json → Option α) : Json → Option (Option α)
  | null => some none
  | j => (f j).map some

/-- The fields of a record with the given names, in order; an absent field is null. -/
def record? (names : List String) : Json → Option (List (Option Json))
  | obj members => some (names.map fun n => (obj members).get? n)
  | arr items => if items.length = names.length then some (items.map some) else none
  | _ => none

/-- An alternative: its name, and its contents if it is written with some. -/
def alternative? : Json → Option (String × Option Json)
  | str name => some (name, none)
  | obj [(name, contents)] => some (name, some contents)
  | _ => none

/-- An alternative without contents; written with null it is the same. -/
def plain? (j : Json) : Option String := do
  match ← alternative? j with
  | (name, none) => some name
  | (name, some null) => some name
  | _ => none

end Json

open Json

/-! ### Types -/

/-- A value type as JSON. -/
def ValType.toJson (t : ValType) : Json :=
  .str t.tag

/-- A value type from JSON. -/
def ValType.ofJson? (j : Json) : Option ValType := do
  let name ← j.plain?
  [ValType.i32, .i64, .f64].find? (·.tag = name)

/-- A memory access from JSON. -/
def MemKind.ofJson? (j : Json) : Option MemKind := do
  let name ← j.plain?
  [MemKind.i32, .i64, .f64, .u8].find? (·.tag = name)

/-- An operator from JSON. -/
def NumOp.ofJson? (j : Json) : Option NumOp := do
  NumOp.ofTag? (← j.plain?)

/-- An unsigned number as JSON. -/
def u32Json (n : UInt32) : Json :=
  .int n.toNat

/-- A list as JSON. -/
def listJson {α : Type} (f : α → Json) (as : List α) : Json :=
  .arr (as.map f)

namespace FuncType

/-- A function type as JSON. -/
def toJson (t : FuncType) : Json :=
  .obj [("params", listJson ValType.toJson t.params), ("results", listJson ValType.toJson t.results)]

/-- A function type from JSON. -/
def ofJson? (j : Json) : Option FuncType := do
  match ← j.record? ["params", "results"] with
  | [some params, some results] =>
    return ⟨← params.list? ValType.ofJson?, ← results.list? ValType.ofJson?⟩
  | _ => none

end FuncType

/-! ### Instructions -/

/-- A memory access as JSON. -/
def accessJson (kind : MemKind) (offset : UInt32) : Json :=
  .obj [("kind", .str kind.tag), ("offset", u32Json offset)]

/-- A memory access from JSON. -/
def accessOfJson? (j : Json) : Option (MemKind × UInt32) := do
  match ← j.record? ["kind", "offset"] with
  | [some kind, some offset] => return (← MemKind.ofJson? kind, ← offset.u32?)
  | _ => none

/-- An instruction without structure as JSON. -/
def Op.toJson : Op → Json
  | .unreachable => .str "Unreachable"
  | .br d => .obj [("Br", u32Json d)]
  | .brIf d => .obj [("BrIf", u32Json d)]
  | .return_ => .str "Return"
  | .call i => .obj [("Call", u32Json i)]
  | .callIndirect t => .obj [("CallIndirect", u32Json t)]
  | .drop => .str "Drop"
  | .localGet i => .obj [("LocalGet", u32Json i)]
  | .localSet i => .obj [("LocalSet", u32Json i)]
  | .localTee i => .obj [("LocalTee", u32Json i)]
  | .i32Const v => .obj [("I32Const", .int v.toInt)]
  | .i64Const v => .obj [("I64Const", .int v.toInt)]
  | .f64Const v => .obj [("F64Const", .float v)]
  | .load kind offset => .obj [("Load", accessJson kind offset)]
  | .store kind offset => .obj [("Store", accessJson kind offset)]
  | .memoryCopy => .str "MemoryCopy"
  | .num op => .obj [("Num", .str op.tag)]

namespace Instr

/-- An instruction as JSON. -/
def toJson : Instr → Json
  | .block ty => .obj [("Block", Json.ofOption ValType.toJson ty)]
  | .loop ty => .obj [("Loop", Json.ofOption ValType.toJson ty)]
  | .if_ ty => .obj [("If", Json.ofOption ValType.toJson ty)]
  | .else_ => .str "Else"
  | .end_ => .str "End"
  | .op o => o.toJson

/-- An instruction without contents. -/
def ofName? (name : String) : Option Instr :=
  match name with
  | "Unreachable" => some (.op .unreachable)
  | "Else" => some .else_
  | "End" => some .end_
  | "Return" => some (.op .return_)
  | "Drop" => some (.op .drop)
  | "MemoryCopy" => some (.op .memoryCopy)
  | _ => none

/-- An instruction with contents. -/
def ofContents? (name : String) (j : Json) : Option Instr :=
  match name with
  | "Block" => (j.option? ValType.ofJson?).map block
  | "Loop" => (j.option? ValType.ofJson?).map loop
  | "If" => (j.option? ValType.ofJson?).map if_
  | "Br" => j.u32?.map fun n => op (.br n)
  | "BrIf" => j.u32?.map fun n => op (.brIf n)
  | "Call" => j.u32?.map fun n => op (.call n)
  | "CallIndirect" => j.u32?.map fun n => op (.callIndirect n)
  | "LocalGet" => j.u32?.map fun n => op (.localGet n)
  | "LocalSet" => j.u32?.map fun n => op (.localSet n)
  | "LocalTee" => j.u32?.map fun n => op (.localTee n)
  | "I32Const" => j.i32?.map fun v => op (.i32Const v)
  | "I64Const" => j.i64?.map fun v => op (.i64Const v)
  | "F64Const" => j.f64?.map fun v => op (.f64Const v)
  | "Load" => (accessOfJson? j).map fun (k, o) => op (.load k o)
  | "Store" => (accessOfJson? j).map fun (k, o) => op (.store k o)
  | "Num" => (NumOp.ofJson? j).map fun o => op (.num o)
  | _ => match j with
    | .null => ofName? name
    | _ => none

/-- An instruction from JSON. -/
def ofJson? (j : Json) : Option Instr := do
  match ← j.alternative? with
  | (name, none) => ofName? name
  | (name, some contents) => ofContents? name contents

end Instr

/-! ### Modules -/

/-- An import as JSON. -/
def Import.toJson (i : Import) : Json :=
  .obj [("module", .str i.provider), ("name", .str i.name), ("ty", i.ty.toJson)]

/-- An import from JSON. -/
def Import.ofJson? (j : Json) : Option Import := do
  match ← j.record? ["module", "name", "ty"] with
  | [some provider, some name, some ty] =>
    return ⟨← provider.str?, ← name.str?, ← FuncType.ofJson? ty⟩
  | _ => none

/-- A function as JSON. -/
def Function.toJson (f : Function) : Json :=
  .obj [("name", .str f.name), ("ty", f.ty.toJson), ("locals", listJson ValType.toJson f.locals),
    ("body", listJson Instr.toJson f.body), ("export", Json.ofOption .str f.export_)]

/-- A function from JSON. -/
def Function.ofJson? (j : Json) : Option Function := do
  match ← j.record? ["name", "ty", "locals", "body", "export"] with
  | [some name, some ty, some locals, some body, exported] =>
    return ⟨← name.str?, ← FuncType.ofJson? ty, ← locals.list? ValType.ofJson?,
      ← body.list? Instr.ofJson?, ← (exported.getD .null).option? Json.str?⟩
  | _ => none

/-- A data segment as JSON. -/
def DataSegment.toJson (d : DataSegment) : Json :=
  .obj [("offset", u32Json d.offset), ("bytes", listJson (fun b => .int b.toNat) d.bytes)]

/-- A data segment from JSON. -/
def DataSegment.ofJson? (j : Json) : Option DataSegment := do
  match ← j.record? ["offset", "bytes"] with
  | [some offset, some bytes] => return ⟨← offset.u32?, ← bytes.list? Json.u8?⟩
  | _ => none

/-- The entry as JSON. -/
def Entry.toJson (e : Entry) : Json :=
  .obj [("function", u32Json e.function), ("is_async", .bool e.isAsync),
    ("result", Json.ofOption ValType.toJson e.result)]

/-- The entry from JSON. -/
def Entry.ofJson? (j : Json) : Option Entry := do
  match ← j.record? ["function", "is_async", "result"] with
  | [some function, some isAsync, result] =>
    return ⟨← function.u32?, ← isAsync.bool?, ← (result.getD .null).option? ValType.ofJson?⟩
  | _ => none

namespace Module

/-- A module as JSON. -/
def toJson (m : Module) : Json :=
  .obj [("types", listJson FuncType.toJson m.types),
    ("imports", listJson Import.toJson m.imports),
    ("functions", listJson Function.toJson m.functions),
    ("table", listJson u32Json m.table),
    ("data", listJson DataSegment.toJson m.data),
    ("memory", .obj [("min_pages", u32Json m.minPages)]),
    ("heap_base", u32Json m.heapBase),
    ("start", Json.ofOption u32Json m.start),
    ("main", Json.ofOption Entry.toJson m.main)]

/-- The least size of the memory from JSON. -/
def memoryOfJson? (j : Json) : Option UInt32 := do
  match ← j.record? ["min_pages"] with
  | [some pages] => pages.u32?
  | _ => none

/-- A module from JSON. -/
def ofJson? (j : Json) : Option Module := do
  match ← j.record? ["types", "imports", "functions", "table", "data", "memory", "heap_base",
    "start", "main"] with
  | [some types, some imports, some functions, some table, some data, some memory, some heapBase,
      start, main] =>
    return {
      types := ← types.list? FuncType.ofJson?
      imports := ← imports.list? Import.ofJson?
      functions := ← functions.list? Function.ofJson?
      table := ← table.list? Json.u32?
      data := ← data.list? DataSegment.ofJson?
      minPages := ← memoryOfJson? memory
      heapBase := ← heapBase.u32?
      start := ← (start.getD .null).option? Json.u32?
      main := ← (main.getD .null).option? Entry.ofJson? }
  | _ => none

/-- The interchange text of a module. -/
def jsonText (m : Module) : String :=
  m.toJson.pretty

/-- The module with an interchange text. -/
def ofJsonText? (text : String) : Option Module := do
  ofJson? (← Json.ofText? text)

end Module

end StackScript
