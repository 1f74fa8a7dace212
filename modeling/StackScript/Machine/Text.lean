import StackScript.Machine.Module
import StackScript.Number.Shortest

/-!
# The text form of a module

## Design Notes

Names are written with a dollar sign in front; characters outside a small set become underscores.
A body is indented by its open blocks.
-/

namespace StackScript

/-- A character of a name. -/
def nameChar (c : Char) : Char :=
  if c.isAlphanum || "_.$<>-".toList.contains c then c else '_'

/-- A name as it is written. -/
def nameText (name : String) : String :=
  "$" ++ String.ofList (name.toList.map nameChar)

/-- Types with a blank before each. -/
def valTypesText (ts : List ValType) : String :=
  String.join (ts.map fun t => " " ++ t.text)

/-- The parameters and results of a function. -/
def FuncType.text (ty : FuncType) : String :=
  (if ty.params.isEmpty then "" else " (param" ++ valTypesText ty.params ++ ")") ++
    String.join (ty.results.map fun r => " (result " ++ r.text ++ ")")

/-- The result of a block. -/
def blockText : Option ValType → String
  | some t => " (result " ++ t.text ++ ")"
  | none => ""

/-- Two lower-case hexadecimal digits. -/
def byteHex (b : UInt8) : String :=
  String.ofList [Nat.digitChar (b.toNat / 16), Nat.digitChar (b.toNat % 16)]

/-- A byte of a data string: visible characters stand for themselves. -/
def dataByte (b : UInt8) : String :=
  if 32 ≤ b.toNat ∧ b.toNat < 127 ∧ b ≠ 34 ∧ b ≠ 92 then (Char.ofNat b.toNat).toString
  else "\\" ++ byteHex b

/-- The name of a load. -/
def MemKind.loadText : MemKind → String
  | i32 => "i32.load"
  | i64 => "i64.load"
  | f64 => "f64.load"
  | u8 => "i32.load8_u"

/-- The name of a store. -/
def MemKind.storeText : MemKind → String
  | i32 => "i32.store"
  | i64 => "i64.store"
  | f64 => "f64.store"
  | u8 => "i32.store8"

/-- A memory access with its offset. -/
def accessText (name : String) (offset : UInt32) : String :=
  if offset = 0 then name else name ++ " offset=" ++ toString offset.toNat

namespace Module

/-- A function by its name, or by its number when there is no such function. -/
def functionText (m : Module) (index : UInt32) : String :=
  let i := index.toNat
  if i < m.imports.length then
    match m.imports[i]? with
    | some f => nameText f.name
    | none => toString i
  else
    match m.functions[i - m.imports.length]? with
    | some f => nameText f.name
    | none => toString i

/-- An instruction without structure. -/
def opText (m : Module) : Op → String
  | .unreachable => "unreachable"
  | .br d => "br " ++ toString d.toNat
  | .brIf d => "br_if " ++ toString d.toNat
  | .return_ => "return"
  | .call i => "call " ++ m.functionText i
  | .callIndirect t => "call_indirect (type $t" ++ toString t.toNat ++ ")"
  | .drop => "drop"
  | .localGet i => "local.get " ++ toString i.toNat
  | .localSet i => "local.set " ++ toString i.toNat
  | .localTee i => "local.tee " ++ toString i.toNat
  | .i32Const v => "i32.const " ++ toString v.toInt
  | .i64Const v => "i64.const " ++ toString v.toInt
  | .f64Const v => "f64.const " ++ DecimalLayout.literal.render v
  | .load kind offset => accessText kind.loadText offset
  | .store kind offset => accessText kind.storeText offset
  | .memoryCopy => "memory.copy"
  | .num op => op.mnemonic

/-- An instruction. -/
def instrText (m : Module) : Instr → String
  | .block ty => "block" ++ blockText ty
  | .loop ty => "loop" ++ blockText ty
  | .if_ ty => "if" ++ blockText ty
  | .else_ => "else"
  | .end_ => "end"
  | .op o => m.opText o

/-- The line of an instruction at an indentation. -/
def lineText (depth : Nat) (text : String) : String :=
  String.ofList (List.replicate (2 * depth) ' ') ++ text ++ "\n"

/-- The lines of a body that starts at an indentation. -/
def bodyLines (m : Module) : Nat → List Instr → List String
  | _, [] => []
  | depth, i :: is =>
    let text := m.instrText i
    match i with
    | .block _ | .loop _ | .if_ _ => lineText depth text :: bodyLines m (depth + 1) is
    | .else_ => lineText (depth - 1) text :: bodyLines m (depth - 1 + 1) is
    | .end_ => lineText (depth - 1) text :: bodyLines m (depth - 1) is
    | .op _ => lineText depth text :: bodyLines m depth is

/-- The lines of a function. -/
def functionLines (m : Module) (f : Function) : List String :=
  let exported :=
    match f.export_ with
    | some name => " (export \"" ++ name ++ "\")"
    | none => ""
  let locals := if f.locals.isEmpty then "" else " (local" ++ valTypesText f.locals ++ ")"
  ("  (func " ++ nameText f.name ++ exported ++ f.ty.text ++ locals ++ "\n") ::
    m.bodyLines 2 f.body ++ ["  )\n"]

/-- The lines of a module. -/
def lines (m : Module) : List String :=
  let types := m.types.zipIdx.map fun (ty, i) =>
    "  (type $t" ++ toString i ++ " (func" ++ ty.text ++ "))\n"
  let imports := m.imports.map fun i =>
    "  (import \"" ++ i.provider ++ "\" \"" ++ i.name ++ "\" (func " ++ nameText i.name ++
      i.ty.text ++ "))\n"
  let memory := "  (memory (export \"memory\") " ++ toString m.minPages.toNat ++ ")\n"
  let table :=
    if m.table.isEmpty then []
    else
      ["  (table " ++ toString m.table.length ++ " funcref)\n",
        "  (elem (i32.const 0) func " ++ " ".intercalate (m.table.map m.functionText) ++ ")\n"]
  let data := m.data.map fun d =>
    "  (data (i32.const " ++ toString d.offset.toNat ++ ") \"" ++
      String.join (d.bytes.map dataByte) ++ "\")\n"
  ["(module\n"] ++ types ++ imports ++ [memory] ++ table ++ data ++
    m.functions.flatMap m.functionLines ++ [")\n"]

/-- A module in the text format of its machine. -/
def text (m : Module) : String :=
  String.join m.lines

end Module

end StackScript
