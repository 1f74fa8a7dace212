import StackScript.Emit.Operators

/-!
# Functions of every module

Three functions on strings and arrays that emitted code calls.
-/

namespace StackScript

namespace Intrinsic

/-- A function without a name for callers from outside. -/
def define (name : String) (params locals : List ValType) (code : List Code) : Function :=
  { name
    ty := .of params (some .i32)
    locals
    body := Code.flatList code ++ [.end_]
    export_ := none }

/-- The address of the bytes of the string in a local. -/
def bytesOf (str : Nat) : List Op :=
  [.get str, .const Layout.strHeader, .add]

/-- A new string with the bytes of two strings. -/
def strConcat : Function :=
  let a := 0
  let b := 1
  let lenA := 2
  let lenB := 3
  let out := 4
  define "__str_concat" [.i32, .i32] [.i32, .i32, .i32] <| Code.ops <|
    [Op.get a, .head, .set lenA, .get b, .head, .set lenB]
    ++ [Op.get lenA, .get lenB, .add, .const Layout.strHeader, .add, .host .alloc, .set out]
    ++ [Op.get out, .get lenA, .get lenB, .add, .write .i32 0]
    ++ bytesOf out ++ bytesOf a ++ [Op.get lenA, .memoryCopy]
    ++ bytesOf out ++ [Op.get lenA, .add] ++ bytesOf b ++ [Op.get lenB, .memoryCopy]
    ++ [Op.get out]

/-- Whether two strings have the same bytes. -/
def strEq : Function :=
  let a := 0
  let b := 1
  let len := 2
  let i := 3
  let byte (str : Nat) : List Op := [.get str, .get i, .add, .read .u8 Layout.strHeader]
  let unequal : Code := .cond none (Code.ops [.const 0, .return_])
  define "__str_eq" [.i32, .i32] [.i32, .i32] <|
    Code.ops [.get a, .head, .localTee len.toUInt32, .get b, .head, .differ]
    ++ [unequal,
      .block none [.loop (
        Code.ops [.get i, .get len, .notBelow, .brIf 1]
        ++ Code.ops (byte a ++ byte b ++ [.differ])
        ++ [unequal]
        ++ Code.ops [.get i, .const 1, .add, .set i, .br 0])]]
    ++ Code.ops [.const 1]

/-- The array itself while it has room, else a copy with room for twice as many elements. -/
def arrayGrow : Function :=
  let array := 0
  let len := 1
  let cap := 2
  let newCap := 3
  let out := 4
  let elements (array : Nat) : List Op := [.get array, .const Layout.arrayHeader, .add]
  define "__array_grow" [.i32] [.i32, .i32, .i32, .i32] <|
    Code.ops [.get array, .head, .set len, .get array, .read .i32 4, .set cap]
    ++ Code.ops [.get len, .get cap, .below]
    ++ [.cond none (Code.ops [.get array, .return_])]
    ++ Code.ops [.get cap, .const 2, .mul, .set newCap]
    ++ Code.ops [.get newCap, .const Layout.minGrowth, .below]
    ++ [.cond none (Code.ops [.const Layout.minGrowth, .set newCap])]
    ++ Code.ops [.get newCap, .const Layout.word, .mul, .const Layout.arrayHeader, .add]
    ++ Code.ops [.host .alloc, .set out]
    ++ Code.ops [.get out, .get len, .write .i32 0, .get out, .get newCap, .write .i32 4]
    ++ Code.ops (elements out ++ elements array)
    ++ Code.ops [.get len, .const Layout.word, .mul, .memoryCopy, .get out]

/-- All of them, in the order of their numbers. -/
def all : List Function :=
  [strConcat, strEq, arrayGrow]

end Intrinsic

end StackScript
