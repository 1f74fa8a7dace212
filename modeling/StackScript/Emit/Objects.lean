import StackScript.Emit.Basic
import StackScript.Text.Utf8

/-!
# Emitting objects

Code that builds values in memory, and code that reaches into them.

## Design Notes

Subexpressions come in as actions that emit them.  An action runs at its turn, so that locals are
numbered and constants are placed in the order of the code.
-/

namespace StackScript

open Layout (Word)

/-- A constant that can be placed in the data in advance. -/
inductive Literal where
  | word (w : Word)
  /-- A string or bytes, of which the word is the address. -/
  | bytes (bs : List UInt8)

/-- The number of an integer literal. -/
def Typed.Expr.intLiteral? (e : Typed.Expr) : Option Nat :=
  match e.form with
  | .int v => some v
  | _ => none

/-- The constant that an expression is by its form alone. -/
def Typed.Expr.literal? (e : Typed.Expr) : Option Literal :=
  match e.form with
  | .int v => some (.word (Emit.intWord v e.ty))
  | .float v => some (.word (.f64 v))
  | .bool v => some (.word (.i32 (if v then 1 else 0)))
  | .str v => some (.bytes (Utf8.encode v))
  | .bytes v => some (.bytes v)
  | .unary .neg operand =>
    match operand.form with
    | .int v => some (.word (Emit.intWord (-v) e.ty))
    | .float v => some (.word (.f64 v.neg))
    | _ => none
  | _ => none

namespace Emit

/-- A literal as a word; strings are placed at their turn. -/
def literalWord : Literal → Emit Word
  | .word w => return w
  | .bytes bs => return .i32 (BitVec.ofNat 32 (← strConst bs))

/-! ### Building -/

/-- A new object that is a copy of constant words. -/
def template (s : Site) (words : List Word) (size : Nat) : Emit (List Code) := do
  let addr ← wordsConst words
  let (object, allocation) ← alloc s size
  return Code.ops (allocation ++ [.get object, .const addr, .const size, .memoryCopy, .get object])

/-- Writes a value, if it has one, to an object in a local. -/
def storeSlot (object offset : Nat) (ty : Ty) (value : List Code) : List Code :=
  match ty.valType? with
  | some vt => [.op (.get object)] ++ value ++ [.op (.write (.ofVal vt) offset)]
  | none => value

/-- A new object with a tag and a payload. -/
def tagged (s : Site) (tag : Nat) (payload : Option (Ty × Emit (List Code))) :
    Emit (List Code) := do
  let (object, allocation) ← alloc s (2 * Layout.word)
  let head := allocation ++ [.get object, .const tag, .write .i32 0]
  let body ←
    match payload with
    | some (ty, value) => storeSlot object Layout.payload ty <$> value
    | none => pure []
  return Code.ops head ++ body ++ [.op (.get object)]

/-- Code that copies variables into an environment in a local, from a slot on. -/
def captureAll (s : Site) (env : Nat) : Nat → List Variable → Emit (List Op)
  | _, [] => return []
  | slot, v :: vs => do
    let value ← readVariable s v
    let rest ← captureAll s env (slot + 1) vs
    return [.get env] ++ value ++ [.write v.ty.slotKind (Layout.word * slot)] ++ rest

/-- A new function value with the function in a table slot and an environment of its own. -/
def closure (s : Site) (slot : Nat) (captures : List Variable) : Emit (List Code) := do
  let (env, envCode) ←
    if captures.isEmpty then pure (Op.const 0, [])
    else do
      let (env, allocation) ← alloc s (Layout.word * captures.length)
      let copies ← captureAll s env 0 captures
      pure (Op.get env, allocation ++ copies)
  let (value, allocation) ← alloc s (2 * Layout.word)
  return Code.ops (envCode ++ allocation
    ++ [.get value, .const slot, .write .i32 0]
    ++ [.get value, env, .write .i32 Layout.word, .get value])

/-! ### Reaching in -/

/-- Where an assignment writes. -/
inductive Place where
  | local_ (i : Nat)
  /-- Memory at an offset from the address in a local. -/
  | memory (base offset : Nat) (kind : MemKind)

/-- Reads a place. -/
def Place.load : Place → List Op
  | local_ i => [.get i]
  | memory base offset kind => [.get base, .read kind offset]

/-- Writes a local to a place. -/
def Place.store (value : Nat) : Place → List Op
  | local_ i => [.get value, .set i]
  | memory base offset kind => [.get base, .get value, .write kind offset]

/-- The checked address of an element: access, offset and code. -/
def elementAddress (s : Site) (objectTy positionTy : Ty) (object position : Emit (List Code)) :
    Emit (MemKind × Nat × List Code) := do
  let objectCode ← object
  let base ← newLocal s .i32
  let positionCode ← position
  let i ← newLocal s .i32
  let wrap : List Op := if positionTy.isWide then [.num (.convert .wrap)] else []
  let checked := objectCode ++ [Code.op (.set base)] ++ positionCode ++ Code.ops (wrap ++ [Op.set i])
    ++ Code.ops [.get i, .get base, .head, .notBelow] ++ [Code.cond none [.op .unreachable]]
  match objectTy with
  | .array elem =>
    return (elem.slotKind, Layout.arrayHeader,
      checked ++ Code.ops ([Op.get base, .get i] ++ Op.offsetWords))
  | .bytes => return (.u8, Layout.strHeader, checked ++ Code.ops [.get base, .get i, .add])
  | ty => throw (.indexing ty)

/-- Puts the value in a local behind the elements of the array at a place. -/
def pushOps (s : Site) (place : Place) (item : Nat) (kind : MemKind) : Emit (List Op) := do
  let array ← newLocal s .i32
  return place.load ++ [Op.callFn s.plan.arrayGrow, .set array] ++ place.store array
    ++ [Op.get array, .get array, .head] ++ Op.offsetWords
    ++ [Op.get item, .write kind Layout.arrayHeader]
    ++ [Op.get array, .get array, .head, .const 1, .add, .write .i32 0]

/-- Takes the last element off the array in a local; an array without elements is a fault. -/
def popCode (array : Nat) (kind : MemKind) : List Code :=
  Code.ops [.get array, .head, .isZero] ++ [Code.cond none [.op .unreachable]]
  ++ Code.ops ([Op.get array, .get array, .head, .const 1, .sub, .write .i32 0]
    ++ [Op.get array, .get array, .head] ++ Op.offsetWords
    ++ [Op.read kind Layout.arrayHeader])

/-- The address of the bytes and the length of the string on the stack. -/
def stringParts (s : Site) : Emit (List Op) := do
  let str ← newLocal s .i32
  return [.set str, .get str, .const Layout.strHeader, .add, .get str, .head]

end Emit

end StackScript
