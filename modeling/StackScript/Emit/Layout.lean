import StackScript.Machine.Module
import StackScript.Ty.Basic

/-!
# Memory layout

How values lie in memory, and the region of constant data.

## Design Notes

Strings and bytes are a length of four bytes and the bytes; arrays are length and capacity, four
bytes each, and then words; structs are words, one a field; enums, results and function values are
two words.  Words take eight bytes, and everything in the region of constant data is aligned to a
word.
-/

namespace StackScript

/-- The machine type of a value; `none` for types without values. -/
def Ty.valType? : Ty → Option ValType
  | .void | .never => none
  | .float => some .f64
  | .int kind => some (if kind.isWide then .i64 else .i32)
  | _ => some .i32

/-- The machine type of a word that holds a value; without a value there is still a word. -/
def Ty.slotType (ty : Ty) : ValType :=
  ty.valType?.getD .i32

/-- The memory access for a word that holds a value. -/
def Ty.slotKind (ty : Ty) : MemKind :=
  .ofVal ty.slotType

namespace Layout

/-- The bytes of a word. -/
def word : Nat := 8

/-- Where the elements of an array start. -/
def arrayHeader : Nat := 8

/-- Where the bytes of a string start. -/
def strHeader : Nat := 4

/-- Where the payload of an enum or result starts. -/
def payload : Nat := word

/-- The least capacity of an array that grows. -/
def minGrowth : Nat := 4

/-- Numbers that addresses and sizes stay below. -/
def addressLimit : Nat := twoPow 32

/-- The next multiple of a word. -/
def align (n : Nat) : Nat :=
  (n + (word - 1)) / word * word

/-- The lowest `width` bytes of a number, the least significant first. -/
def littleEndian : Nat → Nat → List UInt8
  | 0, _ => []
  | width + 1, n => n.toUInt8 :: littleEndian width (n / 256)

/-- A word of constant data. -/
inductive Word where
  | i32 (v : BitVec 32)
  | i64 (v : BitVec 64)
  | f64 (v : Binary64)
  deriving DecidableEq, Repr

/-- The bytes of a word; a value of four bytes is followed by zeros. -/
def Word.bytes : Word → List UInt8
  | i32 v => littleEndian 4 v.toNat ++ [0, 0, 0, 0]
  | i64 v => littleEndian 8 v.toNat
  | f64 v => littleEndian 8 v.bits.toNat

/-- The words of an array with room for `cap` elements: its header, its elements, and zeros. -/
def arrayWords (elements : List Word) (cap : Nat) : List Word :=
  let header := Word.i64 (BitVec.ofNat 64 (elements.length + cap * twoPow 32))
  let elements := elements.take cap
  header :: elements ++ List.replicate (cap - elements.length) (.i64 0)

end Layout

/-- Constant data placed so far. -/
structure DataRegion where
  /-- Where the region starts. -/
  base : Nat
  /-- The first free byte. -/
  stop : Nat
  /-- Address and bytes of everything placed, in order. -/
  segments : List (Nat × List UInt8)

namespace DataRegion

/-- An empty region from an address on. -/
def ofBase (base : Nat) : DataRegion :=
  ⟨Layout.align base, Layout.align base, []⟩

/-- Places bytes and gives their address; no bytes take one as well. -/
def push (d : DataRegion) (bytes : List UInt8) : Nat × DataRegion :=
  (d.stop, { d with
    stop := Layout.align (d.stop + max bytes.length 1)
    segments := d.segments ++ [(d.stop, bytes)] })

/-- Places a string: its length and its bytes. -/
def pushStr (d : DataRegion) (bytes : List UInt8) : Nat × DataRegion :=
  d.push (Layout.littleEndian 4 bytes.length ++ bytes)

/-- Places words. -/
def pushWords (d : DataRegion) (words : List Layout.Word) : Nat × DataRegion :=
  d.push (words.flatMap (·.bytes))

end DataRegion

end StackScript
