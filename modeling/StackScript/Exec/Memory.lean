import StackScript.Emit.Layout
import StackScript.Exec.Fault

/-!
# Memory

One array of bytes, with an allocator that only moves forward.

## Design Notes

Addresses are computed without wrapping, so an access is in bounds exactly when its last byte is.
A failed step leaves the memory as it was.
-/

namespace StackScript

/-- The bytes of a running module. -/
structure Memory where
  bytes : ByteArray
  /-- The next address to be allocated. -/
  next : Nat
  maxPages : Nat

namespace Memory

/-- A memory without bytes. -/
def empty : Memory :=
  ⟨.empty, 0, 0⟩

instance : Inhabited Memory := ⟨empty⟩

/-- A step on a memory. -/
abbrev Action := EStateM Fault Memory

/-- The number of bytes. -/
def size (m : Memory) : Nat :=
  m.bytes.size

/-- The number of pages. -/
def pages (m : Memory) : Nat :=
  m.size / pageSize

/-- Zero bytes. -/
def zeros (n : Nat) : ByteArray :=
  ⟨Array.replicate n 0⟩

/-! ### Bytes -/

/-- The number in the `width` bytes from an address on, the least significant first. -/
def getNat (bytes : ByteArray) (addr : Nat) : Nat → Nat
  | 0 => 0
  | width + 1 => (bytes.get! addr).toNat + 256 * getNat bytes (addr + 1) width

/-- Writes bytes from an address on. -/
def setBytes (bytes : ByteArray) (addr : Nat) : List UInt8 → ByteArray
  | [] => bytes
  | b :: bs => setBytes (bytes.set! addr b) (addr + 1) bs

/-- Fails unless some bytes from an address on are in bounds. -/
def inBounds (addr len : Nat) : Action Unit := fun m =>
  if addr + len ≤ m.size then .ok () m else .error (.outOfBounds addr len) m

/-- Fails where a value has the wrong type. -/
def ofExcept {α : Type} : Except Fault α → Action α
  | .ok a => pure a
  | .error e => throw e

/-! ### Accesses -/

/-- The address of an access: a base and an offset. -/
def effective (addr : BitVec 32) (offset : Nat) : Nat :=
  addr.toNat + offset

/-- The value of an access from the number in its bytes. -/
def valueOf (n : Nat) : MemKind → Value
  | .u8 | .i32 => .i32 (BitVec.ofNat 32 n)
  | .i64 => .i64 (BitVec.ofNat 64 n)
  | .f64 => .f64 ⟨BitVec.ofNat 64 n⟩

/-- The number that an access writes; a byte is the lowest of a word. -/
def numberOf (v : Value) : MemKind → Except Fault Nat
  | .u8 | .i32 => do return (← v.toI32).toNat
  | .i64 => do return (← v.toI64).toNat
  | .f64 => do return (← v.toF64).bits.toNat

/-- Reads a value. -/
def load (kind : MemKind) (addr : BitVec 32) (offset : Nat) : Action Value := do
  let place := effective addr offset
  inBounds place kind.width
  let m ← get
  return valueOf (getNat m.bytes place kind.width) kind

/-- Writes a value. -/
def store (kind : MemKind) (addr : BitVec 32) (offset : Nat) (v : Value) : Action Unit := do
  let place := effective addr offset
  inBounds place kind.width
  let n ← ofExcept (numberOf v kind)
  modify fun m => { m with
    bytes := setBytes m.bytes place (Layout.littleEndian kind.width n) }

/-- Copies bytes; the ranges may overlap. -/
def copy (target source len : BitVec 32) : Action Unit := do
  inBounds source.toNat len.toNat
  inBounds target.toNat len.toNat
  modify fun m =>
    let chunk := m.bytes.extract source.toNat (source.toNat + len.toNat)
    { m with bytes := chunk.copySlice 0 m.bytes target.toNat len.toNat }

/-- Reads bytes. -/
def read (addr len : Nat) : Action (List UInt8) := do
  inBounds addr len
  let m ← get
  return (m.bytes.extract addr (addr + len)).toList

/-- Writes bytes. -/
def write (addr : Nat) (bs : List UInt8) : Action Unit := do
  inBounds addr bs.length
  modify fun m => { m with bytes := setBytes m.bytes addr bs }

/-- Reads the bytes of a string object. -/
def readStr (ptr : BitVec 32) : Action (List UInt8) := do
  let m ← get
  inBounds ptr.toNat Layout.strHeader
  read (ptr.toNat + Layout.strHeader) (getNat m.bytes ptr.toNat Layout.strHeader)

/-! ### Allocation -/

/-- The pages that hold some bytes. -/
def pagesFor (bytes : Nat) : Nat :=
  (bytes + (pageSize - 1)) / pageSize

/-- Grows to hold the bytes below an address. -/
def growTo (stop : Nat) (m : Memory) : Memory :=
  if m.size < stop then
    { m with bytes := m.bytes ++ zeros (pagesFor stop * pageSize - m.size) }
  else m

/-- Allocates bytes, all of them zero; no bytes take one as well. -/
def alloc (size : Nat) : Action Nat := do
  let m ← get
  let addr := m.next
  let stop := addr + max size 1
  if Layout.addressLimit ≤ stop || (m.size < stop && m.maxPages < pagesFor stop) then
    throw (.outOfMemory m.maxPages)
  else
    modify fun m => { growTo stop m with next := Layout.align stop }
    return addr

/-- Allocates a string object with some bytes. -/
def allocStr (bs : List UInt8) : Action Nat := do
  let ptr ← alloc (Layout.strHeader + bs.length)
  write ptr (Layout.littleEndian Layout.strHeader bs.length)
  write (ptr + Layout.strHeader) bs
  return ptr

/-- Writes the constant data of a module. -/
def writeAll : List DataSegment → Action Unit
  | [] => return ()
  | d :: ds => do
    write d.offset.toNat d.bytes
    writeAll ds

/-- The memory at the start of a run. -/
def ofModule (m : Module) (maxPages : Nat) : Except Fault Memory :=
  let pages := m.minPages.toNat
  if maxPages < pages then .error (.outOfMemory maxPages)
  else
    match writeAll m.data ⟨zeros (pages * pageSize), Layout.align m.heapBase.toNat, maxPages⟩ with
    | .ok _ memory => .ok memory
    | .error e _ => .error e

end Memory

end StackScript
