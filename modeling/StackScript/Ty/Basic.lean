import StackScript.Number.Power

/-!
# Types

## Design Notes

Compound types are equal when their parts are; structs and enums are known by name.  `never` is the
type of an expression that does not come to an end.
-/

namespace StackScript

/-- The widths of integers. -/
inductive IntWidth where
  | w8 | w16 | w32 | w64
  deriving DecidableEq, Repr

/-- The number of bits of a width. -/
def IntWidth.bits : IntWidth → Nat
  | w8 => 8
  | w16 => 16
  | w32 => 32
  | w64 => 64

/-- An integer type. -/
structure IntKind where
  signed : Bool
  width : IntWidth
  deriving DecidableEq, Repr

namespace IntKind

/-- The integers of 32 bits with a sign. -/
def i32 : IntKind := ⟨true, .w32⟩

/-- Bytes. -/
def u8 : IntKind := ⟨false, .w8⟩

/-- All integer types. -/
def all : List IntKind :=
  [⟨true, .w8⟩, ⟨true, .w16⟩, ⟨true, .w32⟩, ⟨true, .w64⟩,
    ⟨false, .w8⟩, ⟨false, .w16⟩, ⟨false, .w32⟩, ⟨false, .w64⟩]

/-- The number of bits. -/
def bits (k : IntKind) : Nat :=
  k.width.bits

/-- Whether values take 64 bits. -/
def isWide (k : IntKind) : Bool :=
  k.width = .w64

/-- The least value. -/
def lo (k : IntKind) : Int :=
  if k.signed then -(twoPow (k.bits - 1) : Int) else 0

/-- The greatest value. -/
def hi (k : IntKind) : Int :=
  if k.signed then twoPow (k.bits - 1) - 1 else twoPow k.bits - 1

/-- Whether a number is a value of the type. -/
def contains (k : IntKind) (n : Int) : Bool :=
  k.lo ≤ n && n ≤ k.hi

/-- The name of an integer type. -/
def text (k : IntKind) : String :=
  (if k.signed then "i" else "u") ++ toString k.bits

end IntKind

/-- The types of values. -/
inductive Ty where
  | void
  | bool
  | int (kind : IntKind)
  | float
  | str
  | bytes
  | array (elem : Ty)
  | result (ok err : Ty)
  | promise (inner : Ty)
  | fn (params : List Ty) (ret : Ty)
  | struct (name : String)
  | enum (name : String)
  /-- The type of expressions that give no value because they never end normally. -/
  | never

namespace Ty

instance : Inhabited Ty :=
  ⟨void⟩

/-- The type of integer literals without another hint. -/
def i32 : Ty := int .i32

/-! ### Equality -/

mutual

/-- Whether two types are the same. -/
def beq : Ty → Ty → Bool
  | void, void => true
  | bool, bool => true
  | int a, int b => a = b
  | float, float => true
  | str, str => true
  | bytes, bytes => true
  | array a, array b => beq a b
  | result a b, result c d => beq a c && beq b d
  | promise a, promise b => beq a b
  | fn ps r, fn qs s => beqList ps qs && beq r s
  | struct a, struct b => a = b
  | enum a, enum b => a = b
  | never, never => true
  | _, _ => false

/-- Whether two lists of types are the same. -/
def beqList : List Ty → List Ty → Bool
  | [], [] => true
  | a :: as, b :: bs => beq a b && beqList as bs
  | _, _ => false

end

mutual

theorem beq_iff : ∀ a b : Ty, beq a b = true ↔ a = b
  | void, b => by cases b <;> simp [beq]
  | bool, b => by cases b <;> simp [beq]
  | int _, b => by cases b <;> simp [beq]
  | float, b => by cases b <;> simp [beq]
  | str, b => by cases b <;> simp [beq]
  | bytes, b => by cases b <;> simp [beq]
  | array a, b => by cases b <;> simp [beq, beq_iff a]
  | result a c, b => by cases b <;> simp [beq, beq_iff a, beq_iff c]
  | promise a, b => by cases b <;> simp [beq, beq_iff a]
  | fn ps r, b => by cases b <;> simp [beq, beqList_iff ps, beq_iff r]
  | struct _, b => by cases b <;> simp [beq]
  | enum _, b => by cases b <;> simp [beq]
  | never, b => by cases b <;> simp [beq]

theorem beqList_iff : ∀ as bs : List Ty, beqList as bs = true ↔ as = bs
  | [], bs => by cases bs <;> simp [beqList]
  | a :: as, bs => by cases bs <;> simp [beqList, beq_iff a, beqList_iff as]

end

instance : DecidableEq Ty := fun a b =>
  decidable_of_iff (beq a b = true) (beq_iff a b)

/-! ### Classes of types -/

/-- The type with a reserved name. -/
def primitive? (name : String) : Option Ty :=
  match name with
  | "void" => some void
  | "bool" => some bool
  | "f64" | "float" => some float
  | "string" => some str
  | "bytes" => some bytes
  | _ => (IntKind.all.find? (·.text = name)).map int

/-- Integers and floats. -/
def isNumeric : Ty → Bool
  | int _ | float => true
  | _ => false

/-- Integers. -/
def isInteger : Ty → Bool
  | int _ => true
  | _ => false

/-- Numbers that take 64 bits. -/
def isWide : Ty → Bool
  | int k => k.isWide
  | float => true
  | _ => false

/-- Types without values. -/
def isEmpty : Ty → Bool
  | void | never => true
  | _ => false

/-- Whether a value of type `actual` may stand where `wanted` is wanted. -/
def accepts (wanted actual : Ty) : Bool :=
  actual = never || wanted = actual

/-! ### Text -/

mutual

/-- A type as it is written. -/
def text : Ty → String
  | void => "void"
  | bool => "bool"
  | int k => k.text
  | float => "f64"
  | str => "string"
  | bytes => "bytes"
  | array elem => "[" ++ elem.text ++ "]"
  | result ok err => "Result<" ++ ok.text ++ ", " ++ err.text ++ ">"
  | promise inner => "Promise<" ++ inner.text ++ ">"
  | fn params ret => "fn(" ++ listText params ++ ") -> " ++ ret.text
  | struct name => name
  | enum name => name
  | never => "!"

/-- Types with commas between them. -/
def listText : List Ty → String
  | [] => ""
  | [t] => t.text
  | t :: u :: ts => t.text ++ ", " ++ listText (u :: ts)

end

end Ty

end StackScript
