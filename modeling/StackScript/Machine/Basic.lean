/-!
# Machine types and operators

## Design Notes

Operators are grouped into families (comparison, arithmetic, bit operations, conversion), each for
the widths that it has; a name is put together from the width, the operator and the sign.
-/

namespace StackScript

/-- The types of machine values. -/
inductive ValType where
  | i32 | i64 | f64
  deriving DecidableEq, Repr

namespace ValType

/-- The name in the text form. -/
def text : ValType → String
  | i32 => "i32"
  | i64 => "i64"
  | f64 => "f64"

/-- The name in the interchange form. -/
def tag : ValType → String
  | i32 => "I32"
  | i64 => "I64"
  | f64 => "F64"

end ValType

/-- The parameters and results of a machine function. -/
structure FuncType where
  params : List ValType
  results : List ValType
  deriving DecidableEq, Repr

/-- A function with at most one result. -/
def FuncType.of (params : List ValType) (result : Option ValType) : FuncType :=
  ⟨params, result.toList⟩

/-- Width and type of a memory access. -/
inductive MemKind where
  | i32 | i64 | f64
  /-- One byte, which a load extends with zeros. -/
  | u8
  deriving DecidableEq, Repr

namespace MemKind

/-- The access for a value of a type. -/
def ofVal : ValType → MemKind
  | .i32 => i32
  | .i64 => i64
  | .f64 => f64

/-- The number of bytes. -/
def width : MemKind → Nat
  | i32 => 4
  | i64 => 8
  | f64 => 8
  | u8 => 1

/-- The name in the interchange form. -/
def tag : MemKind → String
  | i32 => "I32"
  | i64 => "I64"
  | f64 => "F64"
  | u8 => "U8"

end MemKind

/-! ### Operators -/

/-- The widths of machine integers. -/
inductive WordSize where
  | w32 | w64
  deriving DecidableEq, Repr

/-- Comparisons of integers; an order takes a sign or not. -/
inductive IntRel where
  | eq | ne
  | lt (signed : Bool)
  | gt (signed : Bool)
  | le (signed : Bool)
  | ge (signed : Bool)
  deriving DecidableEq, Repr

/-- Arithmetic on integers; division takes a sign or not. -/
inductive IntArith where
  | add | sub | mul
  | div (signed : Bool)
  | rem (signed : Bool)
  deriving DecidableEq, Repr

/-- Operations on the bits of 32-bit integers. -/
inductive BitOp where
  | and | or | shl
  | shr (signed : Bool)
  deriving DecidableEq, Repr

/-- Comparisons of floats. -/
inductive FloatRel where
  | eq | ne | lt | gt | le | ge
  deriving DecidableEq, Repr

/-- Arithmetic on floats. -/
inductive FloatArith where
  | add | sub | mul | div
  deriving DecidableEq, Repr

/-- Conversions between number types. -/
inductive Conversion where
  /-- 64 bits to the low 32. -/
  | wrap
  /-- 32 bits to 64. -/
  | extend (signed : Bool)
  /-- An integer to a float. -/
  | toFloat (size : WordSize) (signed : Bool)
  /-- A float to the nearest integer in range toward zero. -/
  | truncate (size : WordSize) (signed : Bool)
  /-- The bits of a float. -/
  | floatBits
  /-- The float with given bits. -/
  | bitsFloat
  deriving DecidableEq, Repr

/-- Operators on numbers. -/
inductive NumOp where
  | eqz (size : WordSize)
  | rel (size : WordSize) (r : IntRel)
  | arith (size : WordSize) (a : IntArith)
  | bits (b : BitOp)
  | floatRel (r : FloatRel)
  | floatArith (a : FloatArith)
  | floatNeg
  | convert (c : Conversion)
  deriving DecidableEq, Repr

/-- An operator's name in its two forms: words joined by underscores, or capitalised. -/
structure OpName where
  text : String
  tag : String

namespace OpName

/-- A name of one word. -/
def word (text tag : String) : OpName :=
  ⟨text, tag⟩

/-- A name with a sign at its end. -/
def withSign (signed : Bool) (n : OpName) : OpName :=
  ⟨n.text ++ (if signed then "_s" else "_u"), n.tag ++ (if signed then "S" else "U")⟩

/-- A name with a type in front. -/
def withType (t : ValType) (n : OpName) : OpName :=
  ⟨t.text ++ "." ++ n.text, t.tag ++ n.tag⟩

end OpName

/-- The value type of a word. -/
def WordSize.val : WordSize → ValType
  | w32 => .i32
  | w64 => .i64

/-- The name of a comparison. -/
def IntRel.name : IntRel → OpName
  | eq => .word "eq" "Eq"
  | ne => .word "ne" "Ne"
  | lt s => (OpName.word "lt" "Lt").withSign s
  | gt s => (OpName.word "gt" "Gt").withSign s
  | le s => (OpName.word "le" "Le").withSign s
  | ge s => (OpName.word "ge" "Ge").withSign s

/-- The name of an arithmetic operator. -/
def IntArith.name : IntArith → OpName
  | add => .word "add" "Add"
  | sub => .word "sub" "Sub"
  | mul => .word "mul" "Mul"
  | div s => (OpName.word "div" "Div").withSign s
  | rem s => (OpName.word "rem" "Rem").withSign s

/-- The name of a bit operation. -/
def BitOp.name : BitOp → OpName
  | and => .word "and" "And"
  | or => .word "or" "Or"
  | shl => .word "shl" "Shl"
  | shr s => (OpName.word "shr" "Shr").withSign s

/-- The name of a comparison. -/
def FloatRel.name : FloatRel → OpName
  | eq => .word "eq" "Eq"
  | ne => .word "ne" "Ne"
  | lt => .word "lt" "Lt"
  | gt => .word "gt" "Gt"
  | le => .word "le" "Le"
  | ge => .word "ge" "Ge"

/-- The name of an arithmetic operator. -/
def FloatArith.name : FloatArith → OpName
  | add => .word "add" "Add"
  | sub => .word "sub" "Sub"
  | mul => .word "mul" "Mul"
  | div => .word "div" "Div"

/-- The name of a conversion. -/
def Conversion.name : Conversion → OpName
  | wrap => (OpName.word "wrap_i64" "WrapI64").withType .i32
  | extend s => ((OpName.word "extend_i32" "ExtendI32").withSign s).withType .i64
  | toFloat .w32 s => ((OpName.word "convert_i32" "ConvertI32").withSign s).withType .f64
  | toFloat .w64 s => ((OpName.word "convert_i64" "ConvertI64").withSign s).withType .f64
  | truncate size s => ((OpName.word "trunc_sat_f64" "TruncSatF64").withSign s).withType size.val
  | floatBits => (OpName.word "reinterpret_f64" "ReinterpretF64").withType .i64
  | bitsFloat => (OpName.word "reinterpret_i64" "ReinterpretI64").withType .f64

namespace NumOp

/-- The name of an operator. -/
def name : NumOp → OpName
  | eqz size => (OpName.word "eqz" "Eqz").withType size.val
  | rel size r => r.name.withType size.val
  | arith size a => a.name.withType size.val
  | bits b => b.name.withType .i32
  | floatRel r => r.name.withType .f64
  | floatArith a => a.name.withType .f64
  | floatNeg => (OpName.word "neg" "Neg").withType .f64
  | convert c => c.name

/-- The name in the text form. -/
def mnemonic (op : NumOp) : String :=
  op.name.text

/-- The name in the interchange form. -/
def tag (op : NumOp) : String :=
  op.name.tag

/-- All operators on integers of one width. -/
def ofSize (size : WordSize) : List NumOp :=
  [eqz size, rel size .eq, rel size .ne,
    rel size (.lt true), rel size (.lt false), rel size (.gt true), rel size (.gt false),
    rel size (.le true), rel size (.le false), rel size (.ge true), rel size (.ge false),
    arith size .add, arith size .sub, arith size .mul,
    arith size (.div true), arith size (.div false), arith size (.rem true),
    arith size (.rem false)]

/-- All operators. -/
def all : List NumOp :=
  ofSize .w32 ++ [bits .and, bits .or, bits .shl, bits (.shr true), bits (.shr false)] ++
    ofSize .w64 ++
    [floatRel .eq, floatRel .ne, floatRel .lt, floatRel .gt, floatRel .le, floatRel .ge,
      floatArith .add, floatArith .sub, floatArith .mul, floatArith .div, floatNeg,
      convert .wrap, convert (.extend true), convert (.extend false),
      convert (.toFloat .w32 true), convert (.toFloat .w32 false),
      convert (.toFloat .w64 true), convert (.toFloat .w64 false),
      convert (.truncate .w32 true), convert (.truncate .w32 false),
      convert (.truncate .w64 true), convert (.truncate .w64 false),
      convert .floatBits, convert .bitsFloat]

/-- The operator with a name in the interchange form. -/
def ofTag? (tag : String) : Option NumOp :=
  all.find? (·.tag = tag)

end NumOp

end StackScript
