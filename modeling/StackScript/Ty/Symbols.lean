import StackScript.Ty.Basic

/-!
# Declared names

The functions, structs and enums of a program.

## Design Notes

An async function with declared result `T` gives its callers a `Promise<T>`.
-/

namespace StackScript

/-- Functions that are always there. -/
inductive Builtin where
  | print | httpGet | httpPost | readFile | writeFile | sleep
  deriving DecidableEq, Repr

namespace Builtin

/-- All of them, in order. -/
def all : List Builtin :=
  [print, httpGet, httpPost, readFile, writeFile, sleep]

/-- The name in a program. -/
def text : Builtin → String
  | print => "print"
  | httpGet => "http_get"
  | httpPost => "http_post"
  | readFile => "read_file"
  | writeFile => "write_file"
  | sleep => "sleep"

/-- The parameter types. -/
def params : Builtin → List Ty
  | print | httpGet | readFile => [.str]
  | httpPost | writeFile => [.str, .str]
  | sleep => [.i32]

/-- The result type. -/
def ret : Builtin → Ty
  | print => .void
  | httpGet | httpPost | readFile => .promise (.result .str .str)
  | writeFile => .promise (.result .i32 .str)
  | sleep => .promise .void

end Builtin

/-- Who provides a function. -/
inductive FunctionKind where
  /-- The program. -/
  | user
  /-- The host, on declaration. -/
  | external
  /-- The host, always. -/
  | builtin (b : Builtin)
  deriving DecidableEq, Repr

/-- What a function promises. -/
structure FunctionSig where
  name : String
  params : List Ty
  /-- The declared result. -/
  ret : Ty
  isAsync : Bool := false
  isExport : Bool := false
  kind : FunctionKind := .user

namespace FunctionSig

/-- The result that callers see. -/
def effectiveRet (s : FunctionSig) : Ty :=
  if s.isAsync then .promise s.ret else s.ret

/-- The type of the function as a value. -/
def ty (s : FunctionSig) : Ty :=
  .fn s.params s.effectiveRet

/-- The signature of a function that is always there. -/
def ofBuiltin (b : Builtin) : FunctionSig :=
  { name := b.text, params := b.params, ret := b.ret, kind := .builtin b }

end FunctionSig

/-- A method; with `hasSelf` the first parameter is the value it is called on. -/
structure MethodSig where
  hasSelf : Bool
  sig : FunctionSig

/-- The fields and methods of a struct, in order. -/
structure StructShape where
  name : String
  fields : List (String × Ty)
  methods : List MethodSig

namespace StructShape

/-- The place and type of a field in a list that starts at place `i`. -/
def fieldFrom (name : String) : Nat → List (String × Ty) → Option (Nat × Ty)
  | _, [] => none
  | i, (n, ty) :: rest => if n = name then some (i, ty) else fieldFrom name (i + 1) rest

/-- The place and type of a field. -/
def field? (s : StructShape) (name : String) : Option (Nat × Ty) :=
  fieldFrom name 0 s.fields

/-- The place and signature of a method in a list that starts at place `i`. -/
def methodFrom (name : String) : Nat → List MethodSig → Option (Nat × MethodSig)
  | _, [] => none
  | i, m :: rest => if m.sig.name = name then some (i, m) else methodFrom name (i + 1) rest

/-- The place and signature of a method. -/
def method? (s : StructShape) (name : String) : Option (Nat × MethodSig) :=
  methodFrom name 0 s.methods

end StructShape

/-- A variant and the type of what it carries. -/
structure VariantShape where
  name : String
  payload : Option Ty

/-- The variants of an enum; a variant's tag is its place. -/
structure EnumShape where
  name : String
  variants : List VariantShape

namespace EnumShape

/-- The tag and shape of a variant in a list that starts at tag `i`. -/
def variantFrom (name : String) : Nat → List VariantShape → Option (Nat × VariantShape)
  | _, [] => none
  | i, v :: rest => if v.name = name then some (i, v) else variantFrom name (i + 1) rest

/-- The tag and shape of a variant. -/
def variant? (e : EnumShape) (name : String) : Option (Nat × VariantShape) :=
  variantFrom name 0 e.variants

end EnumShape

/-- All declared names, in order of declaration. -/
structure SymbolTable where
  functions : List FunctionSig
  structs : List StructShape
  enums : List EnumShape

namespace SymbolTable

/-- The functions that are always there. -/
def initial : SymbolTable :=
  ⟨Builtin.all.map .ofBuiltin, [], []⟩

/-- The function with a name. -/
def function? (t : SymbolTable) (name : String) : Option FunctionSig :=
  t.functions.find? (·.name = name)

/-- The struct with a name. -/
def struct? (t : SymbolTable) (name : String) : Option StructShape :=
  t.structs.find? (·.name = name)

/-- The enum with a name. -/
def enum? (t : SymbolTable) (name : String) : Option EnumShape :=
  t.enums.find? (·.name = name)

/-- The tag and shape of a variant of the enum type `ty`. -/
def variant? (t : SymbolTable) (ty : Ty) (name : String) : Option (Nat × VariantShape) :=
  match ty with
  | .enum e => (t.enum? e).bind (·.variant? name)
  | _ => none

end SymbolTable

end StackScript
