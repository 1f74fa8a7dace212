import StackScript.Ty.Fault
import StackScript.Ty.Symbols

/-!
# Collecting declarations

## Design Notes

Type names are collected first, so that declarations may name each other in any order.
-/

namespace StackScript

namespace SymbolTable

mutual

/-- The type that a written type stands for. -/
def resolve (t : SymbolTable) : TypeExpr → Except TypeError Ty
  | ⟨.named name, span⟩ =>
    match Ty.primitive? name with
    | some ty => .ok ty
    | none =>
      if (t.struct? name).isSome then .ok (.struct name)
      else if (t.enum? name).isSome then .ok (.enum name)
      else .error ⟨.undefined .type name, span⟩
  | ⟨.array elem, _⟩ => do
    let elem ← resolve t elem
    return .array elem
  | ⟨.result ok err, _⟩ => do
    let ok ← resolve t ok
    let err ← resolve t err
    return .result ok err
  | ⟨.promise inner, _⟩ => do
    let inner ← resolve t inner
    return .promise inner
  | ⟨.fn params ret, _⟩ => do
    let params ← resolveAll t params
    let ret ← resolve t ret
    return .fn params ret

/-- The types that written types stand for. -/
def resolveAll (t : SymbolTable) : List TypeExpr → Except TypeError (List Ty)
  | [] => .ok []
  | e :: es => do
    let ty ← resolve t e
    let tys ← resolveAll t es
    return ty :: tys

end

/-- The type of an optional annotation. -/
def resolve? (t : SymbolTable) : Option TypeExpr → Except TypeError (Option Ty)
  | none => .ok none
  | some e => do
    let ty ← t.resolve e
    return some ty

/-- Whether a name is taken by a type. -/
def isTypeName (t : SymbolTable) (name : String) : Bool :=
  (t.struct? name).isSome || (t.enum? name).isSome || (Ty.primitive? name).isSome

/-- Adds the name of a declared type. -/
def addTypeName (t : SymbolTable) : Item → Except TypeError SymbolTable
  | .struct d =>
    if t.isTypeName d.name then .error ⟨.duplicate d.name, d.span⟩
    else .ok { t with structs := t.structs ++ [⟨d.name, [], []⟩] }
  | .enum d =>
    if t.isTypeName d.name then .error ⟨.duplicate d.name, d.span⟩
    else .ok { t with enums := t.enums ++ [⟨d.name, []⟩] }
  | _ => .ok t

/-- What a function declaration promises. -/
def signature (t : SymbolTable) (d : FunctionDecl) : Except TypeError FunctionSig := do
  let params ← t.resolveAll (d.params.map (·.ty))
  let ret ← t.resolve? d.ret
  return {
    name := d.name, params, ret := ret.getD .void, isAsync := d.isAsync, isExport := d.isExport
    kind := if d.isExternal then .external else .user }

/-- The fields of a struct after the given ones. -/
def addFields (t : SymbolTable) : List (String × Ty) → List FieldDecl → Except TypeError (List (String × Ty))
  | fields, [] => .ok fields
  | fields, d :: ds => do
    let ty ← t.resolve d.ty
    if fields.any (·.1 = d.name) then .error ⟨.duplicate d.name, d.span⟩
    else addFields t (fields ++ [(d.name, ty)]) ds

/-- The methods of a struct after the given ones. -/
def addMethods (t : SymbolTable) (fields : List (String × Ty)) :
    List MethodSig → List FunctionDecl → Except TypeError (List MethodSig)
  | methods, [] => .ok methods
  | methods, d :: ds =>
    if fields.any (·.1 = d.name) || methods.any (·.sig.name = d.name) then
      .error ⟨.duplicate d.name, d.span⟩
    else do
      let sig ← t.signature d
      addMethods t fields (methods ++ [⟨d.hasSelf, sig⟩]) ds

/-- The variants of an enum after the given ones. -/
def addVariants (t : SymbolTable) : List VariantShape → List VariantDecl → Except TypeError (List VariantShape)
  | variants, [] => .ok variants
  | variants, d :: ds =>
    if variants.any (·.name = d.name) then .error ⟨.duplicate d.name, d.span⟩
    else do
      let payload ← t.resolve? d.payload
      addVariants t (variants ++ [⟨d.name, payload⟩]) ds

/-- Adds the declaration of an item to `table`; `names` knows all type names. -/
def addItem (names table : SymbolTable) : Item → Except TypeError SymbolTable
  | .struct d => do
    let fields ← names.addFields [] d.fields
    let methods ← names.addMethods fields [] d.methods
    return { table with structs := table.structs ++ [⟨d.name, fields, methods⟩] }
  | .enum d => do
    let variants ← names.addVariants [] d.variants
    return { table with enums := table.enums ++ [⟨d.name, variants⟩] }
  | .function d =>
    if (table.function? d.name).isSome then .error ⟨.duplicate d.name, d.span⟩
    else do
      let sig ← names.signature d
      if d.name = "main" ∧ !sig.params.isEmpty then
        throw ⟨.argumentCount "main" 0 sig.params.length, d.span⟩
      else return { table with functions := table.functions ++ [sig] }
  | .stmt _ => .ok table

/-- The declared names of a program. -/
def ofItems (items : List Item) : Except TypeError SymbolTable := do
  let names ← items.foldlM addTypeName initial
  items.foldlM (addItem names) initial

end SymbolTable

end StackScript
