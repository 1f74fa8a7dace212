import StackScript.Token.Basic
import StackScript.Ty.Fault
import StackScript.Typed.Basic

/-!
# Patterns and exhaustive matches
-/

namespace StackScript

namespace Typed.Pattern

/-- Whether every value matches. -/
def isCatchAll : Pattern → Bool
  | wildcard | bind _ => true
  | _ => false

/-- How deep patterns are nested. -/
def depth : Pattern → Nat
  | variant _ (some (_, p)) => p.depth + 1
  | _ => 0

/-- What the pattern says about the variant with a tag: nothing, or a pattern for what it carries
if it has one. -/
def ofTag? (tag : Nat) : Pattern → Option (Option (Ty × Pattern))
  | variant t payload => if t = tag then some payload else none
  | _ => none

end Typed.Pattern

namespace SymbolTable

/-- A literal pattern, refused unless its type fits. -/
def literalPattern (fits : Bool) (given : Given) (ty : Ty) (span : Span) (p : Typed.Pattern) :
    Except TypeError Typed.Pattern :=
  if fits then .ok p else .error ⟨.mismatch (.ty ty) given, span⟩

/-- The tag of a variant of the type `ty` and the type of what it carries. -/
def variantOf (t : SymbolTable) (qualifier : Option String) (name : String) (ty : Ty)
    (span : Span) : Except TypeError (Nat × Option Ty) :=
  let refused : Except TypeError (Nat × Option Ty) :=
    .error ⟨.mismatch (.ty ty) (.variantPattern name), span⟩
  match ty with
  | .result ok err =>
    if qualifier.isNone ∧ name = "Ok" then .ok (0, some ok)
    else if qualifier.isNone ∧ name = "Err" then .ok (1, some err)
    else refused
  | .enum e =>
    match qualifier with
    | some q =>
      if q ≠ e then .error ⟨.mismatch (.ty ty) (.qualifier q), span⟩
      else enumVariant e
    | none => enumVariant e
  | _ => refused
where
  /-- A variant of an enum. -/
  enumVariant (e : String) : Except TypeError (Nat × Option Ty) :=
    match t.variant? (.enum e) name with
    | some (tag, v) => .ok (tag, v.payload)
    | none => .error ⟨.undefined .variant (e ++ "::" ++ name), span⟩

/-- A pattern against the type of the matched value; a variable that it introduces gets the number
`id`. -/
def pattern (t : SymbolTable) (id : Nat) : Pattern → Ty → Except TypeError Typed.Pattern
  | ⟨.wildcard, _⟩, _ => .ok .wildcard
  | ⟨.binding name, _⟩, ty =>
    match t.variant? ty name with
    | some (tag, _) => .ok (.variant tag none)
    | none => .ok (.bind ⟨id, name, ty, false⟩)
  | ⟨.int value, span⟩, ty =>
    match ty with
    | .int kind =>
      if kind.contains value then .ok (.int value ty)
      else .error ⟨.literalOutOfRange value ty, span⟩
    | _ => literalPattern (ty = .float) .intLiteral ty span (.int value ty)
  | ⟨.float value, span⟩, ty => literalPattern (ty = .float) .floatLiteral ty span (.float value)
  | ⟨.bool value, span⟩, ty => literalPattern (ty = .bool) .boolLiteral ty span (.bool value)
  | ⟨.str value, span⟩, ty => literalPattern (ty = .str) .strLiteral ty span (.str value)
  | ⟨.variant qualifier name none, span⟩, ty => do
    let (tag, _) ← t.variantOf qualifier name ty span
    return .variant tag none
  | ⟨.variant qualifier name (some inner), span⟩, ty => do
    let (tag, payload) ← t.variantOf qualifier name ty span
    match payload with
    | some payloadTy =>
      let p ← pattern t id inner payloadTy
      return .variant tag (some (payloadTy, p))
    | none => throw ⟨.invalid (.noPayload name), span⟩

/-- The values of one variant that no pattern matches, as the text after the variant's name.
`unnamed` is that text when no pattern names the variant, and `rest` gives the values of the
payload's type that patterns for it miss. -/
def missingVariant (rest : List Typed.Pattern → Ty → List String) (patterns : List Typed.Pattern)
    (tag : Nat) (payload : Option Ty) (unnamed : String) : List String :=
  let named := patterns.filterMap (·.ofTag? tag)
  if named.any Option.isNone then []
  else if named.isEmpty then [unnamed]
  else
    match payload with
    | some ty => (rest (named.filterMap (·.map (·.2))) ty).map fun p => "(" ++ p ++ ")"
    | none => []

/-- The values of a type that no pattern matches, written as patterns; `fuel` bounds the depth of
the patterns. -/
def missing (t : SymbolTable) : Nat → List Typed.Pattern → Ty → List String
  | 0, _, _ => ["_"]
  | fuel + 1, patterns, ty =>
    if patterns.any (·.isCatchAll) then []
    else
      match ty with
      | .enum e =>
        match t.enum? e with
        | some shape => shape.variants.zipIdx.flatMap fun (v, tag) =>
            (missingVariant (missing t fuel) patterns tag v.payload "").map fun p =>
              e ++ "::" ++ v.name ++ p
        | none => []
      | .result ok err =>
        (missingVariant (missing t fuel) patterns 0 (some ok) "(_)").map ("Ok" ++ ·) ++
          (missingVariant (missing t fuel) patterns 1 (some err) "(_)").map ("Err" ++ ·)
      | .bool =>
        let has (b : Bool) : Bool := patterns.any fun
          | .bool c => b = c
          | _ => false
        ([true, false].filter fun b => !has b).map TokenKind.boolText
      | _ => ["_"]

/-- Refuses a match that misses a value of the type. -/
def requireExhaustive (t : SymbolTable) (patterns : List Typed.Pattern) (ty : Ty) (span : Span) :
    Except TypeError Unit :=
  let depth := (patterns.map (·.depth)).foldl max 0
  let missed :=
    match ty with
    | .enum _ | .result _ _ | .bool => t.missing (depth + 1) patterns ty
    | _ => if patterns.any (·.isCatchAll) then [] else ["values of type " ++ ty.text]
  if missed.isEmpty then .ok () else .error ⟨.nonExhaustive missed, span⟩

end SymbolTable

end StackScript
