import StackScript.Text.Position
import StackScript.Tree.Basic
import StackScript.Ty.Basic

/-!
# Type errors

Why a program is refused by the type checker, as causes; `TypeFault.message` words them.
-/

namespace StackScript

/-- What a mismatch wanted. -/
inductive Wanted where
  | ty (t : Ty)
  | integerIndex
  | array
  deriving DecidableEq

/-- The words for what was wanted. -/
def Wanted.text : Wanted → String
  | ty t => t.text
  | integerIndex => "an integer index"
  | array => "an array"

/-- What a mismatch got. -/
inductive Given where
  | ty (t : Ty)
  | intLiteral
  | floatLiteral
  | boolLiteral
  | strLiteral
  /-- Another enum's name in front of a variant. -/
  | qualifier (name : String)
  /-- A variant where the type has none. -/
  | variantPattern (name : String)
  deriving DecidableEq

/-- The words for what was given. -/
def Given.text : Given → String
  | ty t => t.text
  | intLiteral => "integer literal"
  | floatLiteral => "float literal"
  | boolLiteral => "bool literal"
  | strLiteral => "string literal"
  | qualifier name => name
  | variantPattern name => "variant pattern '" ++ name ++ "'"

/-- What kind of name cannot be found. -/
inductive NameKind where
  | type | variable_ | function | variant | field | method | struct
  deriving DecidableEq, Repr

/-- The word for a kind of name. -/
def NameKind.text : NameKind → String
  | type => "type"
  | variable_ => "variable"
  | function => "function"
  | variant => "variant"
  | field => "field"
  | method => "method"
  | struct => "struct"

/-- Why a place cannot be assigned. -/
inductive Unassignable where
  | constant
  | captured
  | notVariable
  | notPlace
  deriving DecidableEq, Repr

/-- The words for the reason. -/
def Unassignable.text : Unassignable → String
  | constant => "it is a constant"
  | captured => "captured variables are copies and cannot be assigned"
  | notVariable => "it is not a variable"
  | notPlace => "only variables, fields and elements can be written"

/-- An operation on values that do not have it. -/
inductive Misuse where
  | interpolate (t : Ty)
  | needsPayload (enum variant : String)
  | mustBeCalled (struct method : String)
  | cast (source target : Ty)
  | noField (t : Ty) (field : String)
  | index (t : Ty)
  | builtinValue (name : String)
  | compare (op : BinaryOp) (t : Ty)
  | order (t : Ty)
  | arithmetic (op : BinaryOp) (t : Ty)
  | negate (t : Ty)
  | takesSelf (struct method : String)
  | staticMethod (struct method : String)
  | call (t : Ty)
  | elementType (t : Ty)
  | missingField (struct field : String)
  | bindTo (name : String) (t : Ty)
  | noPayload (variant : String)
  deriving DecidableEq

/-- The words for a misuse. -/
def Misuse.text : Misuse → String
  | interpolate t => "cannot interpolate a value of type " ++ t.text
  | needsPayload e v => "variant '" ++ e ++ "::" ++ v ++ "' needs a payload"
  | mustBeCalled s m => "'" ++ s ++ "::" ++ m ++ "' must be called"
  | cast a b => "cannot cast " ++ a.text ++ " to " ++ b.text
  | noField t f => "type " ++ t.text ++ " has no field '" ++ f ++ "'"
  | index t => "cannot index into a value of type " ++ t.text
  | builtinValue n => "builtin '" ++ n ++ "' can only be called directly"
  | compare op t => "cannot compare values of type " ++ t.text ++ " with '" ++ op.text ++ "'"
  | order t => "cannot order values of type " ++ t.text
  | arithmetic op t => "operator '" ++ op.text ++ "' cannot be applied to " ++ t.text
  | negate t => "cannot negate a value of type " ++ t.text
  | takesSelf s m =>
    "'" ++ s ++ "::" ++ m ++ "' takes self; call it on a value as ." ++ m ++ "(..)"
  | staticMethod s m => "'" ++ m ++ "' is a static method; call it as " ++ s ++ "::" ++ m ++ "(..)"
  | call t => "cannot call a value of type " ++ t.text
  | elementType t => "array elements cannot have type " ++ t.text
  | missingField s f => "missing field '" ++ f ++ "' in initializer of '" ++ s ++ "'"
  | bindTo n t => "cannot bind '" ++ n ++ "' to a value of type " ++ t.text
  | noPayload v => "variant '" ++ v ++ "' has no payload"

/-- Where `?` cannot stand. -/
inductive TryMisuse where
  | operand (t : Ty)
  | failureType (inner outer : Ty)
  | result (t : Ty)
  deriving DecidableEq

/-- The words for a misplaced `?`. -/
def TryMisuse.text : TryMisuse → String
  | operand t => "can only be applied to a Result, not " ++ t.text
  | failureType a b => "cannot convert error type " ++ a.text ++ " into " ++ b.text
  | result t => "can only be used in a function returning Result, not " ++ t.text

/-- What has no type of its own. -/
inductive Unannotated where
  | ok
  | err
  | emptyArray
  deriving DecidableEq, Repr

/-- The words for what has no type of its own. -/
def Unannotated.text : Unannotated → String
  | ok => "Ok(..)"
  | err => "Err(..)"
  | emptyArray => "an empty array literal"

/-- Why a program is refused. -/
inductive TypeFault where
  | mismatch (expected : Wanted) (found : Given)
  | undefined (what : NameKind) (name : String)
  | duplicate (name : String)
  | argumentCount (name : String) (expected found : Nat)
  | notAssignable (name : String) (reason : Unassignable)
  | invalid (misuse : Misuse)
  | awaitNonPromise (found : Ty)
  | invalidTry (misuse : TryMisuse)
  /-- A `break` (`isBreak`) or `continue` without a loop around it. -/
  | outsideLoop (isBreak : Bool)
  | missingReturn (name : String) (ty : Ty)
  | nonExhaustive (missing : List String)
  | annotationNeeded (what : Unannotated)
  | literalOutOfRange (value : Int) (ty : Ty)
  deriving DecidableEq

namespace TypeFault

/-- The error text. -/
def message : TypeFault → String
  | mismatch e f => "type mismatch: expected " ++ e.text ++ ", found " ++ f.text
  | undefined what name => "cannot find " ++ what.text ++ " '" ++ name ++ "'"
  | duplicate name => "'" ++ name ++ "' is defined more than once"
  | argumentCount name e f =>
    "'" ++ name ++ "' takes " ++ toString e ++ " argument(s) but " ++ toString f ++
      " were supplied"
  | notAssignable name reason => "cannot assign to '" ++ name ++ "': " ++ reason.text
  | invalid m => m.text
  | awaitNonPromise t => "cannot await a value of type " ++ t.text
  | invalidTry m => "the '?' operator " ++ m.text
  | outsideLoop isBreak =>
    "'" ++ (if isBreak then "break" else "continue") ++ "' outside of a loop"
  | missingReturn name t =>
    "function '" ++ name ++ "' may finish without returning a value of type " ++ t.text
  | nonExhaustive missing => "non-exhaustive match: " ++ ", ".intercalate missing ++ " not covered"
  | annotationNeeded what => "type annotations needed for " ++ what.text
  | literalOutOfRange v t => "literal " ++ toString v ++ " does not fit in " ++ t.text

/-- Advice, where there is some. -/
def help : TypeFault → Option String
  | mismatch e _ => some ("this expression must have type " ++ e.text)
  | awaitNonPromise _ => some "only values of type Promise<T> can be awaited"
  | nonExhaustive _ => some "add the missing arms or a '_' arm"
  | annotationNeeded _ => some "add a type annotation to the binding"
  | literalOutOfRange _ _ => some "annotate a wider integer type or use 'as'"
  | missingReturn _ _ => some "end every path with a 'return' statement"
  | _ => none

/-- A mismatch of two types. -/
def types (expected found : Ty) : TypeFault :=
  mismatch (.ty expected) (.ty found)

end TypeFault

/-- A fault and where it is. -/
structure TypeError where
  fault : TypeFault
  span : Span
  deriving DecidableEq

end StackScript
