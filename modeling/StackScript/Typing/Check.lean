import StackScript.Ty.Scope
import StackScript.Typed.Captures
import StackScript.Typing.Declarations
import StackScript.Typing.Patterns

/-!
# The type checker

## Design Notes

An expression is checked under an optional wanted type, which decides only what literals, arrays,
results and function literals are.  A statement gives the context for the statements after it, so a
block's names end with the block.  A statement also tells whether it always leaves the statements
after it unreached.

The only state is the number of the next variable.  A variable in sight belongs to the innermost
function exactly if its number is not below the first number of that function.
-/

namespace StackScript

/-- What an expression may refer to. -/
structure Context where
  symbols : SymbolTable
  /-- Whether a match must cover every value. -/
  strictMatch : Bool
  scopes : ScopeChain Variable
  /-- The first variable number of the innermost function. -/
  first : Nat
  /-- The declared result of the innermost function. -/
  ret : Ty
  /-- Whether a loop of the innermost function is around. -/
  inLoop : Bool

namespace Context

/-- The context of a fresh scope. -/
def inner (Γ : Context) : Context :=
  { Γ with scopes := Γ.scopes.push }

/-- The context of a loop's body. -/
def loop (Γ : Context) : Context :=
  { Γ with inLoop := true }

/-- The context of a function with its first variable number and its result. -/
def function (Γ : Context) (first : Nat) (ret : Ty) : Context :=
  { Γ with scopes := Γ.scopes.push, first, ret, inLoop := false }

/-- The context after the declaration of a variable. -/
def bind (Γ : Context) (v : Variable) : Context :=
  { Γ with scopes := Γ.scopes.bind v.name v }

end Context

/-- A checking step; the state is the number of the next variable. -/
abbrev Check := StateT Nat (Except TypeError)

namespace Check

/-- Fails with a fault at a place. -/
def fail {α : Type} (fault : TypeFault) (span : Span) : Check α :=
  throw ⟨fault, span⟩

/-- A new variable. -/
def declare (name : String) (ty : Ty) (isConst : Bool) : Check Variable := do
  let id ← get
  set (id + 1)
  return ⟨id, name, ty, isConst⟩

/-- New variables for parameters, and the context with them. -/
def declareParams (Γ : Context) : List Param → List Ty → Check (List Variable × Context)
  | p :: ps, ty :: tys => do
    let v ← declare p.name ty false
    let (vs, Γ) ← declareParams (Γ.bind v) ps tys
    return (v :: vs, Γ)
  | _, _ => return ([], Γ)

/-- Refuses an expression that does not fit the wanted type. -/
def require (wanted : Ty) (e : Typed.Expr) (span : Span) : Check Typed.Expr :=
  if wanted.accepts e.ty then return e else fail (.types wanted e.ty) span

/-- Refuses a call with the wrong number of arguments. -/
def requireCount (name : String) (params : List Ty) (args : List Expr) (span : Span) : Check Unit :=
  if params.length = args.length then return ()
  else fail (.argumentCount name params.length args.length) span

/-! ### Literals and operators -/

/-- The type of an integer literal. -/
def literalTy : Option Ty → Ty
  | some .float => .float
  | some (.int kind) => .int kind
  | _ => .i32

/-- The type of an integer literal, refused when the value is out of its range. -/
def intLiteral (value : Nat) (expected : Option Ty) (span : Span) : Check Ty :=
  match literalTy expected with
  | .int kind =>
    if kind.contains value then return .int kind
    else fail (.literalOutOfRange value (.int kind)) span
  | ty => return ty

/-- The type of a negated integer literal. -/
def negatedLiteral (value : Nat) (expected : Option Ty) (span : Span) : Check Ty :=
  match literalTy expected with
  | .int kind =>
    if !kind.signed then fail (.invalid (.negate (.int kind))) span
    else if kind.contains (-value) then return .int kind
    else fail (.literalOutOfRange (-value) (.int kind)) span
  | ty => return ty

/-- The type of a negated expression. -/
def negated (ty : Ty) (span : Span) : Check Ty :=
  match ty with
  | .float => return ty
  | .int kind => if kind.signed then return ty else fail (.invalid (.negate ty)) span
  | _ => fail (.invalid (.negate ty)) span

/-- A number, possibly negated: it takes its type from the other operand. -/
def isNumericLiteral : Expr → Bool
  | ⟨_, .int _, _⟩ => true
  | ⟨_, .float _, _⟩ => true
  | ⟨_, .unary .neg e, _⟩ => isNumericLiteral e
  | _ => false

/-- The result of an arithmetic operator on two operands of one type. -/
def arithmetic (op : BinaryOp) (ty : Ty) (span : Span) : Check Ty :=
  let fits : Bool :=
    match op with
    | .add => ty.isNumeric || ty = .str
    | .sub | .mul | .div => ty.isNumeric
    | .rem => ty.isInteger
    | _ => false
  if fits then return ty else fail (.invalid (.arithmetic op ty)) span

/-- Whether values of a type can be compared and shown in a string. -/
def isPlain (ty : Ty) : Bool :=
  ty.isNumeric || ty = .bool || ty = .str

/-- The result of an operator that is not logical on two operands of one type. -/
def binaryResult (op : BinaryOp) (ty : Ty) (span : Span) : Check Ty :=
  match op with
  | .eq | .ne => if isPlain ty then return .bool else fail (.invalid (.compare op ty)) span
  | .lt | .le | .gt | .ge =>
    if ty.isNumeric then return .bool else fail (.invalid (.order ty)) span
  | _ => arithmetic op ty span

/-- The wanted type that an operator passes to its operands. -/
def operandHint (op : BinaryOp) (expected : Option Ty) : Option Ty :=
  if op.isComparison then none else expected.filter fun ty => ty.isNumeric || ty = .str

/-! ### Names -/

/-- A name: a variable in sight, or a function as a value. -/
def name (Γ : Context) (id : Nat) (n : String) (span : Span) : Check Typed.Expr :=
  match Γ.scopes.find? n with
  | some v => return ⟨id, v.ty, if Γ.first ≤ v.id then .local_ v else .captured v⟩
  | none =>
    match Γ.symbols.function? n with
    | some sig =>
      match sig.kind with
      | .builtin _ => fail (.invalid (.builtinValue n)) span
      | _ => return ⟨id, sig.ty, .function n⟩
    | none => fail (.undefined .variable_ n) span

/-- A path: a variant that carries nothing. -/
def path (Γ : Context) (id : Nat) (qualifier n : String) (span : Span) : Check Typed.Expr :=
  match Γ.symbols.enum? qualifier with
  | some shape =>
    match shape.variant? n with
    | some (tag, v) =>
      if v.payload.isSome then fail (.invalid (.needsPayload qualifier n)) span
      else return ⟨id, .enum qualifier, .unit qualifier tag⟩
    | none => fail (.undefined .variant (qualifier ++ "::" ++ n)) span
  | none =>
    if (Γ.symbols.struct? qualifier).isSome then fail (.invalid (.mustBeCalled qualifier n)) span
    else fail (.undefined .type qualifier) span

/-- Refuses a target that names no place to write to. -/
def requireAssignable (target : Typed.Expr) (span : Span) : Check Unit :=
  match target.form with
  | .local_ v => if v.isConst then fail (.notAssignable v.name .constant) span else return ()
  | .captured v => fail (.notAssignable v.name .captured) span
  | .function n => fail (.notAssignable n .notVariable) span
  | .field _ _ | .index _ _ => return ()
  | _ => fail (.notAssignable "<expression>" .notPlace) span

/-- What the callee of a call is. -/
inductive Callee where
  /-- A name that is no variable. -/
  | direct (name : String)
  | path (qualifier name : String)
  | value

/-- Sorts the callee of a call. -/
def callee (Γ : Context) (e : Expr) : Callee :=
  match e.form with
  | .ident n => if (Γ.scopes.find? n).isNone then .direct n else .value
  | .path q n => .path q n
  | _ => .value

/-- How a function is called directly. -/
def directTarget (sig : FunctionSig) : CallTarget :=
  match sig.kind with
  | .user => .function sig.name
  | .external => .external sig.name
  | .builtin b => .builtin b

/-- What a path in front of arguments calls. -/
inductive PathCallee where
  | variant (tag : Nat) (payload : Option Ty)
  | method (slot : Nat) (sig : FunctionSig)

/-- The meaning of a path in front of arguments. -/
def pathCallee (Γ : Context) (qualifier n : String) (span : Span) : Check PathCallee :=
  match Γ.symbols.enum? qualifier with
  | some shape =>
    match shape.variant? n with
    | some (tag, v) => return .variant tag v.payload
    | none => fail (.undefined .variant (qualifier ++ "::" ++ n)) span
  | none =>
    match Γ.symbols.struct? qualifier with
    | some shape =>
      match shape.method? n with
      | some (slot, m) =>
        if m.hasSelf then fail (.invalid (.takesSelf qualifier n)) span
        else return .method slot m.sig
      | none => fail (.undefined .method (qualifier ++ "::" ++ n)) span
    | none => fail (.undefined .type qualifier) span

/-- The methods of a value. -/
inductive Method where
  | user (struct : String) (slot : Nat) (sig : FunctionSig)
  | push (elem : Ty)
  | pop (elem : Ty)
  | arrayLength
  | byteLength

/-- The method of a value of the given type. -/
def method (Γ : Context) (receiver : Ty) (n : String) (span : Span) : Check Method :=
  let undefined : Check Method := fail (.undefined .method (receiver.text ++ "." ++ n)) span
  match receiver with
  | .struct s =>
    match (Γ.symbols.struct? s).bind (·.method? n) with
    | some (slot, m) =>
      if m.hasSelf then return .user s slot m.sig
      else fail (.invalid (.staticMethod s n)) span
    | none => undefined
  | .array elem =>
    match n with
    | "push" => return .push elem
    | "pop" => return .pop elem
    | "len" => return .arrayLength
    | _ => undefined
  | .str | .bytes => if n = "len" then return .byteLength else undefined
  | _ => undefined

/-- The field of a value. -/
def field (Γ : Context) (object : Ty) (n : String) (span : Span) : Check (Nat × Ty) :=
  match object with
  | .struct s =>
    match (Γ.symbols.struct? s).bind (·.field? n) with
    | some f => return f
    | none => fail (.undefined .field (s ++ "." ++ n)) span
  | _ => fail (.invalid (.noField object n)) span

/-- The type of the elements of an indexed value. -/
def element (object : Ty) (span : Span) : Check Ty :=
  match object with
  | .array elem => return elem
  | .bytes => return .int .u8
  | _ => fail (.invalid (.index object)) span

/-- The success type of the operand of `?`, in a function with the result `ret`. -/
def tryResult (operand ret : Ty) (span : Span) : Check Ty :=
  match operand with
  | .result ok err =>
    match ret with
    | .result _ outer =>
      if outer = err then return ok else fail (.invalidTry (.failureType err outer)) span
    | _ => fail (.invalidTry (.result ret)) span
  | _ => fail (.invalidTry (.operand operand)) span

/-! ### Function literals -/

/-- The head of a function literal: its parameters and the context of its body. -/
structure LambdaHead where
  params : List Variable
  paramTys : List Ty
  declared : Option Ty
  /-- The declared result, or else the one wanted by the context. -/
  hint : Option Ty
  context : Context

/-- Checks the head of a function literal. -/
def lambdaHead (Γ : Context) (params : List Param) (ret : Option TypeExpr)
    (expected : Option Ty) : Check LambdaHead := do
  let paramTys ← Γ.symbols.resolveAll (params.map (·.ty))
  let declared ← Γ.symbols.resolve? ret
  let wanted :=
    match expected with
    | some (.fn _ r) => some r
    | _ => none
  let hint := declared <|> wanted
  let first ← get
  let (vs, context) ← declareParams (Γ.function first (hint.getD .void)) params paramTys
  return ⟨vs, paramTys, declared, hint, context⟩

/-- A function literal from its head, its body and its result. -/
def lambdaOf (id : Nat) (head : LambdaHead) (body : Typed.Body) (ret : Ty) : Typed.Expr :=
  ⟨id, .fn head.paramTys ret,
    .lambda head.params (body.captures head.context.first) body⟩

/-- The result of a function literal whose body is an expression. -/
def lambdaResult (declared : Option Ty) (ty : Ty) (span : Span) : Check Ty :=
  match declared with
  | some d => if d.accepts ty then return d else fail (.types d ty) span
  | none => return if ty = .never then .void else ty

/-- Refuses a body that may end without the result it owes. -/
def requireReturn (name : String) (ret : Ty) (returns : Bool) (span : Span) : Check Unit :=
  if ret = .void || returns then return () else fail (.missingReturn name ret) span

/-! ### Trees -/

/-- The type of the arms so far, with one more arm. -/
def joinArm (result : Option Ty) (ty : Ty) (span : Span) : Check (Option Ty) :=
  match result with
  | none => return if ty = .never then none else some ty
  | some prev => if prev.accepts ty then return result else fail (.types prev ty) span

mutual

/-- An expression under an optional wanted type. -/
def expr (Γ : Context) (expected : Option Ty) : Expr → Check Typed.Expr
  | ⟨id, .int value, span⟩ => do
    let ty ← intLiteral value expected span
    return ⟨id, ty, .int value⟩
  | ⟨id, .float value, _⟩ => return ⟨id, .float, .float value⟩
  | ⟨id, .bool value, _⟩ => return ⟨id, .bool, .bool value⟩
  | ⟨id, .str value, _⟩ => return ⟨id, .str, .str value⟩
  | ⟨id, .bytes value, _⟩ => return ⟨id, .bytes, .bytes value⟩
  | ⟨id, .interp ps, _⟩ => do
    let ps ← parts Γ ps
    return ⟨id, .str, .interp ps⟩
  | ⟨id, .ident n, span⟩ => name Γ id n span
  | ⟨id, .path q n, span⟩ => path Γ id q n span
  | ⟨id, .binary op lhs rhs, _⟩ => do
    if op.isLogical then
      let l ← expr Γ (some .bool) lhs
      let l ← require .bool l lhs.span
      let r ← expr Γ (some .bool) rhs
      let r ← require .bool r rhs.span
      return ⟨id, .bool, .binary op l r⟩
    else
      let hint := operandHint op expected
      if isNumericLiteral lhs && !isNumericLiteral rhs then
        let r ← expr Γ hint rhs
        let l ← expr Γ (some r.ty) lhs
        if l.ty ≠ r.ty then fail (.types r.ty l.ty) lhs.span
        else
          let ty ← binaryResult op l.ty (lhs.span.merge rhs.span)
          return ⟨id, ty, .binary op l r⟩
      else
        let l ← expr Γ hint lhs
        let r ← expr Γ (some l.ty) rhs
        if l.ty ≠ r.ty then fail (.types l.ty r.ty) rhs.span
        else
          let ty ← binaryResult op l.ty (lhs.span.merge rhs.span)
          return ⟨id, ty, .binary op l r⟩
  | ⟨id, .unary .not e, _⟩ => do
    let t ← expr Γ (some .bool) e
    let t ← require .bool t e.span
    return ⟨id, .bool, .unary .not t⟩
  | ⟨id, .unary .neg ⟨litId, .int value, _⟩, span⟩ => do
    let ty ← negatedLiteral value expected span
    return ⟨id, ty, .unary .neg ⟨litId, ty, .int value⟩⟩
  | ⟨id, .unary .neg e, span⟩ => do
    let t ← expr Γ expected e
    let ty ← negated t.ty span
    return ⟨id, ty, .unary .neg t⟩
  | ⟨id, .cast e ty, span⟩ => do
    let target ← Γ.symbols.resolve ty
    let t ← expr Γ none e
    if t.ty.isNumeric && target.isNumeric then return ⟨id, target, .cast t⟩
    else fail (.invalid (.cast t.ty target)) span
  | ⟨id, .call f as, span⟩ => do
    match callee Γ f with
    | .direct n =>
      match Γ.symbols.function? n with
      | some sig =>
        requireCount n sig.params as span
        let as ← args Γ sig.params as
        return ⟨id, sig.effectiveRet, .call (directTarget sig) as⟩
      | none => fail (.undefined .function n) f.span
    | .path q n =>
      match ← pathCallee Γ q n f.span with
      | .variant tag payload =>
        let params := payload.toList
        requireCount (q ++ "::" ++ n) params as span
        let as ← args Γ params as
        return ⟨id, .enum q, .variant q tag as.head?⟩
      | .method slot sig =>
        requireCount n sig.params as span
        let as ← args Γ sig.params as
        return ⟨id, sig.effectiveRet, .call (.static q slot) as⟩
    | .value =>
      let t ← expr Γ none f
      match t.ty with
      | .fn params ret =>
        requireCount "function value" params as span
        let as ← args Γ params as
        return ⟨id, ret, .indirect t as⟩
      | ty => fail (.invalid (.call ty)) f.span
  | ⟨id, .methodCall receiver n as, span⟩ => do
    let r ← expr Γ none receiver
    match ← method Γ r.ty n span with
    | .user s slot sig =>
      requireCount n sig.params.tail as span
      let as ← args Γ sig.params.tail as
      return ⟨id, sig.effectiveRet, .method s slot r as⟩
    | .push elem =>
      requireCount n [elem] as span
      match ← args Γ [elem] as with
      | value :: _ =>
        requireAssignable r receiver.span
        return ⟨id, .void, .push r value⟩
      | [] => fail (.argumentCount n 1 0) span
    | .pop elem =>
      requireCount n [] as span
      requireAssignable r receiver.span
      return ⟨id, elem, .pop r⟩
    | .arrayLength =>
      requireCount n [] as span
      return ⟨id, .i32, .arrayLength r⟩
    | .byteLength =>
      requireCount n [] as span
      return ⟨id, .i32, .byteLength r⟩
  | ⟨id, .field object n, span⟩ => do
    let o ← expr Γ none object
    let (place, ty) ← field Γ o.ty n span
    return ⟨id, ty, .field o place⟩
  | ⟨id, .index object position, span⟩ => do
    let o ← expr Γ none object
    let p ← expr Γ (some .i32) position
    if p.ty.isInteger then
      let ty ← element o.ty span
      return ⟨id, ty, .index o p⟩
    else fail (.mismatch .integerIndex (.ty p.ty)) position.span
  | ⟨id, .await e, _⟩ => do
    let t ← expr Γ none e
    match t.ty with
    | .promise inner => return ⟨id, inner, .await t⟩
    | ty => fail (.awaitNonPromise ty) e.span
  | ⟨id, .try_ e, _⟩ => do
    let t ← expr Γ none e
    let ty ← tryResult t.ty Γ.ret e.span
    return ⟨id, ty, .try_ t⟩
  | ⟨id, .outcome isOk e, span⟩ => do
    match expected with
    | some (.result ok err) =>
      let wanted := if isOk then ok else err
      let t ← expr Γ (some wanted) e
      let t ← require wanted t e.span
      return ⟨id, .result ok err, .outcome isOk t⟩
    | _ => fail (.annotationNeeded (if isOk then .ok else .err)) span
  | ⟨id, .array es, span⟩ => do
    match expected with
    | some (.array elem) =>
      let ts ← elements Γ elem es
      return ⟨id, .array elem, .array ts⟩
    | _ =>
      match es with
      | [] => fail (.annotationNeeded .emptyArray) span
      | first :: rest =>
        let t ← expr Γ none first
        if t.ty.isEmpty then fail (.invalid (.elementType t.ty)) first.span
        else
          let ts ← elements Γ t.ty rest
          return ⟨id, .array t.ty, .array (t :: ts)⟩
  | ⟨id, .structLit n fs, span⟩ => do
    match Γ.symbols.struct? n with
    | some shape =>
      let inits ← fields Γ shape [] fs
      match shape.fields.find? fun f => !fs.any (·.name = f.1) with
      | some (missing, _) => fail (.invalid (.missingField n missing)) span
      | none => return ⟨id, .struct n, .structLit shape.fields.length inits⟩
    | none => fail (.undefined .struct n) span
  | ⟨id, .match_ scrutinee as, span⟩ => do
    let s ← expr Γ none scrutinee
    let (as, result) ← arms Γ s.ty expected none as
    if Γ.strictMatch then
      Γ.symbols.requireExhaustive (as.map (·.pattern)) s.ty span
    return ⟨id, result.getD .never, .match_ s as⟩
  | ⟨id, .lambda params ret (.expr e), _⟩ => do
    let head ← lambdaHead Γ params ret expected
    let t ← expr head.context head.hint e
    let ty ← lambdaResult head.declared t.ty e.span
    return lambdaOf id head (.expr t) ty
  | ⟨id, .lambda params ret (.block ⟨ss, _⟩), span⟩ => do
    let head ← lambdaHead Γ params ret expected
    let ty := head.hint.getD .void
    let (ss, returns) ← stmts head.context.inner ss
    requireReturn "<fn>" ty returns span
    return lambdaOf id head (.block ss) ty
  | ⟨id, .block ⟨ss, _⟩, _⟩ => do
    let (ss, returns) ← stmts Γ.inner ss
    return ⟨id, if returns then .never else .void, .block ss⟩

/-- Arguments for parameters. -/
def args (Γ : Context) : List Ty → List Expr → Check (List Typed.Expr)
  | ty :: tys, e :: es => do
    let t ← expr Γ (some ty) e
    let t ← require ty t e.span
    let ts ← args Γ tys es
    return t :: ts
  | _, _ => return []

/-- Elements of one type. -/
def elements (Γ : Context) (elem : Ty) : List Expr → Check (List Typed.Expr)
  | [] => return []
  | e :: es => do
    let t ← expr Γ (some elem) e
    let t ← require elem t e.span
    let ts ← elements Γ elem es
    return t :: ts

/-- The pieces of an interpolated string. -/
def parts (Γ : Context) : List InterpPart → Check (List Typed.Part)
  | [] => return []
  | .text s :: ps => do
    let ts ← parts Γ ps
    return .text s :: ts
  | .expr e :: ps => do
    let t ← expr Γ none e
    if isPlain t.ty then
      let ts ← parts Γ ps
      return .expr t :: ts
    else fail (.invalid (.interpolate t.ty)) e.span

/-- The fields of a struct literal, after fields with the names `seen`. -/
def fields (Γ : Context) (shape : StructShape) : List String → List FieldInit → Check (List Typed.Init)
  | _, [] => return []
  | seen, ⟨n, e, span⟩ :: fs => do
    match shape.field? n with
    | some (place, ty) =>
      if seen.contains n then fail (.duplicate n) span
      else
        let t ← expr Γ (some ty) e
        let t ← require ty t e.span
        let ts ← fields Γ shape (n :: seen) fs
        return ⟨place, ty, t⟩ :: ts
    | none => fail (.undefined .field (shape.name ++ "." ++ n)) span

/-- The arms of a match, after arms of type `result`. -/
def arms (Γ : Context) (scrutinee : Ty) (expected : Option Ty) :
    Option Ty → List MatchArm → Check (List Typed.Arm × Option Ty)
  | result, [] => return ([], result)
  | result, ⟨p, body, _⟩ :: rest => do
    let id ← get
    let pattern ← Γ.symbols.pattern id p scrutinee
    let inner ← match pattern.binder? with
      | some v => do
        set (id + 1)
        pure (Γ.inner.bind v)
      | none => pure Γ.inner
    let t ← expr inner (result <|> expected) body
    let result ← joinArm result t.ty body.span
    let (ts, result) ← arms Γ scrutinee expected result rest
    return (⟨pattern, t⟩ :: ts, result)

/-- Statements in order, and whether one of them always leaves the block. -/
def stmts (Γ : Context) : List Stmt → Check (List Typed.Stmt × Bool)
  | [] => return ([], false)
  | s :: ss => do
    let (t, returns, Γ) ← stmt Γ s
    let (ts, returns') ← stmts Γ ss
    return (t :: ts, returns || returns')

/-- A statement, whether it always leaves the block, and the context after it. -/
def stmt (Γ : Context) : Stmt → Check (Typed.Stmt × Bool × Context)
  | ⟨.let_ id n isConst annotation init, _⟩ => do
    let annotated ← Γ.symbols.resolve? annotation
    let t ← expr Γ annotated init
    let t ← match annotated with
      | some ty => require ty t init.span
      | none => pure t
    let ty := annotated.getD t.ty
    if ty.isEmpty then fail (.invalid (.bindTo n ty)) init.span
    else
      let v ← declare n ty isConst
      return (.let_ id v t, false, Γ.bind v)
  | ⟨.assign target op value, _⟩ => do
    let place ← expr Γ none target
    requireAssignable place target.span
    let t ← expr Γ (some place.ty) value
    let t ← require place.ty t value.span
    match op with
    | some o =>
      let _ ← arithmetic o place.ty value.span
      return (.assign place op t, false, Γ)
    | none => return (.assign place op t, false, Γ)
  | ⟨.if_ cond ⟨ss, _⟩ none, _⟩ => do
    let c ← expr Γ (some .bool) cond
    let c ← require .bool c cond.span
    let (ts, _) ← stmts Γ.inner ss
    return (.if_ c ts none, false, Γ)
  | ⟨.if_ cond ⟨ss, _⟩ (some ⟨es, _⟩), _⟩ => do
    let c ← expr Γ (some .bool) cond
    let c ← require .bool c cond.span
    let (ts, returns) ← stmts Γ.inner ss
    let (es, returns') ← stmts Γ.inner es
    return (.if_ c ts (some es), returns && returns', Γ)
  | ⟨.while_ cond ⟨ss, _⟩, _⟩ => do
    let c ← expr Γ (some .bool) cond
    let c ← require .bool c cond.span
    let (ts, _) ← stmts Γ.loop.inner ss
    return (.while_ c ts, false, Γ)
  | ⟨.for_ id n iterable ⟨ss, _⟩, _⟩ => do
    let t ← expr Γ none iterable
    match t.ty with
    | .array elem =>
      let v ← declare n elem false
      let (ts, _) ← stmts (Γ.loop.inner.bind v).inner ss
      return (.for_ id v t ts, false, Γ)
    | ty => fail (.mismatch .array (.ty ty)) iterable.span
  | ⟨.break_, span⟩ =>
    if Γ.inLoop then return (.break_, true, Γ) else fail (.outsideLoop true) span
  | ⟨.continue_, span⟩ =>
    if Γ.inLoop then return (.continue_, true, Γ) else fail (.outsideLoop false) span
  | ⟨.return_ none, span⟩ =>
    if Γ.ret = .void then return (.return_ none, true, Γ) else fail (.types Γ.ret .void) span
  | ⟨.return_ (some e), _⟩ => do
    if Γ.ret = .void then
      let t ← expr Γ none e
      fail (.types .void t.ty) e.span
    else
      let t ← expr Γ (some Γ.ret) e
      let t ← require Γ.ret t e.span
      return (.return_ (some t), true, Γ)
  | ⟨.expr e, _⟩ => do
    let t ← expr Γ none e
    return (.expr t, t.ty = .never, Γ)
  | ⟨.block ⟨ss, _⟩, _⟩ => do
    let (ts, returns) ← stmts Γ.inner ss
    return (.block ts, returns, Γ)

end

/-! ### Programs -/

/-- The context outside of every function. -/
def outer (symbols : SymbolTable) (strictMatch : Bool) : Context :=
  { symbols, strictMatch, scopes := .empty, first := 0, ret := .void, inLoop := false }

/-- A function or method; without a body there is nothing to check. -/
def routine (Γ : Context) (owner : Option (String × Nat)) (d : FunctionDecl) (sig : FunctionSig) :
    Check (Option Typed.Routine) :=
  match d.body with
  | none => return none
  | some body => do
    let first ← get
    let (params, Γ) ← declareParams (Γ.function first sig.ret) d.params sig.params
    let (ss, returns) ← stmts Γ.inner body.stmts
    requireReturn d.name sig.ret returns d.span
    return some ⟨owner, sig, params, ss⟩

/-- The methods of a struct, the first one in slot `slot`. -/
def methods (Γ : Context) (struct : String) : Nat → List FunctionDecl → List MethodSig → Check (List Typed.Routine)
  | slot, d :: ds, m :: ms => do
    let r ← routine Γ (some (struct, slot)) d m.sig
    let rs ← methods Γ struct (slot + 1) ds ms
    return r.toList ++ rs
  | _, _, _ => return []

/-- The functions and methods of the items. -/
def routines (Γ : Context) : List Item → Check (List Typed.Routine)
  | [] => return []
  | .function d :: items => do
    let r ← match d.isExternal, Γ.symbols.function? d.name with
      | false, some sig => routine Γ none d sig
      | _, _ => pure none
    let rs ← routines Γ items
    return r.toList ++ rs
  | .struct d :: items => do
    let ms ← methods Γ d.name 0 d.methods (((Γ.symbols.struct? d.name).map (·.methods)).getD [])
    let rs ← routines Γ items
    return ms ++ rs
  | _ :: items => routines Γ items

end Check

/-- The statements among the items. -/
def Program.script (p : Program) : List Stmt :=
  p.items.filterMap fun
    | .stmt s => some s
    | _ => none

/-- Checks a program: declarations first, then the bodies of functions and methods, then the
statements at the top level, which share one scope. -/
def check (p : Program) (strictMatch : Bool) : Except TypeError Typed.Program := do
  let symbols ← SymbolTable.ofItems p.items
  let Γ := Check.outer symbols strictMatch
  let whole : Check Typed.Program := do
    let routines ← Check.routines Γ p.items
    let first ← get
    let (script, _) ← Check.stmts (Γ.function first .void) p.script
    return ⟨symbols, routines, script⟩
  let (typed, _) ← whole.run 0
  return typed

end StackScript
