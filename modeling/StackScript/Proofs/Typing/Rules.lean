import StackScript.Typing.Check

/-!
# Typing rules

When a checked tree is well typed, said by rules and without the checker.

## Design Notes

Variables are numbered in the order of their declarations, so a judgement about a tree also says which
number is the next one before the tree and after it.  The kinds of trees need each other, so they are
the cases of one type of judgements: a property of all well-typed trees is a predicate on judgements,
and one induction proves it.
-/

namespace StackScript

/-! ## Contexts -/

namespace Context

/-- The context after the declaration of variables. -/
def bindAll (Γ : Context) (vs : List Variable) : Context :=
  vs.foldl bind Γ

/-- The context of an arm with a pattern. -/
def arm (Γ : Context) (p : Typed.Pattern) : Context :=
  Γ.inner.bindAll p.binder?.toList

end Context

/-- Variables with the numbers from `n` on, in order. -/
def Variable.NumberedFrom (n : Nat) (vs : List Variable) : Prop :=
  vs.map (·.id) = List.range' n vs.length

/-! ## Patterns -/

/-- What the variant with a tag carries: `none` without such a variant, `some none` if it carries
nothing. -/
def SymbolTable.payload? (t : SymbolTable) (ty : Ty) (tag : Nat) : Option (Option Ty) :=
  match ty with
  | .result ok err => [some ok, some err][tag]?
  | .enum e => (t.enum? e).bind fun shape => shape.variants[tag]?.map (·.payload)
  | _ => none

/-- A pattern for values of a type, whose variable, if it has one, has the number `id`. -/
inductive Typed.Pattern.Fits (t : SymbolTable) (id : Nat) : Typed.Pattern → Ty → Prop
  | wildcard {ty} : Fits t id .wildcard ty
  | bind {name ty} : Fits t id (.bind ⟨id, name, ty, false⟩) ty
  | int {value kind} (range : kind.contains value = true) :
      Fits t id (.int value (.int kind)) (.int kind)
  | intAsFloat {value} : Fits t id (.int value .float) .float
  | float {value} : Fits t id (.float value) .float
  | bool {value} : Fits t id (.bool value) .bool
  | str {value} : Fits t id (.str value) .str
  | tag {tag ty payload} (found : t.payload? ty tag = some payload) :
      Fits t id (.variant tag none) ty
  | variant {tag ty payload p} (found : t.payload? ty tag = some (some payload))
      (inner : Fits t id p payload) :
      Fits t id (.variant tag (some (payload, p))) ty

/-! ## Operators and places -/

/-- Operators that give a value of the type of their operands. -/
inductive BinaryOp.Computes : BinaryOp → Ty → Prop
  | add {ty} (operands : ty.isNumeric = true ∨ ty = .str) : Computes .add ty
  | arith {op ty} (kind : op = .sub ∨ op = .mul ∨ op = .div) (operands : ty.isNumeric = true) :
      Computes op ty
  | rem {ty} (operands : ty.isInteger = true) : Computes .rem ty

/-- Operators that compare values of a type. -/
inductive BinaryOp.Compares : BinaryOp → Ty → Prop
  | equality {op ty} (kind : op = .eq ∨ op = .ne) (operands : Check.isPlain ty = true) :
      Compares op ty
  | order {op ty} (kind : op = .lt ∨ op = .le ∨ op = .gt ∨ op = .ge)
      (operands : ty.isNumeric = true) : Compares op ty

/-- The result of an operator that is not logical. -/
inductive BinaryOp.Gives : BinaryOp → Ty → Ty → Prop
  | value {op ty} (h : op.Computes ty) : Gives op ty ty
  | truth {op ty} (h : op.Compares ty) : Gives op ty .bool

/-- Types of which a value can be negated. -/
inductive Ty.Negatable : Ty → Prop
  | float : Negatable .float
  | int {kind} (signed : kind.signed = true) : Negatable (.int kind)

/-- The type of the elements of a type with elements. -/
def Ty.element? : Ty → Option Ty
  | .array elem => some elem
  | .bytes => some (.int .u8)
  | _ => none

/-- Forms that can be written to. -/
inductive Typed.Form.Assignable : Typed.Form → Prop
  | local_ {v} (variable_ : v.isConst = false) : Assignable (.local_ v)
  | field {object place} : Assignable (.field object place)
  | index {object position} : Assignable (.index object position)

/-- A type of number literals with a value: its range holds the value. -/
def Ty.HoldsLiteral (ty : Ty) (value : Int) : Prop :=
  ty = .float ∨ ∃ kind : IntKind, ty = .int kind ∧ kind.contains value = true

/-! ## Rules -/

/-- What the rules speak about.  In every case `n` is the number of the next variable before the tree
and `n'` the one after it. -/
inductive Judgement where
  | expr (Γ : Context) (n : Nat) (e : Typed.Expr) (n' : Nat)
  /-- Expressions for places of the given types. -/
  | args (Γ : Context) (n : Nat) (tys : List Ty) (es : List Typed.Expr) (n' : Nat)
  /-- Pieces of a string. -/
  | parts (Γ : Context) (n : Nat) (ps : List Typed.Part) (n' : Nat)
  /-- Fields of a literal of the struct. -/
  | inits (Γ : Context) (n : Nat) (shape : StructShape) (fs : List Typed.Init) (n' : Nat)
  /-- Arms of a match of type `ty` on a value of type `scrutinee`. -/
  | arms (Γ : Context) (n : Nat) (scrutinee ty : Ty) (as : List Typed.Arm) (n' : Nat)
  /-- A statement, whether it always leaves the block, and the context after it. -/
  | stmt (Γ : Context) (n : Nat) (s : Typed.Stmt) (returns : Bool) (Γ' : Context) (n' : Nat)
  /-- Statements in order, and whether one of them always leaves the block. -/
  | stmts (Γ : Context) (n : Nat) (ss : List Typed.Stmt) (returns : Bool) (n' : Nat)

namespace Judgement

/-- The result of a function literal whose body is an expression of type `ty`: a declared result that
accepts it, which the context of the body knows, or else the type itself. -/
inductive LiteralResult (known : Ty) (ty : Ty) : Ty → Prop
  | declared (accepts : known.accepts ty = true) : LiteralResult known ty known
  | inferred : LiteralResult known ty (if ty = .never then .void else ty)

/-- The rules. -/
inductive Derivable : Judgement → Prop
  -- literals
  | int {Γ n id ty} {value : Nat} (range : ty.HoldsLiteral value) :
      Derivable (expr Γ n ⟨id, ty, .int value⟩ n)
  | float {Γ n id value} : Derivable (expr Γ n ⟨id, .float, .float value⟩ n)
  | bool {Γ n id value} : Derivable (expr Γ n ⟨id, .bool, .bool value⟩ n)
  | str {Γ n id value} : Derivable (expr Γ n ⟨id, .str, .str value⟩ n)
  | bytes {Γ n id value} : Derivable (expr Γ n ⟨id, .bytes, .bytes value⟩ n)
  | interp {Γ n id ps n'} (pieces : Derivable (parts Γ n ps n')) :
      Derivable (expr Γ n ⟨id, .str, .interp ps⟩ n')
  -- names
  | local_ {Γ n id v} {name : String} (found : Γ.scopes.find? name = some v)
      (own : Γ.first ≤ v.id) : Derivable (expr Γ n ⟨id, v.ty, .local_ v⟩ n)
  | captured {Γ n id v} {name : String} (found : Γ.scopes.find? name = some v)
      (outer : v.id < Γ.first) : Derivable (expr Γ n ⟨id, v.ty, .captured v⟩ n)
  | function {Γ n id name sig} (found : Γ.symbols.function? name = some sig)
      (kind : ∀ b, sig.kind ≠ .builtin b) : Derivable (expr Γ n ⟨id, sig.ty, .function name⟩ n)
  | unit {Γ n id enum tag} (found : Γ.symbols.payload? (.enum enum) tag = some none) :
      Derivable (expr Γ n ⟨id, .enum enum, .unit enum tag⟩ n)
  -- operators
  | logical {Γ n id op l r n₁ n'} (kind : op.isLogical = true)
      (lhs : Derivable (expr Γ n l n₁)) (lhsTy : Ty.accepts .bool l.ty = true)
      (rhs : Derivable (expr Γ n₁ r n')) (rhsTy : Ty.accepts .bool r.ty = true) :
      Derivable (expr Γ n ⟨id, .bool, .binary op l r⟩ n')
  | binary {Γ n id op l r n₁ n' ty} (lhs : Derivable (expr Γ n l n₁))
      (rhs : Derivable (expr Γ n₁ r n')) (same : l.ty = r.ty) (result : op.Gives l.ty ty) :
      Derivable (expr Γ n ⟨id, ty, .binary op l r⟩ n')
  | not {Γ n id e n'} (operand : Derivable (expr Γ n e n')) (ty : Ty.accepts .bool e.ty = true) :
      Derivable (expr Γ n ⟨id, .bool, .unary .not e⟩ n')
  | negLiteral {Γ n id id' ty} {value : Nat} (range : ty.HoldsLiteral (-value))
      (negatable : ty.Negatable) :
      Derivable (expr Γ n ⟨id, ty, .unary .neg ⟨id', ty, .int value⟩⟩ n)
  | neg {Γ n id e n'} (operand : Derivable (expr Γ n e n')) (negatable : e.ty.Negatable) :
      Derivable (expr Γ n ⟨id, e.ty, .unary .neg e⟩ n')
  | cast {Γ n id ty e n'} (operand : Derivable (expr Γ n e n')) (source : e.ty.isNumeric = true)
      (target : ty.isNumeric = true) : Derivable (expr Γ n ⟨id, ty, .cast e⟩ n')
  -- calls
  | call {Γ n id name sig es n'} (found : Γ.symbols.function? name = some sig)
      (arguments : Derivable (args Γ n sig.params es n')) :
      Derivable (expr Γ n ⟨id, sig.effectiveRet, .call (Check.directTarget sig) es⟩ n')
  | static {Γ n id struct slot shape m es n'} (found : Γ.symbols.struct? struct = some shape)
      (method : shape.methods[slot]? = some m) (noSelf : m.hasSelf = false)
      (arguments : Derivable (args Γ n m.sig.params es n')) :
      Derivable (expr Γ n ⟨id, m.sig.effectiveRet, .call (.static struct slot) es⟩ n')
  | method {Γ n id struct slot shape m r n₁ es n'} (receiver : Derivable (expr Γ n r n₁))
      (receiverTy : r.ty = .struct struct) (found : Γ.symbols.struct? struct = some shape)
      (method : shape.methods[slot]? = some m) (hasSelf : m.hasSelf = true)
      (arguments : Derivable (args Γ n₁ m.sig.params.tail es n')) :
      Derivable (expr Γ n ⟨id, m.sig.effectiveRet, .method struct slot r es⟩ n')
  | indirect {Γ n id f n₁ params ret es n'} (callee : Derivable (expr Γ n f n₁))
      (calleeTy : f.ty = .fn params ret) (arguments : Derivable (args Γ n₁ params es n')) :
      Derivable (expr Γ n ⟨id, ret, .indirect f es⟩ n')
  | variantOnly {Γ n id enum tag} (found : Γ.symbols.payload? (.enum enum) tag = some none) :
      Derivable (expr Γ n ⟨id, .enum enum, .variant enum tag none⟩ n)
  | variantOf {Γ n id enum tag ty e n'}
      (found : Γ.symbols.payload? (.enum enum) tag = some (some ty))
      (payload : Derivable (expr Γ n e n')) (payloadTy : ty.accepts e.ty = true) :
      Derivable (expr Γ n ⟨id, .enum enum, .variant enum tag (some e)⟩ n')
  -- objects
  | push {Γ n id elem r n₁ e n'} (receiver : Derivable (expr Γ n r n₁))
      (receiverTy : r.ty = .array elem) (place : r.form.Assignable)
      (value : Derivable (expr Γ n₁ e n')) (valueTy : elem.accepts e.ty = true) :
      Derivable (expr Γ n ⟨id, .void, .push r e⟩ n')
  | pop {Γ n id elem r n'} (receiver : Derivable (expr Γ n r n')) (receiverTy : r.ty = .array elem)
      (place : r.form.Assignable) : Derivable (expr Γ n ⟨id, elem, .pop r⟩ n')
  | arrayLength {Γ n id elem r n'} (receiver : Derivable (expr Γ n r n'))
      (receiverTy : r.ty = .array elem) : Derivable (expr Γ n ⟨id, .i32, .arrayLength r⟩ n')
  | byteLength {Γ n id r n'} (receiver : Derivable (expr Γ n r n'))
      (receiverTy : r.ty = .str ∨ r.ty = .bytes) :
      Derivable (expr Γ n ⟨id, .i32, .byteLength r⟩ n')
  | field {Γ n id struct shape name ty place o n'} (object : Derivable (expr Γ n o n'))
      (objectTy : o.ty = .struct struct) (found : Γ.symbols.struct? struct = some shape)
      (field : shape.fields[place]? = some (name, ty)) :
      Derivable (expr Γ n ⟨id, ty, .field o place⟩ n')
  | index {Γ n id ty o n₁ p n'} (object : Derivable (expr Γ n o n₁))
      (element : o.ty.element? = some ty) (position : Derivable (expr Γ n₁ p n'))
      (positionTy : p.ty.isInteger = true) : Derivable (expr Γ n ⟨id, ty, .index o p⟩ n')
  | array {Γ n id elem es n'} (elements : Derivable (args Γ n (.replicate es.length elem) es n')) :
      Derivable (expr Γ n ⟨id, .array elem, .array es⟩ n')
  | structLit {Γ n id name shape fs n'} (found : Γ.symbols.struct? name = some shape)
      (fields : Derivable (inits Γ n shape fs n')) :
      Derivable (expr Γ n ⟨id, .struct name, .structLit shape.fields.length fs⟩ n')
  -- results, promises and control
  | await {Γ n id ty e n'} (operand : Derivable (expr Γ n e n')) (operandTy : e.ty = .promise ty) :
      Derivable (expr Γ n ⟨id, ty, .await e⟩ n')
  | try_ {Γ n id ty err ok e n'} (operand : Derivable (expr Γ n e n'))
      (operandTy : e.ty = .result ty err) (ret : Γ.ret = .result ok err) :
      Derivable (expr Γ n ⟨id, ty, .try_ e⟩ n')
  | outcome {Γ n id ok err e n'} {isOk : Bool} (value : Derivable (expr Γ n e n'))
      (valueTy : (if isOk then ok else err).accepts e.ty = true) :
      Derivable (expr Γ n ⟨id, .result ok err, .outcome isOk e⟩ n')
  | match_ {Γ n id ty e n₁ as n'} (scrutinee : Derivable (expr Γ n e n₁))
      (cases : Derivable (arms Γ n₁ e.ty ty as n')) :
      Derivable (expr Γ n ⟨id, ty, .match_ e as⟩ n')
  | lambdaExpr {Γ n id known ret vs e n'} (params : Variable.NumberedFrom n vs)
      (body : Derivable (expr ((Γ.function n known).bindAll vs) (n + vs.length) e n'))
      (result : LiteralResult known e.ty ret) :
      Derivable (expr Γ n ⟨id, .fn (vs.map (·.ty)) ret,
        .lambda vs (Typed.Body.captures n (.expr e)) (.expr e)⟩ n')
  | lambdaBlock {Γ n id ret vs ss returns n'} (params : Variable.NumberedFrom n vs)
      (body : Derivable (stmts ((Γ.function n ret).bindAll vs).inner (n + vs.length) ss returns n'))
      (result : ret = .void ∨ returns = true) :
      Derivable (expr Γ n ⟨id, .fn (vs.map (·.ty)) ret,
        .lambda vs (Typed.Body.captures n (.block ss)) (.block ss)⟩ n')
  | block {Γ n id ss returns n'} (body : Derivable (stmts Γ.inner n ss returns n')) :
      Derivable (expr Γ n ⟨id, if returns then .never else .void, .block ss⟩ n')
  -- lists of trees
  | argsNil {Γ n} : Derivable (args Γ n [] [] n)
  | argsCons {Γ n ty tys e es n₁ n'} (head : Derivable (expr Γ n e n₁))
      (headTy : ty.accepts e.ty = true) (tail : Derivable (args Γ n₁ tys es n')) :
      Derivable (args Γ n (ty :: tys) (e :: es) n')
  | partsNil {Γ n} : Derivable (parts Γ n [] n)
  | partsText {Γ n s ps n'} (tail : Derivable (parts Γ n ps n')) :
      Derivable (parts Γ n (.text s :: ps) n')
  | partsExpr {Γ n e ps n₁ n'} (head : Derivable (expr Γ n e n₁))
      (plain : Check.isPlain e.ty = true) (tail : Derivable (parts Γ n₁ ps n')) :
      Derivable (parts Γ n (.expr e :: ps) n')
  | initsNil {Γ n shape} : Derivable (inits Γ n shape [] n)
  | initsCons {Γ n shape name ty place e fs n₁ n'} (field : shape.fields[place]? = some (name, ty))
      (head : Derivable (expr Γ n e n₁)) (headTy : ty.accepts e.ty = true)
      (tail : Derivable (inits Γ n₁ shape fs n')) :
      Derivable (inits Γ n shape (⟨place, ty, e⟩ :: fs) n')
  | armsNil {Γ n scrutinee ty} : Derivable (arms Γ n scrutinee ty [] n)
  | armsCons {Γ n scrutinee ty p e as n₁ n'} (pattern : p.Fits Γ.symbols n scrutinee)
      (body : Derivable (expr (Γ.arm p) (n + p.binder?.toList.length) e n₁))
      (bodyTy : ty.accepts e.ty = true) (tail : Derivable (arms Γ n₁ scrutinee ty as n')) :
      Derivable (arms Γ n scrutinee ty (⟨p, e⟩ :: as) n')
  -- statements
  | let_ {Γ n id name ty isConst e n'} (init : Derivable (expr Γ n e n'))
      (initTy : ty.accepts e.ty = true) (value : ty.isEmpty = false) :
      Derivable (stmt Γ n (.let_ id ⟨n', name, ty, isConst⟩ e) false
        (Γ.bind ⟨n', name, ty, isConst⟩) (n' + 1))
  | assign {Γ n op t n₁ e n'} (target : Derivable (expr Γ n t n₁)) (place : t.form.Assignable)
      (value : Derivable (expr Γ n₁ e n')) (valueTy : t.ty.accepts e.ty = true)
      (combine : ∀ o, op = some o → o.Computes t.ty) :
      Derivable (stmt Γ n (.assign t op e) false Γ n')
  | ifThen {Γ n c n₁ ss returns n'} (cond : Derivable (expr Γ n c n₁))
      (condTy : Ty.accepts .bool c.ty = true)
      (thenBlock : Derivable (stmts Γ.inner n₁ ss returns n')) :
      Derivable (stmt Γ n (.if_ c ss none) false Γ n')
  | ifElse {Γ n c n₁ ss r₁ n₂ es r₂ n'} (cond : Derivable (expr Γ n c n₁))
      (condTy : Ty.accepts .bool c.ty = true) (thenBlock : Derivable (stmts Γ.inner n₁ ss r₁ n₂))
      (elseBlock : Derivable (stmts Γ.inner n₂ es r₂ n')) :
      Derivable (stmt Γ n (.if_ c ss (some es)) (r₁ && r₂) Γ n')
  | while_ {Γ n c n₁ ss returns n'} (cond : Derivable (expr Γ n c n₁))
      (condTy : Ty.accepts .bool c.ty = true)
      (body : Derivable (stmts Γ.loop.inner n₁ ss returns n')) :
      Derivable (stmt Γ n (.while_ c ss) false Γ n')
  | for_ {Γ n id name elem e n₁ ss returns n'} (iterable : Derivable (expr Γ n e n₁))
      (iterableTy : e.ty = .array elem)
      (body : Derivable (stmts (Γ.loop.inner.bind ⟨n₁, name, elem, false⟩).inner (n₁ + 1) ss
        returns n')) :
      Derivable (stmt Γ n (.for_ id ⟨n₁, name, elem, false⟩ e ss) false Γ n')
  | break_ {Γ n} (inLoop : Γ.inLoop = true) : Derivable (stmt Γ n .break_ true Γ n)
  | continue_ {Γ n} (inLoop : Γ.inLoop = true) : Derivable (stmt Γ n .continue_ true Γ n)
  | returnNone {Γ n} (ret : Γ.ret = .void) : Derivable (stmt Γ n (.return_ none) true Γ n)
  | returnSome {Γ n e n'} (value : Derivable (expr Γ n e n')) (ret : Γ.ret ≠ .void)
      (valueTy : Γ.ret.accepts e.ty = true) : Derivable (stmt Γ n (.return_ (some e)) true Γ n')
  | exprStmt {Γ n e n'} (value : Derivable (expr Γ n e n')) :
      Derivable (stmt Γ n (.expr e) (e.ty = .never) Γ n')
  | blockStmt {Γ n ss returns n'} (body : Derivable (stmts Γ.inner n ss returns n')) :
      Derivable (stmt Γ n (.block ss) returns Γ n')
  | stmtsNil {Γ n} : Derivable (stmts Γ n [] false n)
  | stmtsCons {Γ n s r₁ Γ₁ n₁ ss r₂ n'} (head : Derivable (stmt Γ n s r₁ Γ₁ n₁))
      (tail : Derivable (stmts Γ₁ n₁ ss r₂ n')) :
      Derivable (stmts Γ n (s :: ss) (r₁ || r₂) n')

end Judgement

end StackScript
