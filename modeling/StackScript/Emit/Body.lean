import StackScript.Emit.Objects

/-!
# Emitting expressions and statements

## Design Notes

A match is a block with a block for every arm: a test that fails leaves the arm's block, and an arm
that succeeds leaves the match.  A loop is two blocks, one to leave it and one for its next round;
a block that is neither may stand between, so `break` and `continue` search the labels around.
-/

namespace StackScript

open Layout (Word)

namespace Emit

/-! ### Operators -/

/-- Combines the two operands on the stack. -/
def binaryOps (s : Site) (op : BinaryOp) (ty : Ty) : Emit (List Op) := do
  match ty, op with
  | .str, .add => return [.callFn s.plan.strConcat]
  | .str, .eq => return [.callFn s.plan.strEq]
  | .str, .ne => return [.callFn s.plan.strEq, .isZero]
  | .str, op => throw (if op.isComparison then .strOperator op else .operator op .str)
  | ty, op =>
    let num ← orDefect (.operator op ty) (numericOp? op ty)
    match ty with
    | .int kind => return .num num :: if op.isComparison then [] else normalize kind
    | _ => return [.num num]

/-- Negates a value. -/
def negate (ty : Ty) (operand : List Code) : Emit (List Code) :=
  match ty with
  | .float => return operand ++ [.op (.num .floatNeg)]
  | .int kind =>
    if kind.isWide then
      return [.op (.i64Const 0)] ++ operand ++ [.op (.num (.arith .w64 .sub))]
    else return [.op (.const 0)] ++ operand ++ Code.ops (.sub :: normalize kind)
  | ty => throw (.negation ty)

/-- The string of the value on the stack. -/
def stringify : Ty → Emit (List Code)
  | .str => return []
  | .bool => do
    let yes ← strConst (Utf8.encode "true")
    let no ← strConst (Utf8.encode "false")
    return [.condElse (some .i32) [.op (.const yes)] [.op (.const no)]]
  | .float => return [.op (.host .fmtF64)]
  | .int kind =>
    let wide : List Op := if kind.isWide then [] else [.num (.convert (.extend kind.signed))]
    return Code.ops (wide ++ [.host (if kind.signed then .fmtI64 else .fmtU64)])
  | ty => throw (.interpolation ty)

/-- Joins the pieces of a string. -/
def joinPieces (s : Site) : List (List Code) → Emit (List Code)
  | [] => return [.op (.const (← strConst []))]
  | first :: rest => return first ++ rest.flatMap (· ++ [.op (.callFn s.plan.strConcat)])

/-- The function of the host behind a builtin function. -/
def builtinImport : Builtin → HostImport
  | .print => .log
  | .httpGet => .httpGet
  | .httpPost => .httpPost
  | .readFile => .fileRead
  | .writeFile => .fileWrite
  | .sleep => .timerSchedule

/-- The number of the function that a direct call calls. -/
def targetIndex (s : Site) : CallTarget → Emit Nat
  | .function name => orDefect (.unknownFunction name) (s.plan.direct.lookup name)
  | .external name => orDefect (.unknownFunction name) (s.plan.externals.lookup name)
  | .builtin b => return (builtinImport b).index
  | .static struct slot => orDefect (.unknownMethod struct slot) (s.plan.methods.get? struct slot)

/-! ### Patterns -/

/-- Leaves the arm unless the object in a local has a tag. -/
def tagTest (value tag : Nat) : List Op :=
  [.get value, .head, .const tag, .differ, .brIf 0]

/-- Tests the value in a local and binds the pattern's variable; a failed test leaves the arm. -/
def pattern (s : Site) (value : Nat) : Typed.Pattern → Emit (List Op)
  | .wildcard => return []
  | .bind v => do
    let i ← newLocal s v.ty.slotType
    bindLocal v i
    return [.get value, .set i]
  | .int n ty => do
    let ne ← orDefect (.literalPattern ty) (numericOp? .ne ty)
    return [.get value, intConst n ty, .num ne, .brIf 0]
  | .float x => return [.get value, .f64Const x, .num (.floatRel .ne), .brIf 0]
  | .bool b => return [.get value, .const (if b then 1 else 0), .differ, .brIf 0]
  | .str t => do
    let addr ← strConst (Utf8.encode t)
    return [.get value, .const addr, .callFn s.plan.strEq, .isZero, .brIf 0]
  | .variant tag none => return tagTest value tag
  | .variant tag (some (ty, p)) => do
    let payload ← newLocal s ty.slotType
    let inner ← pattern s payload p
    return tagTest value tag ++ [.get value, .read ty.slotKind Layout.payload, .set payload] ++ inner

/-! ### Control -/

/-- Gives an error result back to the caller, else its payload. -/
def tryCode (s : Site) (ty : Ty) (operand : List Code) : Emit (List Code) := do
  let result ← newLocal s .i32
  let leave ← returnOps s
  let payload : List Op :=
    match ty.valType? with
    | some vt => [.get result, .read (.ofVal vt) Layout.payload]
    | none => []
  return operand ++ Code.ops [.set result, .get result, .head]
    ++ [.cond none (Code.ops (.get result :: leave))] ++ Code.ops payload

/-- A loop that tests its condition in front of every round. -/
def whileCode (cond body : List Code) : List Code :=
  [.block none [.loop (cond ++ Code.ops [.isZero, .brIf 1] ++ body ++ [.op (.br 0)])]]

/-- A loop over the elements that an array has when the loop starts. -/
def forLoop (s : Site) (iterableTy : Ty) (v : Variable) (iterable body : Emit (List Code)) :
    Emit (List Code) := do
  match iterableTy with
  | .array elem =>
    let arrayCode ← iterable
    let array ← newLocal s .i32
    let len ← newLocal s .i32
    let i ← newLocal s .i32
    let item ← newLocal s elem.slotType
    bindLocal v item
    let bodyCode ← body
    let fetch := [Op.get array, .get i] ++ Op.offsetWords
      ++ [Op.read elem.slotKind Layout.arrayHeader, .set item]
    return arrayCode
      ++ Code.ops [.set array, .get array, .head, .set len, .const 0, .set i]
      ++ [Code.block none [.loop (Code.ops ([Op.get i, .get len, .notBelow, .brIf 1] ++ fetch)
        ++ [Code.block none bodyCode]
        ++ Code.ops [.get i, .const 1, .add, .set i, .br 0])]]
  | ty => throw (.iteration ty)

/-- Leaves a loop or starts its next round. -/
def jump (s : Site) (isBreak : Bool) : Emit (List Code) := do
  let depth ← orDefect (.outsideLoop isBreak)
    (labelDepth s (if isBreak then .loopExit else .loopNext))
  return [.op (.br depth.toUInt32)]

/-- Writes the value of an assignment, if it has one, to its place. -/
def storeAssigned (s : Site) (ty : Ty) (place : Place) : Emit (List Op) := do
  match ty.valType? with
  | some vt =>
    let tmp ← newLocal s vt
    return .set tmp :: place.store tmp
  | none => return []

/-- The capacity of an array literal. -/
def literalCapacity (s : Site) (length : Nat) : Emit Nat := do
  let cap := max length s.plan.arrayCapacity
  if Layout.arrayHeader + Layout.word * cap < Layout.addressLimit then return cap
  else throw .tooLarge

/-- The words of a struct of which all fields are constants. -/
def structWords (size : Nat) (fields : List (Nat × Word)) : List Word :=
  fields.foldl (fun words f => words.set f.1 f.2) (List.replicate size (.i64 0))

/-! ### Trees -/

mutual

/-- Code that leaves the value of an expression on the stack, if it has one. -/
def expr (s : Site) : Typed.Expr → Emit (List Code)
  | ⟨_, ty, .int v⟩ => return [.op (intConst v ty)]
  | ⟨_, _, .float v⟩ => return [.op (.f64Const v)]
  | ⟨_, _, .bool v⟩ => return [.op (.const (if v then 1 else 0))]
  | ⟨_, _, .str v⟩ => return [.op (.const (← strConst (Utf8.encode v)))]
  | ⟨_, _, .bytes v⟩ => return [.op (.const (← strConst v))]
  | ⟨_, _, .interp ps⟩ => do joinPieces s (← parts s ps)
  | ⟨_, _, .local_ v⟩ => return Code.ops (← readVariable s v)
  | ⟨_, _, .captured v⟩ => return Code.ops (← readVariable s v)
  | ⟨_, _, .function name⟩ => return [.op (.const (← functionConst s name))]
  | ⟨_, _, .unit enum tag⟩ => return [.op (.const (← unitConst enum tag))]
  | ⟨_, _, .binary .and lhs rhs⟩ => do
    let a ← expr s lhs
    let b ← expr (s.inside .plain) rhs
    return a ++ [.condElse (some .i32) b [.op (.const 0)]]
  | ⟨_, _, .binary .or lhs rhs⟩ => do
    let a ← expr s lhs
    let b ← expr (s.inside .plain) rhs
    return a ++ [.condElse (some .i32) [.op (.const 1)] b]
  | ⟨_, _, .binary op lhs rhs⟩ => do
    let a ← expr s lhs
    let b ← expr s rhs
    return a ++ b ++ Code.ops (← binaryOps s op lhs.ty)
  | ⟨_, _, .unary .not operand⟩ => return (← expr s operand) ++ [.op .isZero]
  | ⟨_, ty, .unary .neg operand⟩ => do
    match operand.intLiteral? with
    | some v => return [.op (intConst (-v) operand.ty)]
    | none => negate ty (← expr s operand)
  | ⟨_, ty, .cast operand⟩ => do
    let a ← expr s operand
    return a ++ Code.ops (← orDefect (.cast operand.ty ty) (cast? operand.ty ty))
  | ⟨_, _, .call (.builtin b) args⟩ => do
    let a ← partArgs s args
    return a ++ [.op (.host (builtinImport b))]
  | ⟨_, _, .call target args⟩ => do
    let a ← exprs s args
    return a ++ [.op (.callFn (← targetIndex s target))]
  | ⟨_, _, .method struct slot receiver args⟩ => do
    let r ← expr s receiver
    let a ← exprs s args
    return r ++ a ++ [.op (.callFn (← targetIndex s (.static struct slot)))]
  | ⟨_, _, .indirect callee args⟩ => do
    match callee.ty with
    | .fn params ret =>
      let f ← expr s callee
      let value ← newLocal s .i32
      let a ← exprs s args
      let type ← typeIndex (closureType params ret)
      return f ++ Code.ops [.set value, .get value, .read .i32 Layout.word] ++ a
        ++ Code.ops [.get value, .head, .callIndirect type.toUInt32]
    | ty => throw (.callOf ty)
  | ⟨_, _, .variant _ tag none⟩ => tagged s tag none
  | ⟨_, _, .variant _ tag (some payload)⟩ => tagged s tag (some (payload.ty, expr s payload))
  | ⟨_, _, .push receiver value⟩ => do
    let (target, targetCode) ← place s receiver
    let v ← expr s value
    let item ← newLocal s value.ty.slotType
    let push ← pushOps s target item value.ty.slotKind
    return targetCode ++ v ++ Code.ops (.set item :: push)
  | ⟨_, _, .pop receiver⟩ => do
    match receiver.ty with
    | .array elem =>
      let r ← expr s receiver
      let array ← newLocal s .i32
      return r ++ [.op (.set array)] ++ popCode array elem.slotKind
    | ty => throw (.popOn ty)
  | ⟨_, _, .arrayLength receiver⟩ => return (← expr s receiver) ++ [.op .head]
  | ⟨_, _, .byteLength receiver⟩ => return (← expr s receiver) ++ [.op .head]
  | ⟨_, ty, .field object slot⟩ => do
    let o ← expr s object
    match ty.valType? with
    | some vt => return o ++ [.op (.read (.ofVal vt) (Layout.word * slot))]
    | none => return o ++ [.op .drop]
  | ⟨_, _, .index object position⟩ => do
    let (kind, offset, address) ←
      elementAddress s object.ty position.ty (expr s object) (expr s position)
    return address ++ [.op (.read kind offset)]
  | ⟨_, ty, .await operand⟩ => do
    return (← expr s operand) ++ Code.ops (.host .promiseAwait :: narrow ty.valType?)
  | ⟨_, ty, .try_ operand⟩ => do tryCode s ty (← expr s operand)
  | ⟨_, _, .outcome isOk value⟩ => tagged s (if isOk then 0 else 1) (some (value.ty, expr s value))
  | ⟨_, ty, .array elements⟩ => do
    match ty with
    | .array elem =>
      let cap ← literalCapacity s elements.length
      let size := Layout.arrayHeader + Layout.word * cap
      match elements.mapM (·.literal?) with
      | some literals => template s (Layout.arrayWords (← literals.mapM literalWord) cap) size
      | none =>
        let (array, allocation) ← alloc s size
        let head := [.get array, .const elements.length, .write .i32 0]
          ++ [.get array, .const cap, .write .i32 4]
        let stores ← elementStores s array elem.slotKind 0 elements
        return Code.ops (allocation ++ head) ++ stores ++ [.op (.get array)]
    | ty => throw (.arrayLiteral ty)
  | ⟨_, _, .structLit size fields⟩ => do
    let size := max size 1
    match fields.mapM (fun f => f.value.literal?.map (f.place, ·)) with
    | some literals =>
      let words ← literals.mapM fun f => do return (f.1, ← literalWord f.2)
      template s (structWords size words) (Layout.word * size)
    | none =>
      let (object, allocation) ← alloc s (Layout.word * size)
      let stores ← fieldStores s object fields
      return Code.ops allocation ++ stores ++ [.op (.get object)]
  | ⟨_, ty, .match_ scrutinee as⟩ => do
    let v ← expr s scrutinee
    let value ← newLocal s scrutinee.ty.slotType
    let body ← arms ((s.inside .plain).inside .plain) value as
    return v ++ [.op (.set value), .block ty.valType? (body ++ [.op .unreachable])]
  | ⟨id, ty, .lambda params captures body⟩ => do
    let slot ← addJob (.lambda id ty params captures body)
    closure s slot captures
  | ⟨_, _, .block ss⟩ => stmts s ss

/-- Code of expressions in order. -/
def exprs (s : Site) : List Typed.Expr → Emit (List Code)
  | [] => return []
  | e :: es => do
    let a ← expr s e
    return a ++ (← exprs s es)

/-- Code of arguments, with address and length for a string. -/
def partArgs (s : Site) : List Typed.Expr → Emit (List Code)
  | [] => return []
  | e :: es => do
    let a ← expr s e
    let split ← if e.ty = .str then stringParts s else pure []
    return a ++ Code.ops split ++ (← partArgs s es)

/-- The pieces of a string; a text without characters is none. -/
def parts (s : Site) : List Typed.Part → Emit (List (List Code))
  | [] => return []
  | .text t :: ps => do
    if t.isEmpty then parts s ps
    else
      let addr ← strConst (Utf8.encode t)
      return [.op (.const addr)] :: (← parts s ps)
  | .expr e :: ps => do
    let a ← expr s e
    let b ← stringify e.ty
    return (a ++ b) :: (← parts s ps)

/-- Writes elements to an array in a local, from a position on. -/
def elementStores (s : Site) (array : Nat) (kind : MemKind) (i : Nat) : List Typed.Expr → Emit (List Code)
  | [] => return []
  | e :: es => do
    let a ← expr s e
    let rest ← elementStores s array kind (i + 1) es
    return [.op (.get array)] ++ a ++ [.op (.write kind (Layout.arrayHeader + Layout.word * i))]
      ++ rest

/-- Writes fields to a struct in a local. -/
def fieldStores (s : Site) (object : Nat) : List Typed.Init → Emit (List Code)
  | [] => return []
  | ⟨slot, ty, e⟩ :: fs => do
    let a ← expr s e
    return storeSlot object (Layout.word * slot) ty a ++ (← fieldStores s object fs)

/-- The arms of a match on the value in a local; the site is the inside of an arm. -/
def arms (s : Site) (value : Nat) : List Typed.Arm → Emit (List Code)
  | [] => return []
  | ⟨p, e⟩ :: as => do
    let test ← pattern s value p
    let body ← expr s e
    let leave : List Op := if e.ty = .never then [] else [.br 1]
    return .block none (Code.ops test ++ body ++ Code.ops leave) :: (← arms s value as)

/-- Where an expression can be written, and code to be run before. -/
def place (s : Site) : Typed.Expr → Emit (Place × List Code)
  | ⟨_, _, .local_ v⟩ => do
    let i ← orDefect (.missingLocal v) ((← get).places.lookup v.id)
    return (.local_ i, [])
  | ⟨_, _, .captured v⟩ => throw (.assignment v.name)
  | ⟨_, _, .function name⟩ => throw (.assignment name)
  | ⟨_, ty, .field object slot⟩ => do
    let o ← expr s object
    let base ← newLocal s .i32
    return (.memory base (Layout.word * slot) ty.slotKind, o ++ [.op (.set base)])
  | ⟨_, _, .index object position⟩ => do
    let (kind, offset, address) ←
      elementAddress s object.ty position.ty (expr s object) (expr s position)
    let base ← newLocal s .i32
    return (.memory base offset kind, address ++ [.op (.set base)])
  | _ => throw .temporary

/-- Code of statements in order. -/
def stmts (s : Site) : List Typed.Stmt → Emit (List Code)
  | [] => return []
  | t :: ts => do
    let a ← stmt s t
    return a ++ (← stmts s ts)

/-- Code of a statement. -/
def stmt (s : Site) : Typed.Stmt → Emit (List Code)
  | .let_ _ v init => do
    let a ← expr s init
    let i ← newLocal s v.ty.slotType
    bindLocal v i
    return a ++ [.op (.set i)]
  | .assign target op value => do
    let (p, before) ← place s target
    let v ← expr s value
    let code ←
      match op with
      | none => pure v
      | some op => do
        let combine ← binaryOps s op target.ty
        pure (Code.ops p.load ++ v ++ Code.ops combine)
    return before ++ code ++ Code.ops (← storeAssigned s target.ty p)
  | .if_ cond thenBlock none => do
    let c ← expr s cond
    let t ← stmts (s.inside .plain) thenBlock
    return c ++ [.cond none t]
  | .if_ cond thenBlock (some elseBlock) => do
    let c ← expr s cond
    let t ← stmts (s.inside .plain) thenBlock
    let e ← stmts (s.inside .plain) elseBlock
    return c ++ [.condElse none t e]
  | .while_ cond body => do
    let inner := (s.inside .loopExit).inside .loopNext
    let c ← expr inner cond
    let b ← stmts inner body
    return whileCode c b
  | .for_ _ v iterable body =>
    let inner := ((s.inside .loopExit).inside .plain).inside .loopNext
    forLoop s iterable.ty v (expr s iterable) (stmts inner body)
  | .break_ => jump s true
  | .continue_ => jump s false
  | .return_ none => return Code.ops (← returnOps s)
  | .return_ (some value) => do
    let v ← expr s value
    return v ++ Code.ops (← returnOps s)
  | .expr value => do
    let v ← expr s value
    let discard : List Op := if value.ty.valType?.isSome then [.drop] else []
    return v ++ Code.ops discard
  | .block ss => stmts s ss

end

/-- An operator that is not logical evaluates both operands. -/
theorem expr_binary (s : Site) {op : BinaryOp} (h : op.isLogical = false) {id : Nat} {ty : Ty}
    {l r : Typed.Expr} :
    expr s ⟨id, ty, .binary op l r⟩ = (do
      let a ← expr s l
      let b ← expr s r
      return a ++ b ++ Code.ops (← binaryOps s op l.ty)) := by
  rw [expr]
  · rintro rfl
    cases h
  · rintro rfl
    cases h

/-- A block is no block of the machine. -/
theorem stmt_block (s : Site) (ss : List Typed.Stmt) : stmt s (.block ss) = stmts s ss := by
  rw [stmt]

/-- A variable is written where it is kept. -/
theorem place_local (s : Site) (id : Nat) (ty : Ty) (v : Variable) :
    place s ⟨id, ty, .local_ v⟩ = (do
      let i ← orDefect (.missingLocal v) ((← get).places.lookup v.id)
      return (.local_ i, [])) := by
  rw [place]

end Emit

end StackScript
