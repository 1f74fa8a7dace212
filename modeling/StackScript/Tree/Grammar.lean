import StackScript.Tree.Basic
import StackScript.Tree.Cursor

/-!
# The grammar

## Design Notes

Every production takes a bound on the depth of its calls; between two calls without a token in
between there are only a few others, so a multiple of the number of tokens is enough.  Where a
brace after a name opens a block (in conditions, iterated expressions and matched expressions), an
expression is read `bare`: outside parentheses it has no struct literals.
-/

namespace StackScript

/-! ### Binding strength -/

/-- What may follow an operand. -/
inductive Infix where
  | binary (op : BinaryOp)
  | cast
  | try_
  | call
  | member
  | index
  deriving DecidableEq, Repr

namespace Infix

/-- How tightly it binds. -/
def level : Infix → Nat
  | binary .or => 1
  | binary .and => 2
  | binary .eq | binary .ne => 3
  | binary .lt | binary .le | binary .gt | binary .ge => 4
  | binary .add | binary .sub => 5
  | binary .mul | binary .div | binary .rem => 6
  | cast => 7
  | try_ => 9
  | call | member | index => 10

/-- The level of the operators in front of an operand. -/
def unaryLevel : Nat := 8

/-- The level of `await`: its operand ends before `?`. -/
def awaitLevel : Nat := 9

/-- The role of a token after an operand. -/
def ofKind? : TokenKind → Option Infix
  | .mark .or => some (binary .or)
  | .mark .and => some (binary .and)
  | .mark .eq => some (binary .eq)
  | .mark .ne => some (binary .ne)
  | .mark .lt => some (binary .lt)
  | .mark .le => some (binary .le)
  | .mark .gt => some (binary .gt)
  | .mark .ge => some (binary .ge)
  | .mark .plus => some (binary .add)
  | .mark .minus => some (binary .sub)
  | .mark .star => some (binary .mul)
  | .mark .slash => some (binary .div)
  | .mark .percent => some (binary .rem)
  | .keyword .as_ => some cast
  | .mark .question => some try_
  | .mark .lparen => some call
  | .mark .dot => some member
  | .mark .lbracket => some index
  | _ => none

end Infix

/-- The operator of an assignment mark; none for the plain one. -/
def assignment? : TokenKind → Option (Option BinaryOp)
  | .mark .assign => some none
  | .mark .plusAssign => some (some .add)
  | .mark .minusAssign => some (some .sub)
  | .mark .starAssign => some (some .mul)
  | .mark .slashAssign => some (some .div)
  | _ => none

/-- Whether an expression names a place that can be assigned. -/
def ExprForm.isPlace : ExprForm → Bool
  | .ident _ | .field _ _ | .index _ _ => true
  | _ => false

/-- A text piece, unless it is empty. -/
def InterpPart.ofText (s : String) : List InterpPart :=
  if s.isEmpty then [] else [.text s]

namespace Parse

/-! ### Types and patterns -/

/-- A written type. -/
def typeExpr : Nat → Parse TypeExpr
  | 0 => exhausted
  | bound + 1 => do
    let start ← here
    let form : TypeForm ← match ← kind with
      | .mark .lbracket => do
        bump
        let elem ← typeExpr bound
        expectMark .rbracket
        pure (.array elem)
      | .keyword .fn => do
        bump
        expectMark .lparen
        let params ← commaList .rparen (typeExpr bound) bound
        expectMark .rparen
        if ← skip (.mark .arrow) then
          let ret ← typeExpr bound
          pure (.fn params ret)
        else
          let span ← previousSpan
          pure (.fn params ⟨.named "void", span⟩)
      | .ident "Result" => do
        bump
        expectMark .lt
        let ok ← typeExpr bound
        expectMark .comma
        let err ← typeExpr bound
        expectMark .gt
        pure (.result ok err)
      | .ident "Promise" => do
        bump
        expectMark .lt
        let inner ← typeExpr bound
        expectMark .gt
        pure (.promise inner)
      | .ident name => do
        bump
        pure (.named name)
      | _ => fail .type
    let span ← spanFrom start
    return ⟨form, span⟩

/-- A type after an arrow, if there is an arrow. -/
def returnType (bound : Nat) : Parse (Option TypeExpr) := do
  if ← skip (.mark .arrow) then
    let ty ← typeExpr bound
    return some ty
  else return none

/-- A match pattern. -/
def pattern : Nat → Parse Pattern
  | 0 => exhausted
  | bound + 1 => do
    let start ← here
    let form : PatternForm ← match ← kind with
      | .underscore => do
        bump
        pure .wildcard
      | .int n => do
        bump
        pure (.int n)
      | .float x => do
        bump
        pure (.float x)
      | .mark .minus => do
        bump
        match ← kind with
        | .int n => do
          bump
          pure (.int (-n))
        | .float x => do
          bump
          pure (.float x.neg)
        | _ => fail .number
      | .bool b => do
        bump
        pure (.bool b)
      | .str s => do
        bump
        pure (.str s)
      | .ident first => do
        bump
        let (qualifier, name) ←
          if ← skip (.mark .path) then do
            let (name, _) ← identifier
            pure (some first, name)
          else pure (none, first)
        if ← skip (.mark .lparen) then
          let payload ← pattern bound
          expectMark .rparen
          pure (.variant qualifier name (some payload))
        else if qualifier.isSome then pure (.variant qualifier name none)
        else pure (.binding name)
      | _ => fail .pattern
    let span ← spanFrom start
    return ⟨form, span⟩

/-! ### Parameters -/

/-- A parameter; the first one of a method may be `self`, typed as the owner.  The flag tells
whether parameters stand before it. -/
def param (owner : Option String) (isFirst : Bool) (bound : Nat) : Parse (Param × Bool) := do
  let (name, span) ← identifier
  if name = "self" then
    match owner, isFirst with
    | some owner, true => return (⟨name, ⟨.named owner, span⟩, span⟩, true)
    | _, _ => throw ⟨.parameterName, .self, span⟩
  else
    expectMark .colon
    let ty ← typeExpr bound
    let span ← spanFrom span
    return (⟨name, ty, span⟩, false)

/-- A parameter list between parentheses, and whether it starts with `self`. -/
def params (owner : Option String) (bound : Nat) : Parse (List Param × Bool) := do
  expectMark .lparen
  if ← isAt (.mark .rparen) then
    bump
    return ([], false)
  else
    let (first, hasSelf) ← param owner true bound
    let rest ←
      if ← skip (.mark .comma) then
        commaList .rparen (do return (← param owner false bound).1) bound
      else pure []
    expectMark .rparen
    return (first :: rest, hasSelf)

/-! ### Expressions and statements -/

/-- A node with a fresh number, from a place to the token read last. -/
def node (form : ExprForm) (start : Span) : Parse Expr := do
  let span ← spanFrom start
  let id ← freshId
  return ⟨id, form, span⟩

/-- A literal: reads its token. -/
def literal (form : ExprForm) (start : Span) : Parse Expr := do
  bump
  node form start

mutual

/-- An expression whose operators bind tighter than `level`. -/
def expression : Nat → Bool → Nat → Parse Expr
  | 0, _, _ => exhausted
  | bound + 1, bare, level => do
    let lhs ← operand bound bare
    infixes bound bare level lhs

/-- What follows the operand `lhs`. -/
def infixes : Nat → Bool → Nat → Expr → Parse Expr
  | 0, _, _, _ => exhausted
  | bound + 1, bare, level, lhs => do
    match Infix.ofKind? (← kind) with
    | none => return lhs
    | some op =>
      if op.level ≤ level then return lhs
      else
        bump
        let form : ExprForm ← match op with
          | .binary o => do
            let rhs ← expression bound bare op.level
            pure (.binary o lhs rhs)
          | .cast => do
            let ty ← typeExpr bound
            pure (.cast lhs ty)
          | .try_ => pure (.try_ lhs)
          | .call => do
            let args ← commaList .rparen (expression bound false 0) bound
            expectMark .rparen
            pure (.call lhs args)
          | .member => do
            let (name, _) ← identifier
            if ← skip (.mark .lparen) then
              let args ← commaList .rparen (expression bound false 0) bound
              expectMark .rparen
              pure (.methodCall lhs name args)
            else pure (.field lhs name)
          | .index => do
            let position ← expression bound false 0
            expectMark .rbracket
            pure (.index lhs position)
        let e ← node form lhs.span
        infixes bound bare level e

/-- An operand with the operators in front of it. -/
def operand : Nat → Bool → Parse Expr
  | 0, _ => exhausted
  | bound + 1, bare => do
    let start ← here
    match ← kind with
    | .mark .minus => do
      bump
      let e ← expression bound bare Infix.unaryLevel
      node (.unary .neg e) start
    | .mark .not => do
      bump
      let e ← expression bound bare Infix.unaryLevel
      node (.unary .not e) start
    | .keyword .await => do
      bump
      let e ← expression bound bare Infix.awaitLevel
      node (.await e) start
    | .int n => literal (.int n) start
    | .float x => literal (.float x) start
    | .bool b => literal (.bool b) start
    | .str s => literal (.str s) start
    | .bytes bs => literal (.bytes bs) start
    | .strStart text => do
      bump
      let parts ← interpolation bound
      node (.interp (InterpPart.ofText text ++ parts)) start
    | .ident name => do
      bump
      let form ← named bound bare name
      node form start
    | .mark .lparen => do
      bump
      let inner ← expression bound false 0
      expectMark .rparen
      let span ← spanFrom start
      return { inner with span }
    | .mark .lbracket => do
      bump
      let elements ← commaList .rbracket (expression bound false 0) bound
      expectMark .rbracket
      node (.array elements) start
    | .keyword .match_ => do
      bump
      let scrutinee ← expression bound true 0
      expectMark .lbrace
      let arms ← many (.mark .rbrace) (arm bound) bound
      expectMark .rbrace
      node (.match_ scrutinee arms) start
    | .keyword .fn => do
      bump
      let (ps, _) ← params none bound
      let ret ← returnType bound
      let body ← lambdaBody bound
      node (.lambda ps ret body) start
    | _ => fail .expression

/-- What a name starts: a path, a success or failure, a struct literal, or the name itself. -/
def named : Nat → Bool → String → Parse ExprForm
  | 0, _, _ => exhausted
  | bound + 1, bare, name => do
    if ← skip (.mark .path) then
      let (member, _) ← identifier
      return .path name member
    else if (name = "Ok" ∨ name = "Err") ∧ (← isAt (.mark .lparen)) then
      bump
      let value ← expression bound false 0
      expectMark .rparen
      return .outcome (name = "Ok") value
    else if !bare && (← isAt (.mark .lbrace)) then
      bump
      let fields ← commaList .rbrace (fieldInit bound) bound
      expectMark .rbrace
      return .structLit name fields
    else return .ident name

/-- A field of a struct literal. -/
def fieldInit : Nat → Parse FieldInit
  | 0 => exhausted
  | bound + 1 => do
    let (name, start) ← identifier
    expectMark .colon
    let value ← expression bound false 0
    let span ← spanFrom start
    return ⟨name, value, span⟩

/-- The pieces of an interpolated string after its first text. -/
def interpolation : Nat → Parse (List InterpPart)
  | 0 => exhausted
  | bound + 1 => do
    let e ← expression bound false 0
    match ← kind with
    | .strMiddle text => do
      bump
      let parts ← interpolation bound
      return .expr e :: (InterpPart.ofText text ++ parts)
    | .strEnd text => do
      bump
      return .expr e :: InterpPart.ofText text
    | _ => fail .interpolationEnd

/-- An arm of a match. -/
def arm : Nat → Parse (Option MatchArm)
  | 0 => exhausted
  | bound + 1 => do
    let start ← here
    let p ← pattern bound
    expectMark .fatArrow
    if ← isAt (.mark .lbrace) then
      let b ← block bound
      let _ ← skip (.mark .comma)
      let id ← freshId
      let span ← spanFrom start
      return some ⟨p, ⟨id, .block b, b.span⟩, span⟩
    else
      let body ← expression bound false 0
      if ← skip (.mark .comma) then
        let span ← spanFrom start
        return some ⟨p, body, span⟩
      else if ← isAt (.mark .rbrace) then
        let span ← spanFrom start
        return some ⟨p, body, span⟩
      else fail .armEnd

/-- The body of a function literal. -/
def lambdaBody : Nat → Parse LambdaBody
  | 0 => exhausted
  | bound + 1 => do
    if ← skip (.mark .fatArrow) then
      let e ← expression bound false 0
      return .expr e
    else if ← isAt (.mark .lbrace) then
      let b ← block bound
      return .block b
    else fail .lambdaBody

/-- Statements between braces. -/
def block : Nat → Parse Block
  | 0 => exhausted
  | bound + 1 => do
    let start ← expect (.mark .lbrace)
    let stmts ← many (.mark .rbrace) (blockItem bound) bound
    expectMark .rbrace
    let span ← spanFrom start
    return ⟨stmts, span⟩

/-- A statement of a block; a lone semicolon is none. -/
def blockItem : Nat → Parse (Option Stmt)
  | 0 => exhausted
  | bound + 1 => do
    if ← isAt .eof then fail (.token (.mark .rbrace))
    else if ← skip (.mark .semicolon) then return none
    else
      let s ← stmt bound
      return some s

/-- A statement. -/
def stmt : Nat → Parse Stmt
  | 0 => exhausted
  | bound + 1 => do
    let start ← here
    let form : StmtForm ← match ← kind with
      | .keyword .let_ => binding bound false
      | .keyword .const => binding bound true
      | .keyword .if_ => do
        bump
        conditional bound
      | .keyword .while_ => do
        bump
        let cond ← expression bound true 0
        let body ← block bound
        pure (.while_ cond body)
      | .keyword .for_ => do
        bump
        let (var, _) ← identifier
        let _ ← expect (.keyword .in_)
        let iterable ← expression bound true 0
        let body ← block bound
        let id ← freshId
        pure (.for_ id var iterable body)
      | .keyword .break_ => do
        bump
        expectMark .semicolon
        pure .break_
      | .keyword .continue_ => do
        bump
        expectMark .semicolon
        pure .continue_
      | .keyword .return_ => do
        bump
        if ← isAt (.mark .semicolon) then
          bump
          pure (.return_ none)
        else
          let value ← expression bound false 0
          expectMark .semicolon
          pure (.return_ (some value))
      | .mark .lbrace => do
        let b ← block bound
        pure (.block b)
      | _ => exprStmt bound
    let span ← spanFrom start
    return ⟨form, span⟩

/-- A `let` or `const` statement. -/
def binding : Nat → Bool → Parse StmtForm
  | 0, _ => exhausted
  | bound + 1, isConst => do
    bump
    let (name, _) ← identifier
    let ty ←
      if ← skip (.mark .colon) then do
        let ty ← typeExpr bound
        pure (some ty)
      else pure none
    expectMark .assign
    let init ← expression bound false 0
    expectMark .semicolon
    let id ← freshId
    return .let_ id name isConst ty init

/-- A conditional after `if`; a conditional after `else` is a block of its own. -/
def conditional : Nat → Parse StmtForm
  | 0 => exhausted
  | bound + 1 => do
    let cond ← expression bound true 0
    let thenBlock ← block bound
    if ← skip (.keyword .else_) then
      if ← isAt (.keyword .if_) then
        let start ← here
        bump
        let form ← conditional bound
        let span ← spanFrom start
        return .if_ cond thenBlock (some ⟨[⟨form, span⟩], span⟩)
      else
        let elseBlock ← block bound
        return .if_ cond thenBlock (some elseBlock)
    else return .if_ cond thenBlock none

/-- An expression statement or an assignment; only a match may go without a semicolon. -/
def exprStmt : Nat → Parse StmtForm
  | 0 => exhausted
  | bound + 1 => do
    let e ← expression bound false 0
    match assignment? (← kind) with
    | some op =>
      if e.form.isPlace then
        bump
        let value ← expression bound false 0
        expectMark .semicolon
        return .assign e op value
      else throw ⟨.assignable, .expression, e.span⟩
    | none =>
      match e.form with
      | .match_ _ _ => do
        let _ ← skip (.mark .semicolon)
        return .expr e
      | _ => do
        expectMark .semicolon
        return .expr e

end

/-! ### Items -/

/-- A function after `fn`; `owner` is the struct of a method. -/
def function (bound : Nat) (start : Span) (isAsync isExport : Bool) (owner : Option String) :
    Parse FunctionDecl := do
  let (name, _) ← identifier
  let (ps, hasSelf) ← params owner bound
  let ret ← returnType bound
  let body ← block bound
  let span ← spanFrom start
  return { name, params := ps, ret, body := some body, isAsync, isExport, hasSelf, span }

/-- A host function after `extern`. -/
def externalFunction (bound : Nat) (start : Span) : Parse FunctionDecl := do
  let _ ← expect (.keyword .fn)
  let (name, _) ← identifier
  let (ps, _) ← params none bound
  let ret ← returnType bound
  expectMark .semicolon
  let span ← spanFrom start
  return { name, params := ps, ret, body := none, isExternal := true, span }

/-- Whether the current token starts a method. -/
def isAtMethod : Parse Bool := do
  if ← isAt (.keyword .fn) then return true
  else isAt (.keyword .async)

/-- A field or a method of a struct. -/
def member (bound : Nat) (owner : String) : Parse (FieldDecl ⊕ FunctionDecl) := do
  let start ← here
  if ← isAtMethod then
    let isAsync ← skip (.keyword .async)
    let _ ← expect (.keyword .fn)
    let method ← function bound start isAsync false (some owner)
    let _ ← skip (.mark .comma)
    return .inr method
  else
    let (name, _) ← identifier
    expectMark .colon
    let ty ← typeExpr bound
    let span ← spanFrom start
    if ← skip (.mark .comma) then return .inl ⟨name, ty, span⟩
    else if ← isAt (.mark .rbrace) then return .inl ⟨name, ty, span⟩
    else if ← isAtMethod then return .inl ⟨name, ty, span⟩
    else fail .fieldEnd

/-- A struct after its keyword. -/
def struct (bound : Nat) (start : Span) : Parse StructDecl := do
  let (name, _) ← identifier
  expectMark .lbrace
  let members ← many (.mark .rbrace) (do return some (← member bound name)) bound
  expectMark .rbrace
  let span ← spanFrom start
  return ⟨name, members.filterMap Sum.getLeft?, members.filterMap Sum.getRight?, span⟩

/-- A variant of an enum. -/
def variant (bound : Nat) : Parse VariantDecl := do
  let (name, start) ← identifier
  let payload ←
    if ← skip (.mark .lparen) then do
      let ty ← typeExpr bound
      expectMark .rparen
      pure (some ty)
    else pure none
  let span ← spanFrom start
  return ⟨name, payload, span⟩

/-- An enum after its keyword. -/
def enum (bound : Nat) (start : Span) : Parse EnumDecl := do
  let (name, _) ← identifier
  expectMark .lbrace
  let variants ← commaList .rbrace (variant bound) bound
  expectMark .rbrace
  let span ← spanFrom start
  return ⟨name, variants, span⟩

/-- An item at the top level. -/
def item (bound : Nat) : Parse Item := do
  let start ← here
  match ← kind with
  | .keyword .export_ => do
    bump
    let isAsync ← skip (.keyword .async)
    let _ ← expect (.keyword .fn)
    let decl ← function bound start isAsync true none
    return .function decl
  | .keyword .async => do
    bump
    let _ ← expect (.keyword .fn)
    let decl ← function bound start true false none
    return .function decl
  | .keyword .fn => do
    match (← get).nextKind with
    | .ident _ => do
      bump
      let decl ← function bound start false false none
      return .function decl
    | _ => do
      let s ← stmt bound
      return .stmt s
  | .keyword .external => do
    bump
    let decl ← externalFunction bound start
    return .function decl
  | .keyword .struct => do
    bump
    let decl ← struct bound start
    return .struct decl
  | .keyword .enum => do
    bump
    let decl ← enum bound start
    return .enum decl
  | _ => do
    let s ← stmt bound
    return .stmt s

/-- An item, or nothing for a lone semicolon. -/
def programItem (bound : Nat) : Parse (Option Item) := do
  if ← skip (.mark .semicolon) then return none
  else
    let i ← item bound
    return some i

/-- A bound on the depth of calls that suffices for a list of tokens. -/
def boundFor (tokens : List Token) : Nat :=
  20 * (tokens.length + 2)

end Parse

/-- The place of a list of tokens. -/
def tokensSpan (tokens : List Token) : Span :=
  match tokens.head?, tokens.getLast? with
  | some first, some last => first.span.merge last.span
  | _, _ => .nowhere

/-- The program that a list of tokens stands for. -/
def parse (tokens : List Token) : Except ParseError Program := do
  let bound := Parse.boundFor tokens
  let (items, cursor) ← (Parse.many .eof (Parse.programItem bound) bound).run (.ofTokens tokens)
  return ⟨items, cursor.nextId, tokensSpan tokens⟩

/-- The expression that a list of tokens stands for. -/
def parseExpression (tokens : List Token) : Except ParseError Expr := do
  let whole : Parse Expr := do
    let e ← Parse.expression (Parse.boundFor tokens) false 0
    if ← Parse.isAt .eof then return e else Parse.fail .endOfInput
  let (e, _) ← whole.run (.ofTokens tokens)
  return e

end StackScript
