import StackScript.Token.Basic

/-!
# Reading tokens

The place in a list of tokens, the errors of reading there, and the steps that all productions of
the grammar are made of.

## Design Notes

The end of the text is never read past: at the last token, and when there is none, the cursor
stays.  Repetition takes a bound on its rounds, because every round reads a token.
-/

namespace StackScript

/-- What a production wants to see. -/
inductive Expectation where
  | token (kind : TokenKind)
  | identifier
  | expression
  | type
  | pattern
  | endOfInput
  | parameterName
  | assignable
  | number
  | interpolationEnd
  | armEnd
  | lambdaBody
  | fieldEnd
  /-- The bound on the length of the reading was reached. -/
  | shorterText
  deriving DecidableEq, Repr

/-- The words for what is wanted. -/
def Expectation.text : Expectation → String
  | token kind => "'" ++ kind.text ++ "'"
  | identifier => "identifier"
  | expression => "expression"
  | type => "type"
  | pattern => "pattern"
  | endOfInput => "end of input"
  | parameterName => "parameter name"
  | assignable => "assignable place (variable, field or element)"
  | number => "numeric literal after '-' in pattern"
  | interpolationEnd => "'\x7d' closing the interpolated expression"
  | armEnd => "',' or '\x7d' after match arm"
  | lambdaBody => "'=>' or '\x7b' after function literal signature"
  | fieldEnd => "',' or '\x7d' after struct field"
  | shorterText => "a shorter text"

/-- What stands there instead. -/
inductive Found where
  | token (kind : TokenKind)
  | self
  | expression
  deriving DecidableEq, Repr

/-- The words for what was found. -/
def Found.text : Found → String
  | token kind => kind.describe
  | self => "'self'"
  | expression => "expression"

/-- Why a list of tokens is no program. -/
structure ParseError where
  expected : Expectation
  found : Found
  span : Span
  deriving DecidableEq, Repr

/-- The error text. -/
def ParseError.message (e : ParseError) : String :=
  "expected " ++ e.expected.text ++ ", found " ++ e.found.text

/-- A place in a list of tokens. -/
structure Cursor where
  /-- Tokens read, the last one first. -/
  before : List Token
  /-- Tokens left. -/
  after : List Token
  /-- The number of the next node. -/
  nextId : Nat

namespace Cursor

/-- The start of a list of tokens. -/
def ofTokens (tokens : List Token) : Cursor :=
  ⟨[], tokens, 0⟩

/-- The current token; behind the last token there is the end. -/
def kind (c : Cursor) : TokenKind :=
  match c.after with
  | t :: _ => t.kind
  | [] => .eof

/-- The token after the current one. -/
def nextKind (c : Cursor) : TokenKind :=
  match c.after with
  | _ :: t :: _ => t.kind
  | _ => .eof

/-- The place of the current token, or of the last one. -/
def span (c : Cursor) : Span :=
  match c.after, c.before with
  | t :: _, _ => t.span
  | [], t :: _ => t.span
  | [], [] => .nowhere

/-- The place of the token read last. -/
def previousSpan (c : Cursor) : Span :=
  match c.before with
  | t :: _ => t.span
  | [] => c.span

/-- Reads the current token unless it is the end. -/
def advance (c : Cursor) : Cursor :=
  match c.after with
  | [] => c
  | t :: rest => if t.kind = .eof then c else { c with before := t :: c.before, after := rest }

end Cursor

/-- A reading step. -/
abbrev Parse := StateT Cursor (Except ParseError)

namespace Parse

/-- The current token. -/
def kind : Parse TokenKind :=
  return (← get).kind

/-- The place of the current token. -/
def here : Parse Span :=
  return (← get).span

/-- The place of the token read last. -/
def previousSpan : Parse Span :=
  return (← get).previousSpan

/-- From a place to the token read last. -/
def spanFrom (start : Span) : Parse Span :=
  return start.merge (← get).previousSpan

/-- Whether the current token is the given one. -/
def isAt (k : TokenKind) : Parse Bool :=
  return (← get).kind = k

/-- Reads the current token. -/
def bump : Parse Unit :=
  modify Cursor.advance

/-- Fails at the current token. -/
def fail {α : Type} (expected : Expectation) : Parse α := do
  let c ← get
  throw ⟨expected, .token c.kind, c.span⟩

/-- Reads the current token if it is the given one. -/
def skip (k : TokenKind) : Parse Bool := do
  if ← isAt k then
    bump
    return true
  else return false

/-- Reads the given token and gives its place. -/
def expect (k : TokenKind) : Parse Span := do
  if ← isAt k then
    let span ← here
    bump
    return span
  else fail (.token k)

/-- Reads the given mark. -/
def expectMark (m : Mark) : Parse Unit := do
  let _ ← expect (.mark m)

/-- Reads a name and gives its place. -/
def identifier : Parse (String × Span) := do
  match ← kind with
  | .ident name =>
    let span ← here
    bump
    return (name, span)
  | _ => fail .identifier

/-- A fresh node number. -/
def freshId : Parse Nat := do
  let c ← get
  set { c with nextId := c.nextId + 1 }
  return c.nextId

/-- The failure of a reading that is longer than its bound. -/
def exhausted {α : Type} : Parse α :=
  fail .shorterText

/-- Items up to a closing mark with commas between them; the last one may have a comma too.  The
closing mark is not read. -/
def commaList {α : Type} (close : Mark) (item : Parse α) : Nat → Parse (List α)
  | 0 => exhausted
  | bound + 1 => do
    if ← isAt (.mark close) then return []
    else
      let a ← item
      if ← skip (.mark .comma) then
        let as ← commaList close item bound
        return a :: as
      else return [a]

/-- Items up to a token, which is not read; a round that gives nothing is left out. -/
def many {α : Type} (close : TokenKind) (item : Parse (Option α)) : Nat → Parse (List α)
  | 0 => exhausted
  | bound + 1 => do
    if ← isAt close then return []
    else
      match ← item with
      | some a =>
        let as ← many close item bound
        return a :: as
      | none => many close item bound

end Parse

end StackScript
