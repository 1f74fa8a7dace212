import StackScript.Diagnostic
import StackScript.Emit.Program
import StackScript.Token.Lexer
import StackScript.Tree.Grammar
import StackScript.Typing.Check

/-!
# Compilation

From source text to a module.
-/

namespace StackScript

/-- The first error of the first stage that fails. -/
inductive CompileError where
  | lex (e : LexError)
  | parse (e : ParseError)
  | type (e : TypeError)
  | emit (d : Defect)

/-- The report of an error. -/
def CompileError.diagnostic : CompileError → Diagnostic
  | lex e =>
    { kind := .lex
      message := e.fault.message
      help := some ("expected " ++ e.fault.expectation)
      span := e.span }
  | parse e => { kind := .parse, message := e.message, span := e.span }
  | type e => { kind := .type, message := e.fault.message, help := e.fault.help, span := e.span }
  | emit d => { kind := .internal, message := d.message, span := .nowhere }

/-- The checked program of a source text. -/
def checkSource (source : String) (strictMatch : Bool) : Except CompileError Typed.Program := do
  let tokens ← (tokenize source).mapError .lex
  let tree ← (parse tokens).mapError .parse
  (check tree strictMatch).mapError .type

/-- The module of a source text. -/
def compile (source : String) (config : CompileConfig) : Except CompileError Module := do
  let typed ← checkSource source config.strictMatch
  (typed.emit config).mapError .emit

end StackScript
