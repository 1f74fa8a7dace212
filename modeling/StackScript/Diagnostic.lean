import StackScript.Text.SourceFile

/-!
# Diagnostics

What a failed compilation reports, and its layout as text.
-/

namespace StackScript

/-- How bad a report is. -/
inductive Severity where
  | error
  | warning
  deriving DecidableEq, Repr

/-- The word for a severity. -/
def Severity.text : Severity → String
  | error => "error"
  | warning => "warning"

/-- The stage that reports. -/
inductive DiagnosticKind where
  | lex
  | parse
  | type
  | internal
  deriving DecidableEq, Repr

namespace DiagnosticKind

/-- The code of a stage. -/
def code : DiagnosticKind → String
  | lex => "E0001"
  | parse => "E0002"
  | type => "E0003"
  | internal => "E9999"

/-- The name of a stage's errors. -/
def text : DiagnosticKind → String
  | lex => "lex error"
  | parse => "parse error"
  | type => "type error"
  | internal => "internal compiler error"

end DiagnosticKind

/-- A report about a source text. -/
structure Diagnostic where
  severity : Severity := .error
  kind : DiagnosticKind
  message : String
  help : Option String := none
  span : Span
  deriving DecidableEq, Repr

namespace Diagnostic

/-- The report on one line. -/
def text (d : Diagnostic) : String :=
  d.kind.text ++ " at " ++ d.span.text ++ ": " ++ d.message

end Diagnostic

/-- What a rendered report shows. -/
structure DiagnosticStyle where
  /-- Show the source line. -/
  showSource : Bool := true
  /-- Show the help line. -/
  showHelp : Bool := true
  /-- The character under the place. -/
  indicator : Char := '^'

namespace DiagnosticStyle

/-- A character repeated. -/
def repeated (c : Char) (n : Nat) : String :=
  String.ofList (List.replicate n c)

/-- How many characters of the first line the span covers; at least one indicator is drawn. -/
def indicatorWidth (span : Span) (line : String) : Nat :=
  if span.stop.line = span.start.line then max 1 (span.stop.column - span.start.column)
  else max 1 (line.toList.length - (span.start.column - 1))

/-- The source line with the indicators below it. -/
def sourceLines (style : DiagnosticStyle) (span : Span) (line : String) : String :=
  let gutter := toString span.start.line
  let pad := repeated ' ' gutter.length
  pad ++ " |\n" ++
    gutter ++ " | " ++ line ++ "\n" ++
    pad ++ " | " ++ repeated ' ' (span.start.column - 1) ++
    repeated style.indicator (indicatorWidth span line) ++ "\n"

/-- The report as text, with the place shown when there is one. -/
def render (style : DiagnosticStyle) (d : Diagnostic) (source : Option SourceFile) : String :=
  let header := d.severity.text ++ "[" ++ d.kind.code ++ "]: " ++ d.message ++ "\n"
  let place :=
    if d.span.isNowhere then ""
    else
      let name := (source.map SourceFile.name).getD "<source>"
      let line := if style.showSource then source.bind (·.line? d.span.start.line) else none
      " --> " ++ name ++ ":" ++ d.span.start.text ++ "\n" ++
        (line.map (style.sourceLines d.span)).getD ""
  let help :=
    match style.showHelp, d.help with
    | true, some text => "  = help: " ++ text ++ "\n"
    | _, _ => ""
  header ++ place ++ help

end DiagnosticStyle

/-- The report in the default style, with the text it is about. -/
def Diagnostic.render (d : Diagnostic) (source : SourceFile) : String :=
  ({} : DiagnosticStyle).render d (some source)

end StackScript
