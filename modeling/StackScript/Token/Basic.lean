import StackScript.Number.Shortest
import StackScript.Text.Position
import StackScript.Text.Quoted
import StackScript.Text.Utf8

/-!
# Tokens

The words of a source text: keywords, names, literals and marks.

## Design Notes

A string with interpolated expressions is cut into a first piece, middle pieces and a last piece,
each holding the text up to the next expression or the closing quote.
-/

namespace StackScript

/-- Words with a fixed meaning. -/
inductive Keyword where
  | fn | async | await | external | export_ | let_ | const | if_ | else_ | while_ | for_ | in_
  | break_ | continue_ | return_ | struct | enum | match_ | as_
  deriving DecidableEq, Repr

namespace Keyword

/-- The spelling of a keyword. -/
def text : Keyword → String
  | fn => "fn"
  | async => "async"
  | await => "await"
  | external => "extern"
  | export_ => "export"
  | let_ => "let"
  | const => "const"
  | if_ => "if"
  | else_ => "else"
  | while_ => "while"
  | for_ => "for"
  | in_ => "in"
  | break_ => "break"
  | continue_ => "continue"
  | return_ => "return"
  | struct => "struct"
  | enum => "enum"
  | match_ => "match"
  | as_ => "as"

/-- All keywords. -/
def all : List Keyword :=
  [fn, async, await, external, export_, let_, const, if_, else_, while_, for_, in_, break_,
    continue_, return_, struct, enum, match_, as_]

/-- The keyword with the given spelling. -/
def ofText? (s : String) : Option Keyword :=
  all.find? fun k => k.text == s

theorem mem_all (k : Keyword) : k ∈ all := by
  cases k <;> decide

end Keyword

/-- Operators and delimiters. -/
inductive Mark where
  | plus | minus | star | slash | percent
  | assign | plusAssign | minusAssign | starAssign | slashAssign
  | eq | ne | lt | le | gt | ge | and | or | not | path
  | lparen | rparen | lbracket | rbracket | lbrace | rbrace
  | comma | colon | semicolon | dot | arrow | fatArrow | question
  deriving DecidableEq, Repr

namespace Mark

/-- The spelling of a mark. -/
def text : Mark → String
  | plus => "+"
  | minus => "-"
  | star => "*"
  | slash => "/"
  | percent => "%"
  | assign => "="
  | plusAssign => "+="
  | minusAssign => "-="
  | starAssign => "*="
  | slashAssign => "/="
  | eq => "=="
  | ne => "!="
  | lt => "<"
  | le => "<="
  | gt => ">"
  | ge => ">="
  | and => "&&"
  | or => "||"
  | not => "!"
  | path => "::"
  | lparen => "("
  | rparen => ")"
  | lbracket => "["
  | rbracket => "]"
  | lbrace => "\x7b"
  | rbrace => "\x7d"
  | comma => ","
  | colon => ":"
  | semicolon => ";"
  | dot => "."
  | arrow => "->"
  | fatArrow => "=>"
  | question => "?"

end Mark

/-- What a token is. -/
inductive TokenKind where
  | keyword (k : Keyword)
  | ident (name : String)
  | underscore
  | int (value : Nat)
  | float (value : Binary64)
  | bool (value : Bool)
  | str (value : String)
  | bytes (value : List UInt8)
  /-- Text of an interpolated string before its first expression. -/
  | strStart (value : String)
  /-- Text between two expressions. -/
  | strMiddle (value : String)
  /-- Text after the last expression. -/
  | strEnd (value : String)
  | mark (m : Mark)
  /-- The end of the text. -/
  | eof
  deriving DecidableEq, Repr

namespace TokenKind

/-- The spelling of a truth value. -/
def boolText (b : Bool) : String :=
  if b then "true" else "false"

/-- The token as it is written. -/
def text : TokenKind → String
  | keyword k => k.text
  | ident name => name
  | underscore => "_"
  | int n => toString n
  | float x => DecimalLayout.plain.render x
  | bool b => boolText b
  | str s => Quoted.quote s
  | bytes bs => "b" ++ Quoted.quote (Utf8.decodeLossy bs)
  | strStart s => "\"" ++ s ++ "\x7b"
  | strMiddle s => "\x7d" ++ s ++ "\x7b"
  | strEnd s => "\x7d" ++ s ++ "\""
  | mark m => m.text
  | eof => "<eof>"

/-- The token as an error message names it. -/
def describe : TokenKind → String
  | ident name => "identifier '" ++ name ++ "'"
  | int n => "integer " ++ toString n
  | float x => "float " ++ DecimalLayout.plain.render x
  | str _ => "string literal"
  | bytes _ => "byte string literal"
  | strStart _ | strMiddle _ | strEnd _ => "interpolated string"
  | eof => "end of input"
  | other => "'" ++ other.text ++ "'"

end TokenKind

/-- A token and where it stands. -/
structure Token where
  kind : TokenKind
  span : Span
  deriving DecidableEq, Repr

/-- Why a text cannot be cut into tokens. -/
inductive LexFault where
  /-- A string, or an expression inside one, is still open at the end of the text. -/
  | unterminatedString
  /-- A block comment is still open at the end of the text. -/
  | unterminatedComment
  /-- A backslash stands before a character that has no escape. -/
  | invalidEscape (c : Char)
  /-- Digits that are no number, or run into a word. -/
  | invalidNumber (text : String)
  /-- A character that starts no token. -/
  | unexpectedChar (c : Char)
  deriving DecidableEq, Repr

namespace LexFault

/-- The error text. -/
def message : LexFault → String
  | unterminatedString => "unterminated string literal"
  | unterminatedComment => "unterminated block comment"
  | invalidEscape c => "invalid escape sequence '\\" ++ c.toString ++ "'"
  | invalidNumber text => "invalid number literal '" ++ text ++ "'"
  | unexpectedChar c => "unexpected character '" ++ c.toString ++ "'"

/-- What would have been right. -/
def expectation : LexFault → String
  | unterminatedString => "a closing '\"' before the end of input"
  | unterminatedComment => "a closing '*/' before the end of input"
  | invalidEscape _ => "one of \\n \\t \\r \\0 \\\\ \\\" \\\x7b \\\x7d"
  | invalidNumber _ => "a well-formed integer or float literal"
  | unexpectedChar _ => "an operator, delimiter, literal or identifier"

end LexFault

/-- A fault and where it is. -/
structure LexError where
  fault : LexFault
  span : Span
  deriving DecidableEq, Repr

end StackScript
