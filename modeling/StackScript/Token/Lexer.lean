import StackScript.Text.Identifier
import StackScript.Token.Basic

/-!
# Cutting a text into tokens

## Design Notes

The lexer keeps the text not yet read, the place reached and, for every interpolated string that is
open, how many braces are open inside its current expression.  Everything that looks at characters
is a function on the list of characters in front; the lexer itself only reads that many of them.
-/

namespace StackScript

/-! ### Gaps -/

/-- Where in a gap between tokens the reading is. -/
inductive Gap where
  /-- Between blanks and comments. -/
  | blank
  /-- In a comment that runs to the end of the line. -/
  | line
  /-- In a block comment that opened after `opened` characters of the gap, with `depth` more
  comments open inside it. -/
  | block (opened depth : Nat)
  deriving DecidableEq, Repr

namespace Gap

/-- Whether a character separates tokens. -/
def isBlank (c : Char) : Bool :=
  c = ' ' || c = '\t' || c = '\r' || c = '\n'

/-- The number of characters before the next token when `n` of them are already read.  An open
block comment at the end of the text is an error that gives the place where it opened. -/
def scan : Gap → Nat → List Char → Except Nat Nat
  | blank, n, [] => .ok n
  | line, n, [] => .ok n
  | block opened _, _, [] => .error opened
  | blank, n, '/' :: '/' :: cs => scan line (n + 2) cs
  | blank, n, '/' :: '*' :: cs => scan (block n 0) (n + 2) cs
  | blank, n, c :: cs => if isBlank c then scan blank (n + 1) cs else .ok n
  | line, n, c :: cs => if c = '\n' then scan blank (n + 1) cs else scan line (n + 1) cs
  | block opened depth, n, '/' :: '*' :: cs => scan (block opened (depth + 1)) (n + 2) cs
  | block _ 0, n, '*' :: '/' :: cs => scan blank (n + 2) cs
  | block opened (depth + 1), n, '*' :: '/' :: cs => scan (block opened depth) (n + 2) cs
  | block opened depth, n, _ :: cs => scan (block opened depth) (n + 1) cs

/-- The number of characters before the next token. -/
def length (cs : List Char) : Except Nat Nat :=
  scan blank 0 cs

end Gap

/-! ### Lexemes -/

/-- The front of a text, read as a token. -/
structure Lexeme where
  /-- Number of characters read. -/
  length : Nat
  /-- The token, or what is wrong. -/
  outcome : Except LexFault TokenKind
  /-- Number of characters before the place of a fault. -/
  faultAt : Nat := 0
  /-- Braces open in the expressions of the open interpolated strings, innermost first. -/
  regions : List Nat

/-- How the text of a string ends. -/
inductive BodyEnd where
  | quote
  | brace
  | missing
  | badEscape (c : Char)
  deriving DecidableEq, Repr

/-- The text of a string up to its end. -/
structure Body where
  /-- Characters, with escapes replaced. -/
  text : List Char
  /-- Number of characters read. -/
  length : Nat
  /-- What ended the text. -/
  stop : BodyEnd

namespace Body

/-- A body with one more character, written as `n` characters, in front. -/
def push (c : Char) (n : Nat) (b : Body) : Body :=
  { b with text := c :: b.text, length := n + b.length }

/-- The character that stands after a backslash for another one. -/
def unescape? (c : Char) : Option Char :=
  if c = 'n' then some '\n'
  else if c = 't' then some '\t'
  else if c = 'r' then some '\r'
  else if c = '0' then some (Char.ofNat 0)
  else if c = '\\' || c = '"' || c = '\x7b' || c = '\x7d' then some c
  else none

/-- Reads the text of a string; an opening brace ends it when the string interpolates. -/
def scan (interpolates : Bool) : List Char → Body
  | [] => ⟨[], 0, .missing⟩
  | '\\' :: [] => ⟨[], 1, .missing⟩
  | '\\' :: e :: cs =>
    match unescape? e with
    | some c => (scan interpolates cs).push c 2
    | none => ⟨[], 2, .badEscape e⟩
  | c :: cs =>
    if c = '"' then ⟨[], 1, .quote⟩
    else if interpolates && c = '\x7b' then ⟨[], 1, .brace⟩
    else (scan interpolates cs).push c 1

end Body

namespace Lexeme

/-- The limit of integer literals: they are below `twoPow 127`. -/
def intLimit : Nat :=
  twoPow 127

/-- The value of a digit in a radix up to sixteen. -/
def digitValue? (radix : Nat) (c : Char) : Option Nat :=
  let v := if c.isDigit then c.toNat - '0'.toNat
    else if 'a' ≤ c ∧ c ≤ 'f' then c.toNat - 'a'.toNat + 10
    else if 'A' ≤ c ∧ c ≤ 'F' then c.toNat - 'A'.toNat + 10
    else radix
  if v < radix then some v else none

/-- The value of digits after others of value `acc`. -/
def digitsValue? (radix : Nat) : Nat → List Char → Option Nat
  | acc, [] => some acc
  | acc, c :: cs => do digitsValue? radix (acc * radix + (← digitValue? radix c)) cs

/-- The value of a number in a radix; there is none without a digit. -/
def natOfDigits? (radix : Nat) (cs : List Char) : Option Nat :=
  if cs.isEmpty then none else digitsValue? radix 0 cs

/-- An integer literal with the given characters, or the fault that it is none. -/
def intOrFault (text : List Char) (value : Option Nat) : Except LexFault TokenKind :=
  match value with
  | some n =>
    if n < intLimit then .ok (.int n) else .error (.invalidNumber (String.ofList text))
  | none => .error (.invalidNumber (String.ofList text))

/-- Characters without the separators between digits. -/
def withoutSeparators (cs : List Char) : List Char :=
  cs.filter (· ≠ '_')

/-- A number after `0x` or `0b`: letters and digits of any kind belong to it. -/
def radixNumber (regions : List Nat) (radix : Nat) (marker : Char) (cs : List Char) : Lexeme :=
  let run := cs.takeWhile fun c => c.isAlphanum || c = '_'
  let text := '0' :: marker :: run
  { length := text.length
    outcome := intOrFault text (natOfDigits? radix (withoutSeparators run))
    regions }

/-- Digits and separators at the front. -/
def digitRun (cs : List Char) : List Char :=
  cs.takeWhile fun c => c.isDigit || c = '_'

/-- Whether a text starts with a digit. -/
def startsWithDigit : List Char → Bool
  | [] => false
  | c :: _ => c.isDigit

/-- The point and digits at the front; a point without a digit after it is not part of a number. -/
def fractionRun : List Char → List Char
  | '.' :: cs => if startsWithDigit cs then '.' :: digitRun cs else []
  | _ => []

/-- The exponent mark and sign at the front. -/
def exponentMark : List Char → List Char
  | e :: s :: _ =>
    if e = 'e' ∨ e = 'E' then
      if s = '+' ∨ s = '-' then [e, s] else [e]
    else []
  | [e] => if e = 'e' ∨ e = 'E' then [e] else []
  | [] => []

/-- The float written with these parts, separators removed. -/
def floatValue (whole fraction exponentDigits : List Char) (negative : Bool) : Binary64 :=
  let digits := whole ++ fraction
  let mantissa := (digitsValue? 10 0 digits).getD 0
  let exponent : Nat := (digitsValue? 10 0 exponentDigits).getD 0
  let signed : Int := if negative then -exponent else exponent
  Binary64.ofDecimal false mantissa (signed - fraction.length)

/-- A decimal number whose first digit is `first`. -/
def decimalNumber (regions : List Nat) (first : Char) (cs : List Char) : Lexeme :=
  let whole := first :: digitRun cs
  let cs₁ := cs.drop (whole.length - 1)
  let fraction := fractionRun cs₁
  let cs₂ := cs₁.drop fraction.length
  let mark := exponentMark cs₂
  let cs₃ := cs₂.drop mark.length
  if !mark.isEmpty && !startsWithDigit cs₃ then
    let text := whole ++ fraction ++ mark
    { length := text.length
      outcome := .error (.invalidNumber (String.ofList text))
      regions }
  else
    let exponentDigits := if mark.isEmpty then [] else digitRun cs₃
    let word := (cs₃.drop exponentDigits.length).takeWhile Identifier.isPart
    let text := whole ++ fraction ++ mark ++ exponentDigits ++ word
    { length := text.length
      outcome :=
        if !word.isEmpty then .error (.invalidNumber (String.ofList text))
        else if fraction.isEmpty && mark.isEmpty then
          intOrFault text (natOfDigits? 10 (withoutSeparators whole))
        else
          .ok (.float (floatValue (withoutSeparators whole) (withoutSeparators (fraction.drop 1))
            (withoutSeparators exponentDigits) (mark.contains '-')))
      regions }

/-- A number whose first digit is `first`. -/
def number (regions : List Nat) (first : Char) (cs : List Char) : Lexeme :=
  match cs with
  | [] => decimalNumber regions first []
  | c :: rest =>
    if first = '0' ∧ (c = 'x' ∨ c = 'X') then radixNumber regions 16 c rest
    else if first = '0' ∧ (c = 'b' ∨ c = 'B') then radixNumber regions 2 c rest
    else decimalNumber regions first (c :: rest)

/-- A keyword, truth value or name. -/
def wordKind (word : String) : TokenKind :=
  if word = "true" then .bool true
  else if word = "false" then .bool false
  else
    match Keyword.ofText? word with
    | some k => .keyword k
    | none => .ident word

/-- A word that starts with `first`. -/
def word (regions : List Nat) (first : Char) (cs : List Char) : Lexeme :=
  let run := cs.takeWhile Identifier.isPart
  { length := run.length + 1
    outcome := .ok (wordKind (String.ofList (first :: run)))
    regions }

/-- The text of an interpolating string after its opening quote (`fresh`) or after an expression
inside it. -/
def string (regions : List Nat) (fresh : Bool) (cs : List Char) : Lexeme :=
  let body := Body.scan true cs
  let text := String.ofList body.text
  let length := body.length + 1
  match body.stop with
  | .quote => { length, outcome := .ok (if fresh then .str text else .strEnd text), regions }
  | .brace =>
    { length, outcome := .ok (if fresh then .strStart text else .strMiddle text)
      regions := 0 :: regions }
  | .missing => { length, outcome := .error .unterminatedString, regions }
  | .badEscape c =>
    { length, outcome := .error (.invalidEscape c), faultAt := length - 1, regions }

/-- The text of a byte string after its opening quote. -/
def byteString (regions : List Nat) (cs : List Char) : Lexeme :=
  let body := Body.scan false cs
  let length := body.length + 2
  match body.stop with
  | .missing => { length, outcome := .error .unterminatedString, regions }
  | .badEscape c =>
    { length, outcome := .error (.invalidEscape c), faultAt := length - 1, regions }
  | _ => { length, outcome := .ok (.bytes (Utf8.encode (String.ofList body.text))), regions }

/-- The longest mark that starts with `c` when the next character is `next`, and its length. -/
def mark? (c : Char) (next : Option Char) : Option (Mark × Nat) :=
  let withAssign (plain long : Mark) : Option (Mark × Nat) :=
    if next = some '=' then some (long, 2) else some (plain, 1)
  match c with
  | '+' => withAssign .plus .plusAssign
  | '-' => if next = some '>' then some (.arrow, 2) else withAssign .minus .minusAssign
  | '*' => withAssign .star .starAssign
  | '/' => withAssign .slash .slashAssign
  | '%' => some (.percent, 1)
  | ',' => some (.comma, 1)
  | ';' => some (.semicolon, 1)
  | '(' => some (.lparen, 1)
  | ')' => some (.rparen, 1)
  | '[' => some (.lbracket, 1)
  | ']' => some (.rbracket, 1)
  | '.' => some (.dot, 1)
  | '?' => some (.question, 1)
  | '=' => if next = some '>' then some (.fatArrow, 2) else withAssign .assign .eq
  | '!' => withAssign .not .ne
  | '<' => withAssign .lt .le
  | '>' => withAssign .gt .ge
  | '&' => if next = some '&' then some (.and, 2) else none
  | '|' => if next = some '|' then some (.or, 2) else none
  | ':' => if next = some ':' then some (.path, 2) else some (.colon, 1)
  | _ => none

/-- A mark, or the fault that the character starts no token. -/
def markOrFault (regions : List Nat) (c : Char) (cs : List Char) : Lexeme :=
  match mark? c cs.head? with
  | some (m, length) => { length, outcome := .ok (.mark m), regions }
  | none => { length := 1, outcome := .error (.unexpectedChar c), regions }

/-- An opening brace opens one more in the current expression. -/
def openBrace (regions : List Nat) : Lexeme :=
  { length := 1
    outcome := .ok (.mark .lbrace)
    regions :=
      match regions with
      | [] => []
      | depth :: outer => (depth + 1) :: outer }

/-- A closing brace ends the current expression when no other brace is open in it. -/
def closeBrace (regions : List Nat) (cs : List Char) : Lexeme :=
  match regions with
  | [] => { length := 1, outcome := .ok (.mark .rbrace), regions := [] }
  | 0 :: outer => string outer false cs
  | (depth + 1) :: outer => { length := 1, outcome := .ok (.mark .rbrace), regions := depth :: outer }

/-- The token or fault at the front of the text `c :: cs`. -/
def scan (regions : List Nat) (c : Char) (cs : List Char) : Lexeme :=
  if c = 'b' ∧ cs.head? = some '"' then byteString regions (cs.drop 1)
  else if c = '_' ∧ (cs.head?.any Identifier.isPart) = false then
    { length := 1, outcome := .ok .underscore, regions }
  else if Identifier.isStart c then word regions c cs
  else if c.isDigit then number regions c cs
  else if c = '"' then string regions true cs
  else if c = '\x7b' then openBrace regions
  else if c = '\x7d' then closeBrace regions cs
  else markOrFault regions c cs

end Lexeme

/-! ### The lexer -/

/-- A text being cut into tokens. -/
structure Lexer where
  /-- What has not been read. -/
  rest : List Char
  /-- The place reached. -/
  position : Position
  /-- Where the token read last starts. -/
  start : Position
  /-- Braces open in the expressions of the open interpolated strings, innermost first. -/
  regions : List Nat
  /-- Whether the end was reported. -/
  finished : Bool

namespace Lexer

/-- A lexer in front of a text. -/
def ofText (source : String) : Lexer :=
  ⟨source.toList, .first, .first, [], false⟩

/-- Reads `n` characters. -/
def read (l : Lexer) (n : Nat) : Lexer :=
  { l with rest := l.rest.drop n, position := l.position.after (l.rest.take n) }

/-- From the start of the current token to the place reached. -/
def span (l : Lexer) : Span :=
  ⟨l.start, l.position⟩

/-- Starts a token here. -/
def begin_ (l : Lexer) : Lexer :=
  { l with start := l.position }

/-- The token that starts here. -/
def token (l : Lexer) : Except LexError (Option Token) × Lexer :=
  match l.rest with
  | [] =>
    if l.regions.isEmpty then
      (.ok (some ⟨.eof, l.span⟩), { l with finished := true })
    else (.error ⟨.unterminatedString, l.span⟩, l)
  | c :: cs =>
    let lexeme := Lexeme.scan l.regions c cs
    let l' := { l.read lexeme.length with regions := lexeme.regions }
    match lexeme.outcome with
    | .ok kind => (.ok (some ⟨kind, l'.span⟩), l')
    | .error fault => (.error ⟨fault, ⟨(l.read lexeme.faultAt).position, l'.position⟩⟩, l')

/-- The next token, or nothing after the end was reported. -/
def next (l : Lexer) : Except LexError (Option Token) × Lexer :=
  if l.finished then (.ok none, l)
  else
    match Gap.length l.rest with
    | .error opened =>
      let l' := l.read l.rest.length
      (.error ⟨.unterminatedComment, ⟨(l.read opened).position, l'.position⟩⟩, l')
    | .ok n => (l.read n).begin_.token

/-- The next token of a lexer that stops at its first fault. -/
def pull (l : Lexer) : Except LexError (Option Token) × Lexer :=
  match l.next with
  | (.error e, l') => (.error e, { l' with finished := true })
  | r => r

/-- Tokens up to the end or the first fault; at most `fuel` of them. -/
def tokens : Nat → Lexer → Except LexError (List Token)
  | 0, _ => .ok []
  | fuel + 1, l =>
    match l.next with
    | (.error e, _) => .error e
    | (.ok none, _) => .ok []
    | (.ok (some t), l') => (tokens fuel l').map (t :: ·)

end Lexer

/-- The tokens of a text: every token but the last takes a character, so there are at most one more
than characters. -/
def tokenize (source : String) : Except LexError (List Token) :=
  (Lexer.ofText source).tokens (source.toList.length + 2)

end StackScript
