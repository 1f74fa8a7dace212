import StackScript.Json.Reader
import StackScript.Toml.Basic

/-!
# Scalars of settings files

## Design Notes

An unquoted value ends where a blank, a comment or a bracket starts, so it is cut out first and then
read as a whole.
-/

namespace StackScript

namespace Toml

/-! ### Characters -/

/-- A blank inside a line. -/
def isSpace (c : Char) : Bool :=
  c = ' ' || c = '\t'

/-- A character that may stand in comments and strings. -/
def isPlain (c : Char) : Bool :=
  c = '\t' || (0x20 ≤ c.toNat && c.toNat ≠ 0x7F)

/-- A character of an unquoted key. -/
def isBare (c : Char) : Bool :=
  c.isAlphanum || c = '_' || c = '-'

/-! ### Strings -/

/-- The number of hexadecimal digits. -/
def hexNumber? : List Char → Option Nat :=
  List.foldlM (fun n c => (Json.hexValue? c).map (n * 16 + ·)) 0

/-- The character with a code; not every number is one. -/
def charOf? (n : Nat) : Option Char :=
  if n < 0xD800 || (0xDFFF < n && n < 0x110000) then some (Char.ofNat n) else none

/-- The character that stands after a backslash for another one. -/
def unescape? (c : Char) : Option Char :=
  if c = '"' || c = '\\' then some c
  else if c = 'b' then some '\x08'
  else if c = 't' then some '\t'
  else if c = 'n' then some '\n'
  else if c = 'f' then some '\x0c'
  else if c = 'r' then some '\r'
  else none

/-- Puts a character in front of what was read. -/
def consRead (c : Char) (r : Option (List Char × List Char)) : Option (List Char × List Char) :=
  r.map fun (cs, rest) => (c :: cs, rest)

/-- A string with escapes up to its closing quote, and what follows. -/
def readBasic : List Char → Option (List Char × List Char)
  | [] => none
  | '"' :: rest => some ([], rest)
  | '\\' :: 'u' :: a :: b :: c :: d :: rest => do
    consRead (← charOf? (← hexNumber? [a, b, c, d])) (readBasic rest)
  | '\\' :: 'U' :: a :: b :: c :: d :: e :: f :: g :: h :: rest => do
    consRead (← charOf? (← hexNumber? [a, b, c, d, e, f, g, h])) (readBasic rest)
  | '\\' :: e :: rest => do
    consRead (← unescape? e) (readBasic rest)
  | c :: rest => if c ≠ '\\' && isPlain c then consRead c (readBasic rest) else none

/-- A string without escapes up to its closing quote, and what follows. -/
def readLiteral : List Char → Option (List Char × List Char)
  | [] => none
  | c :: rest =>
    if c = '\x27' then some ([], rest)
    else if isPlain c then consRead c (readLiteral rest)
    else none

/-- What follows the closing quotes of a string of several lines; up to two more quotes belong to the
string. -/
def closeLong (quote : Char) (rest : List Char) : Option (List Char × List Char) :=
  let more := rest.takeWhile (· = quote)
  if more.length ≤ 2 then some (more, rest.drop more.length) else none

/-- Whether only blanks are left on a line. -/
def lineEnds (cs : List Char) : Bool :=
  match cs.dropWhile isSpace with
  | '\n' :: _ => true
  | '\r' :: '\n' :: _ => true
  | _ => false

/-- A string of several lines with escapes; while `folding`, blanks and line breaks are skipped. -/
def readLongBasic (folding : Bool) : List Char → Option (List Char × List Char)
  | [] => none
  | '"' :: '"' :: '"' :: rest => closeLong '"' rest
  | '\r' :: '\n' :: rest =>
    if folding then readLongBasic true rest else consRead '\n' (readLongBasic false rest)
  | '\\' :: 'u' :: a :: b :: c :: d :: rest => do
    consRead (← charOf? (← hexNumber? [a, b, c, d])) (readLongBasic false rest)
  | '\\' :: 'U' :: a :: b :: c :: d :: e :: f :: g :: h :: rest => do
    consRead (← charOf? (← hexNumber? [a, b, c, d, e, f, g, h])) (readLongBasic false rest)
  | '\\' :: e :: rest =>
    if lineEnds (e :: rest) then
      if e = '\r' then readLongBasic true (rest.drop 1) else readLongBasic true rest
    else do
      consRead (← unescape? e) (readLongBasic false rest)
  | c :: rest =>
    if folding && (isSpace c || c = '\n') then readLongBasic true rest
    else if c = '\n' || (c ≠ '\\' && isPlain c) then consRead c (readLongBasic false rest)
    else none
termination_by cs => cs.length

/-- A string of several lines without escapes. -/
def readLongLiteral : List Char → Option (List Char × List Char)
  | [] => none
  | '\x27' :: '\x27' :: '\x27' :: rest => closeLong '\x27' rest
  | '\r' :: '\n' :: rest => consRead '\n' (readLongLiteral rest)
  | c :: rest => if c = '\n' || isPlain c then consRead c (readLongLiteral rest) else none

/-- A text without a line break in front. -/
def dropLineBreak : List Char → List Char
  | '\n' :: rest => rest
  | '\r' :: '\n' :: rest => rest
  | cs => cs

/-- A string on one line, as a key may be. -/
def readShort : List Char → Option (List Char × List Char)
  | '"' :: rest => readBasic rest
  | '\x27' :: rest => readLiteral rest
  | _ => none

/-- A string in one of the four kinds of quotes, and what follows. -/
def readQuoted : List Char → Option (List Char × List Char)
  | '"' :: '"' :: '"' :: rest => readLongBasic false (dropLineBreak rest)
  | '\x27' :: '\x27' :: '\x27' :: rest => readLongLiteral (dropLineBreak rest)
  | cs => readShort cs

/-! ### Numbers -/

/-- Digits without the underscores between them. -/
def ungroup? (p : Char → Bool) : List Char → Option (List Char)
  | [] => none
  | [c] => if p c then some [c] else none
  | c :: '_' :: rest => if p c then (ungroup? p rest).map (c :: ·) else none
  | c :: rest => if p c then (ungroup? p rest).map (c :: ·) else none

/-- The number of digits in a base. -/
def digitsValue (base : Nat) (ds : List Char) : Nat :=
  ds.foldl (fun n c => n * base + (Json.hexValue? c).getD 0) 0

/-- Digits of a base with underscores between them, as a number. -/
def radix? (base : Nat) (cs : List Char) : Option Nat := do
  let ds ← ungroup? (fun c => (Json.hexValue? c).any (· < base)) cs
  return digitsValue base ds

/-- Decimal digits without a zero in front. -/
def wholeDigits? (cs : List Char) : Option (List Char) := do
  let ds ← ungroup? Char.isDigit cs
  if ds.head? = some '0' && ds.length ≠ 1 then none else some ds

/-- A number as a signed integer of 64 bits. -/
def int64? (n : Int) : Option Toml :=
  if -(twoPow 63 : Int) ≤ n ∧ n < twoPow 63 then some (.int n) else none

/-- A sign and what follows. -/
def splitSign : List Char → Bool × List Char
  | '-' :: cs => (true, cs)
  | '+' :: cs => (false, cs)
  | cs => (false, cs)

/-- An integer: decimal with or without a sign, or in base 16, 8 or 2. -/
def int? (cs : List Char) : Option Toml :=
  match cs with
  | '0' :: 'x' :: ds => do int64? (← radix? 16 ds)
  | '0' :: 'o' :: ds => do int64? (← radix? 8 ds)
  | '0' :: 'b' :: ds => do int64? (← radix? 2 ds)
  | cs => do
    let (negative, cs) := splitSign cs
    let n := digitsValue 10 (← wholeDigits? cs)
    int64? (if negative then -n else n)

/-- The exponent of a float, if there is one. -/
def exponent? : List Char → Option Int
  | [] => some 0
  | e :: cs =>
    if e = 'e' || e = 'E' then do
      let (negative, cs) := splitSign cs
      let n := digitsValue 10 (← ungroup? Char.isDigit cs)
      return if negative then -n else n
    else none

/-- A character of a group of digits. -/
def inGroup (c : Char) : Bool :=
  c.isDigit || c = '_'

/-- A float with a fraction or an exponent; one beyond the largest is refused unless negative. -/
def float? (cs : List Char) : Option Toml := do
  let (negative, cs) := splitSign cs
  let whole ← wholeDigits? (cs.takeWhile inGroup)
  let rest := cs.dropWhile inGroup
  let (fraction, rest) ←
    match rest with
    | '.' :: rest =>
      (ungroup? Char.isDigit (rest.takeWhile inGroup)).map (·, rest.dropWhile inGroup)
    | rest => if rest.isEmpty then none else some ([], rest)
  let e ← exponent? rest
  let x := Binary64.ofDecimal negative (digitsValue 10 (whole ++ fraction)) (e - fraction.length)
  if x.isFinite || x.isNegative then some (.float x) else none

/-- Infinity and NaN. -/
def special? (cs : List Char) : Option Toml :=
  let (negative, cs) := splitSign cs
  if cs = ['i', 'n', 'f'] then some (.float (.ofMagnitude negative Binary64.infinityMagnitude))
  else if cs = ['n', 'a', 'n'] then some (.float .nan)
  else none

/-! ### Dates -/

/-- Two digits that stand for a number in a range, and what follows. -/
def twoDigits? (lo hi : Nat) : List Char → Option (Nat × List Char)
  | a :: b :: rest =>
    if a.isDigit && b.isDigit then
      let n := digitsValue 10 [a, b]
      if lo ≤ n ∧ n ≤ hi then some (n, rest) else none
    else none
  | _ => none

/-- A given character, and what follows. -/
def expect? (c : Char) : List Char → Option (List Char)
  | d :: rest => if c = d then some rest else none
  | [] => none

/-- The days of a month. -/
def daysOf (year month : Nat) : Nat :=
  if month = 2 then
    if year % 4 = 0 ∧ (year % 100 ≠ 0 ∨ year % 400 = 0) then 29 else 28
  else if month = 4 ∨ month = 6 ∨ month = 9 ∨ month = 11 then 30
  else 31

/-- What follows a date. -/
def afterDate? (cs : List Char) : Option (List Char) := do
  let (century, cs) ← twoDigits? 0 99 cs
  let (years, cs) ← twoDigits? 0 99 cs
  let (month, cs) ← twoDigits? 1 12 (← expect? '-' cs)
  let (_, cs) ← twoDigits? 1 (daysOf (century * 100 + years) month) (← expect? '-' cs)
  return cs

/-- What follows a fraction of a second. -/
def afterFraction? (cs : List Char) : Option (List Char) :=
  match cs with
  | '.' :: rest =>
    let ds := rest.takeWhile Char.isDigit
    if ds.isEmpty then none else some (rest.drop ds.length)
  | cs => some cs

/-- What follows a time. -/
def afterTime? (cs : List Char) : Option (List Char) := do
  let (_, cs) ← twoDigits? 0 23 cs
  let (_, cs) ← twoDigits? 0 59 (← expect? ':' cs)
  let (_, cs) ← twoDigits? 0 60 (← expect? ':' cs)
  afterFraction? cs

/-- What follows an offset from universal time. -/
def afterOffset? (cs : List Char) : Option (List Char) :=
  match cs with
  | [] => some []
  | c :: rest =>
    if c = 'Z' || c = 'z' then some rest
    else if c = '+' || c = '-' then do
      let (_, cs) ← twoDigits? 0 23 rest
      let (_, cs) ← twoDigits? 0 59 (← expect? ':' cs)
      return cs
    else none

/-- Whether a text is a time with or without an offset. -/
def isOffsetTime (cs : List Char) : Bool :=
  ((afterTime? cs).bind afterOffset?).any (·.isEmpty)

/-- Whether a text is a date alone. -/
def isDate (cs : List Char) : Bool :=
  (afterDate? cs).any (·.isEmpty)

/-- A date, a time, or a date and a time with the letter T between. -/
def date? (cs : List Char) : Option Toml :=
  if (afterTime? cs).any (·.isEmpty) || isDate cs then some .date
  else
    match afterDate? cs with
    | some (t :: rest) => if (t = 'T' || t = 't') && isOffsetTime rest then some .date else none
    | _ => none

/-! ### Words -/

/-- A truth value. -/
def bool? (cs : List Char) : Option Toml :=
  if cs = ['t', 'r', 'u', 'e'] then some (.bool true)
  else if cs = ['f', 'a', 'l', 's', 'e'] then some (.bool false)
  else none

/-- An unquoted value. -/
def ofWord? (cs : List Char) : Option Toml :=
  bool? cs <|> date? cs <|> int? cs <|> float? cs <|> special? cs

end Toml

end StackScript
