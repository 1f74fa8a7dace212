import StackScript.Json.Basic

/-!
# Reading JSON

## Design Notes

Values nest at most 127 deep.  A number with a fraction or an exponent is read in two roundings:
its leading digits, as many as fit 64 bits, are rounded to a float, and that is multiplied or
divided by a power of ten.
-/

namespace StackScript

namespace Json

/-- Whether a character may stand between the parts of a text. -/
def isBlank (c : Char) : Bool :=
  c = ' ' || c = '\n' || c = '\t' || c = '\r'

/-- A text without the blanks in front. -/
def skipBlanks (cs : List Char) : List Char :=
  cs.dropWhile isBlank

/-! ### Strings -/

/-- The value of a hexadecimal digit. -/
def hexValue? (c : Char) : Option Nat :=
  if '0' ≤ c ∧ c ≤ '9' then some (c.toNat - '0'.toNat)
  else if 'a' ≤ c ∧ c ≤ 'f' then some (c.toNat - 'a'.toNat + 10)
  else if 'A' ≤ c ∧ c ≤ 'F' then some (c.toNat - 'A'.toNat + 10)
  else none

/-- The value of four hexadecimal digits. -/
def hexQuad? (a b c d : Char) : Option Nat := do
  return ((← hexValue? a) * 16 + (← hexValue? b)) * 256 + (← hexValue? c) * 16 + (← hexValue? d)

/-- The character that stands after a backslash for another one. -/
def unescape? (c : Char) : Option Char :=
  if c = '"' || c = '\\' || c = '/' then some c
  else if c = 'b' then some '\x08'
  else if c = 'f' then some '\x0c'
  else if c = 'n' then some '\n'
  else if c = 'r' then some '\r'
  else if c = 't' then some '\t'
  else none

/-- The characters of a string up to its closing quote, and what follows. -/
def readString : List Char → Option (List Char × List Char)
  | [] => none
  | '"' :: rest => some ([], rest)
  | '\\' :: 'u' :: a :: b :: c :: d :: rest => do
    let unit ← hexQuad? a b c d
    if unit < 0xD800 ∨ 0xDFFF < unit then
      let (cs, rest') ← readString rest
      return (Char.ofNat unit :: cs, rest')
    else if 0xDC00 ≤ unit then none
    else
      match rest with
      | '\\' :: 'u' :: a' :: b' :: c' :: d' :: rest₂ =>
        let low ← hexQuad? a' b' c' d'
        if 0xDC00 ≤ low ∧ low ≤ 0xDFFF then
          let (cs, rest') ← readString rest₂
          return (Char.ofNat (0x10000 + (unit - 0xD800) * 1024 + (low - 0xDC00)) :: cs, rest')
        else none
      | _ => none
  | '\\' :: e :: rest => do
    let c ← unescape? e
    let (cs, rest') ← readString rest
    return (c :: cs, rest')
  | c :: rest =>
    if c.toNat < 32 ∨ c = '\\' then none
    else do
      let (cs, rest') ← readString rest
      return (c :: cs, rest')

/-! ### Numbers -/

/-- The largest significand. -/
def significandLimit : Nat :=
  twoPow 64

/-- Appends decimal digits to a significand while it fits; also gives the number of digits used. -/
def accumulate : Nat → List Char → Nat × Nat
  | acc, [] => (acc, 0)
  | acc, c :: cs =>
    let next := acc * 10 + (c.toNat - '0'.toNat)
    if next < significandLimit then
      let (value, used) := accumulate next cs
      (value, used + 1)
    else (acc, 0)

/-- A power of ten as a float. -/
def powerOfTen (n : Nat) : Binary64 :=
  Binary64.ofDecimal false 1 n

/-- A float divided by a power of ten, in steps that are floats themselves. -/
def scaleDown (x : Binary64) (n : Nat) : Binary64 :=
  if h : n ≤ 308 then x.div (powerOfTen n)
  else if x.magnitude = 0 then x
  else scaleDown (x.div (powerOfTen 308)) (n - 308)
termination_by n

/-- A significand times a power of ten; there is none beyond the largest float. -/
def scale? (significand : Nat) (exponent : Int) : Option Binary64 :=
  let x := Binary64.ofInt significand
  match exponent with
  | .ofNat n =>
    if n ≤ 308 then
      let y := x.mul (powerOfTen n)
      if y.isFinite then some y else none
    else if significand = 0 then some x
    else none
  | .negSucc n => some (scaleDown x (n + 1))

/-- A number from its sign, digits and exponent. -/
def numberOf? (negative : Bool) (whole : List Char) (fraction : List Char) (exponent : Option Int) : Option Json :=
  let (front, usedFront) := accumulate 0 whole
  let left := whole.length - usedFront
  if fraction.isEmpty ∧ exponent.isNone ∧ left = 0 ∧ !negative then some (.int front)
  else if fraction.isEmpty ∧ exponent.isNone ∧ left = 0 ∧ 0 < front ∧ front ≤ twoPow 63 then
    some (.int (-front))
  else do
    let (significand, usedFraction) := accumulate front fraction
    let shift : Int := left - usedFraction + exponent.getD 0
    let x ← scale? significand shift
    return .float (if negative then x.neg else x)

/-- Whether a text starts with a digit. -/
def startsWithDigit : List Char → Bool
  | [] => false
  | c :: _ => c.isDigit

/-- The digits in front and what follows. -/
def digits (cs : List Char) : List Char × List Char :=
  (cs.takeWhile Char.isDigit, cs.dropWhile Char.isDigit)

/-- The fraction's digits and what follows; a point needs a digit after it. -/
def readFraction (cs : List Char) : Option (List Char × List Char) :=
  match cs with
  | '.' :: rest => if startsWithDigit rest then some (digits rest) else none
  | _ => some ([], cs)

/-- The exponent and what follows; its mark needs a digit after it. -/
def readExponent (cs : List Char) : Option (Option Int × List Char) :=
  let unsigned (negative : Bool) (rest : List Char) : Option (Option Int × List Char) :=
    if startsWithDigit rest then
      let (ds, after) := digits rest
      let n := ds.foldl (fun acc c => acc * 10 + (c.toNat - '0'.toNat)) 0
      some (some (if negative then -(n : Int) else n), after)
    else none
  match cs with
  | [] => some (none, [])
  | e :: rest =>
    if e = 'e' ∨ e = 'E' then
      match rest with
      | '+' :: rest' => unsigned false rest'
      | '-' :: rest' => unsigned true rest'
      | _ => unsigned false rest
    else some (none, cs)

/-- A number and what follows; digits after a leading zero are refused. -/
def readNumber (cs : List Char) : Option (Json × List Char) := do
  let negative := cs.head? = some '-'
  let cs := if negative then cs.drop 1 else cs
  let (whole, rest) := digits cs
  if whole.isEmpty ∨ (whole.head? = some '0' ∧ whole.length ≠ 1) then none
  else
    let (fraction, rest) ← readFraction rest
    let (exponent, rest) ← readExponent rest
    let j ← numberOf? negative whole fraction exponent
    return (j, rest)

/-! ### Values -/

mutual

/-- A value and what follows it, with `depth` levels of nesting left. -/
def readValue : Nat → Nat → List Char → Option (Json × List Char)
  | 0, _, _ => none
  | fuel + 1, depth, cs =>
    match cs with
    | [] => none
    | '"' :: rest => do
      let (s, rest) ← readString rest
      return (.str (String.ofList s), rest)
    | '[' :: rest =>
      if depth ≤ 1 then none
      else
        match skipBlanks rest with
        | ']' :: rest => some (.arr [], rest)
        | rest => do
          let (items, rest) ← readItems fuel (depth - 1) rest
          return (.arr items, rest)
    | '\x7b' :: rest =>
      if depth ≤ 1 then none
      else
        match skipBlanks rest with
        | '\x7d' :: rest => some (.obj [], rest)
        | rest => do
          let (members, rest) ← readMembers fuel (depth - 1) rest
          return (.obj members, rest)
    | 'n' :: 'u' :: 'l' :: 'l' :: rest => some (.null, rest)
    | 't' :: 'r' :: 'u' :: 'e' :: rest => some (.bool true, rest)
    | 'f' :: 'a' :: 'l' :: 's' :: 'e' :: rest => some (.bool false, rest)
    | cs => readNumber cs

/-- The items of an array up to its closing bracket. -/
def readItems : Nat → Nat → List Char → Option (List Json × List Char)
  | 0, _, _ => none
  | fuel + 1, depth, cs => do
    let (item, rest) ← readValue fuel depth cs
    match skipBlanks rest with
    | ']' :: rest => some ([item], rest)
    | ',' :: rest =>
      let (items, rest) ← readItems fuel depth (skipBlanks rest)
      return (item :: items, rest)
    | _ => none

/-- The members of an object up to its closing brace. -/
def readMembers : Nat → Nat → List Char → Option (List (String × Json) × List Char)
  | 0, _, _ => none
  | fuel + 1, depth, cs =>
    match cs with
    | '"' :: rest => do
      let (key, rest) ← readString rest
      match skipBlanks rest with
      | ':' :: rest =>
        let (value, rest) ← readValue fuel depth (skipBlanks rest)
        let member := (String.ofList key, value)
        match skipBlanks rest with
        | '\x7d' :: rest => some ([member], rest)
        | ',' :: rest =>
          let (members, rest) ← readMembers fuel depth (skipBlanks rest)
          return (member :: members, rest)
        | _ => none
      | _ => none
    | _ => none

end

/-- The value that a whole text stands for. -/
def ofText? (text : String) : Option Json := do
  let cs := text.toList
  let (j, rest) ← readValue (2 * cs.length + 2) 128 (skipBlanks cs)
  if (skipBlanks rest).isEmpty then some j else none

end Json

end StackScript
