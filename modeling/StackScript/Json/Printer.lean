import StackScript.Json.Basic
import StackScript.Number.Shortest

/-!
# JSON text

## Design Notes

Every writer takes the characters that come after its text, so that a text is built back to front
without copying and a reader can be stated on the same shape.
-/

namespace StackScript

/-- How items of arrays and objects are set. -/
inductive JsonLayout where
  /-- Everything on one line without blanks. -/
  | compact
  /-- One item a line, two spaces deeper than its container. -/
  | pretty
  deriving DecidableEq, Repr

namespace JsonLayout

/-- The break before an item at the given depth. -/
def lineBreak : JsonLayout → Nat → List Char → List Char
  | compact, _, rest => rest
  | pretty, depth, rest => '\n' :: (List.replicate (2 * depth) ' ' ++ rest)

/-- What stands between a member's name and its value. -/
def colon : JsonLayout → List Char → List Char
  | compact, rest => ':' :: rest
  | pretty, rest => ':' :: ' ' :: rest

end JsonLayout

namespace Json

/-- The lower-case hexadecimal digit of a number below sixteen. -/
def hexDigit (n : Nat) : Char :=
  if n < 10 then Char.ofNat ('0'.toNat + n) else Char.ofNat ('a'.toNat + (n - 10))

/-- A character as it is written inside a string. -/
def escapeChar (c : Char) : List Char :=
  if c = '"' then ['\\', '"']
  else if c = '\\' then ['\\', '\\']
  else if c = '\n' then ['\\', 'n']
  else if c = '\r' then ['\\', 'r']
  else if c = '\t' then ['\\', 't']
  else if c = '\x08' then ['\\', 'b']
  else if c = '\x0c' then ['\\', 'f']
  else if c.toNat < 32 then
    ['\\', 'u', '0', '0', hexDigit (c.toNat / 16), hexDigit (c.toNat % 16)]
  else [c]

/-- Characters of a string, each as it is written. -/
def writeChars : List Char → List Char → List Char
  | [], rest => rest
  | c :: cs, rest => escapeChar c ++ writeChars cs rest

/-- A string between quotes. -/
def writeString (s : String) (rest : List Char) : List Char :=
  '"' :: writeChars s.toList ('"' :: rest)

/-- Floats are written as literals with at least one place; those that are not numbers as null. -/
def floatText (x : Binary64) : String :=
  if x.isFinite then DecimalLayout.interchange.render x else "null"

mutual

/-- The text of a value at the given depth. -/
def write (layout : JsonLayout) (depth : Nat) : Json → List Char → List Char
  | null, rest => "null".toList ++ rest
  | bool b, rest => (if b then "true" else "false").toList ++ rest
  | int n, rest => (toString n).toList ++ rest
  | float x, rest => (floatText x).toList ++ rest
  | str s, rest => writeString s rest
  | arr [], rest => '[' :: ']' :: rest
  | arr (item :: items), rest =>
    '[' :: layout.lineBreak (depth + 1) (write layout (depth + 1) item
      (writeItems layout (depth + 1) items (layout.lineBreak depth (']' :: rest))))
  | obj [], rest => '\x7b' :: '\x7d' :: rest
  | obj ((key, value) :: members), rest =>
    '\x7b' :: layout.lineBreak (depth + 1) (writeString key (layout.colon
      (write layout (depth + 1) value
        (writeMembers layout (depth + 1) members (layout.lineBreak depth ('\x7d' :: rest))))))

/-- Further items of an array. -/
def writeItems (layout : JsonLayout) (depth : Nat) : List Json → List Char → List Char
  | [], rest => rest
  | item :: items, rest =>
    ',' :: layout.lineBreak depth (write layout depth item (writeItems layout depth items rest))

/-- Further members of an object. -/
def writeMembers (layout : JsonLayout) (depth : Nat) : List (String × Json) → List Char → List Char
  | [], rest => rest
  | (key, value) :: members, rest =>
    ',' :: layout.lineBreak depth (writeString key (layout.colon
      (write layout depth value (writeMembers layout depth members rest))))

end

/-- The text of a value, one item a line. -/
def pretty (j : Json) : String :=
  String.ofList (write .pretty 0 j [])

/-- The text of a value on one line. -/
def compact (j : Json) : String :=
  String.ofList (write .compact 0 j [])

end Json

end StackScript
