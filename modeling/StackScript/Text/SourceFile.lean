import StackScript.Text.Position

/-!
# Source files

A named text, seen by lines, by byte offsets and by stretches of bytes.

## Design Notes

`positionAt` counts its column in bytes from the start of the line, so on a line with wide
characters it differs from the column of `Position.after`, which counts characters.
-/

namespace StackScript

/-- A named source text. -/
structure SourceFile where
  /-- Name shown in diagnostics. -/
  name : String
  /-- The whole text. -/
  content : String

namespace SourceFile

/-- Splits a text at its line feeds, which belong to no line. -/
def splitLines : List Char → List (List Char)
  | [] => [[]]
  | c :: cs =>
    if c = '\n' then [] :: splitLines cs
    else
      match splitLines cs with
      | [] => [[c]]
      | l :: ls => (c :: l) :: ls

/-- Byte offsets at which the lines begin, after the byte offset `base`. -/
def startsFrom (base : Nat) : List Char → List Nat
  | [] => []
  | c :: cs =>
    let next := base + c.utf8Size
    if c = '\n' then next :: startsFrom next cs else startsFrom next cs

/-- Byte offset at which every line begins. -/
def lineStarts (f : SourceFile) : List Nat :=
  0 :: startsFrom 0 f.content.toList

/-- Number of lines; an empty text has one. -/
def lineCount (f : SourceFile) : Nat :=
  f.lineStarts.length

/-- The text of line `n`, counted from one, without line feed and trailing carriage returns. -/
def line? (f : SourceFile) (n : Nat) : Option String :=
  if n = 0 then none
  else
    (splitLines f.content.toList)[n - 1]?.map fun cs =>
      String.ofList (cs.reverse.dropWhile (· = '\r')).reverse

/-- The line and byte column of a byte offset. -/
def positionAt (f : SourceFile) (offset : Nat) : Position :=
  let started := f.lineStarts.takeWhile (· ≤ offset)
  ⟨started.length, offset - started.getLastD 0 + 1, offset⟩

/-- Drops `n` bytes, which must end between two characters. -/
def dropBytes? : Nat → List Char → Option (List Char)
  | 0, cs => some cs
  | _ + 1, [] => none
  | n + 1, c :: cs => if c.utf8Size ≤ n + 1 then dropBytes? (n + 1 - c.utf8Size) cs else none
termination_by _ cs => cs.length

/-- Takes `n` bytes, which must end between two characters. -/
def takeBytes? : Nat → List Char → Option (List Char)
  | 0, _ => some []
  | _ + 1, [] => none
  | n + 1, c :: cs =>
    if c.utf8Size ≤ n + 1 then (takeBytes? (n + 1 - c.utf8Size) cs).map (c :: ·) else none
termination_by _ cs => cs.length

/-- The text between two byte offsets; there is none outside the text, inside a character or
when the offsets are in the wrong order. -/
def slice? (f : SourceFile) (start stop : Nat) : Option String :=
  if stop < start then none
  else do
    let rest ← dropBytes? start f.content.toList
    let cs ← takeBytes? (stop - start) rest
    return String.ofList cs

end SourceFile

end StackScript
