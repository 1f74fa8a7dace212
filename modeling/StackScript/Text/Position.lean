/-!
# Positions and spans

A position names a place between two characters of a source text; a span is a pair of positions.

## Design Notes

Lines and columns count from one, and the column counts characters, while the offset counts bytes
of the UTF-8 encoding.  A span that stands for "no place in the text" starts on line zero, so the
covering operation treats it as a neutral element.
-/

namespace StackScript

/-- A place in a source text. -/
structure Position where
  /-- Line number, counted from one. -/
  line : Nat
  /-- Column in characters, counted from one. -/
  column : Nat
  /-- Number of bytes before the place. -/
  offset : Nat
  deriving DecidableEq, Repr, Inhabited

namespace Position

/-- The place before the first character of a text. -/
def first : Position := ⟨1, 1, 0⟩

/-- The place that is in no text. -/
def nowhere : Position := ⟨0, 0, 0⟩

/-- The place after reading one character: a line feed starts the next line. -/
def step (p : Position) (c : Char) : Position :=
  if c = '\n' then ⟨p.line + 1, 1, p.offset + 1⟩
  else ⟨p.line, p.column + 1, p.offset + c.utf8Size⟩

/-- The place after reading a run of characters. -/
def after (p : Position) (cs : List Char) : Position :=
  cs.foldl step p

@[simp] theorem after_nil (p : Position) : p.after [] = p := rfl

@[simp] theorem after_cons (p : Position) (c : Char) (cs : List Char) : p.after (c :: cs) = (p.step c).after cs := rfl

@[simp] theorem after_append (p : Position) (cs ds : List Char) : p.after (cs ++ ds) = (p.after cs).after ds := by
  simp [after]

/-- A position is shown as its line and column. -/
def text (p : Position) : String :=
  s!"{p.line}:{p.column}"

end Position

/-- The stretch of text from one place to another. -/
structure Span where
  /-- Where the stretch starts. -/
  start : Position
  /-- Where the stretch ends; the character after this place is not part of it. -/
  stop : Position
  deriving DecidableEq, Repr, Inhabited

namespace Span

/-- The span of what has no place in the text. -/
def nowhere : Span := ⟨.nowhere, .nowhere⟩

/-- Whether the span names no place in the text. -/
def isNowhere (s : Span) : Bool :=
  s.start.line == 0

/-- The smallest span that covers both; a span in no text adds nothing. -/
def merge (a b : Span) : Span :=
  if a.isNowhere then b
  else if b.isNowhere then a
  else
    { start := if b.start.offset < a.start.offset then b.start else a.start
      stop := if a.stop.offset < b.stop.offset then b.stop else a.stop }

/-- Number of bytes in the stretch. -/
def length (s : Span) : Nat :=
  s.stop.offset - s.start.offset

/-- Whether the stretch holds no byte. -/
def isEmpty (s : Span) : Bool :=
  s.start.offset == s.stop.offset

/-- A span is shown as the place where it starts. -/
def text (s : Span) : String :=
  s.start.text

@[simp] theorem merge_nowhere_left (b : Span) : nowhere.merge b = b := rfl

theorem merge_nowhere_right {a : Span} (h : a.isNowhere = false) : a.merge nowhere = a := by
  rw [merge, h]
  rfl

end Span

end StackScript
