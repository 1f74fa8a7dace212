import StackScript.Toml.Scalar

/-!
# Reading settings files

## Design Notes

Values nest at most 79 deep, and keys have at most 79 parts.  A table in braces is put together like a
file: values go to their places one after another, and a place is taken only once.
-/

namespace StackScript

namespace Toml

/-- Values nest, and keys have parts, less often than this. -/
def depthLimit : Nat := 80

/-! ### Tables -/

/-- The entries of a table. -/
abbrev Entries := List (String × Toml)

/-- Replaces the value of a key, or adds it. -/
def setEntry (key : String) (v : Toml) : Entries → Entries
  | [] => [(key, v)]
  | (k, w) :: rest => if k = key then (k, v) :: rest else (k, w) :: setEntry key v rest

/-- Adds a value under a key of several parts.  On the way only tables that dotted keys or longer
headers have made may be passed, and a value goes only into a table that is made like that for it. -/
def addDotted (key : String) (v : Toml) : List String → Entries → Option Entries
  | [], es => if (es.lookup key).isSome then none else some (es ++ [(key, v)])
  | p :: ps, es =>
    match es.lookup p with
    | none => do
      let inner ← addDotted key v ps []
      return es ++ [(p, .table .dotted inner)]
    | some (.table .dotted inner) => do
      return setEntry p (.table .dotted (← addDotted key v ps inner)) es
    | some (.table .implied inner) =>
      if ps.isEmpty then none
      else do
        return setEntry p (.table .implied (← addDotted key v ps inner)) es
    | some (.tables items) =>
      match items.reverse with
      | last :: before =>
        if ps.isEmpty then none
        else do
          return setEntry p (.tables (before.reverse ++ [← addDotted key v ps last])) es
      | [] => none
    | some _ => none

/-- Adds a value under a key with all its parts. -/
def addKey (path : List String) (v : Toml) (es : Entries) : Option Entries :=
  match path.reverse with
  | key :: before => addDotted key v before.reverse es
  | [] => none

/-! ### Blanks -/

/-- A text without the blanks in front. -/
def skipSpaces (cs : List Char) : List Char :=
  cs.dropWhile isSpace

/-- A text without blanks, line breaks and comments in front. -/
def skipTrivia (inComment : Bool) : List Char → List Char
  | [] => []
  | '\r' :: '\n' :: rest => skipTrivia false rest
  | c :: rest =>
    if c = '\n' then skipTrivia false rest
    else if inComment then if isPlain c then skipTrivia true rest else c :: rest
    else if isSpace c then skipTrivia false rest
    else if c = '#' then skipTrivia true rest
    else c :: rest

/-- What follows the end of a line, which blanks and a comment may precede. -/
def endLine? (cs : List Char) : Option (List Char) :=
  let cs := skipSpaces cs
  let cs := if cs.head? = some '#' then cs.dropWhile isPlain else cs
  match cs with
  | [] => some []
  | '\n' :: rest => some rest
  | '\r' :: '\n' :: rest => some rest
  | _ => none

/-! ### Keys -/

/-- A part of a key. -/
def readPart (cs : List Char) : Option (String × List Char) :=
  let bare := cs.takeWhile isBare
  if bare.isEmpty then (readShort cs).map fun (part, rest) => (String.ofList part, rest)
  else some (String.ofList bare, cs.drop bare.length)

/-- The parts of a key and what follows, blanks included. -/
def readParts : Nat → List Char → Option (List String × List Char)
  | 0, _ => none
  | fuel + 1, cs => do
    let (part, rest) ← readPart (skipSpaces cs)
    match skipSpaces rest with
    | '.' :: rest =>
      let (parts, rest) ← readParts fuel rest
      return (part :: parts, rest)
    | rest => return ([part], rest)

/-- A key and what follows. -/
def readKey (cs : List Char) : Option (List String × List Char) :=
  readParts (depthLimit - 1) cs

/-! ### Values -/

/-- Whether an unquoted value ends at a character. -/
def endsWord (c : Char) : Bool :=
  isSpace c || c = '\n' || c = '\r' || c = ',' || c = ']' || c = '\x7d' || c = '#'

/-- An unquoted value and what follows; a blank may stand between a date and a time. -/
def readWord (cs : List Char) : Option (Toml × List Char) :=
  let word := cs.takeWhile (!endsWord ·)
  let rest := cs.dropWhile (!endsWord ·)
  match rest with
  | ' ' :: after =>
    if isDate word && after.head?.any Char.isDigit then
      let time := after.takeWhile (!endsWord ·)
      if isOffsetTime time then some (.date, after.drop time.length) else none
    else (ofWord? word).map (·, rest)
  | rest => (ofWord? word).map (·, rest)

mutual

/-- A value and what follows, with `depth` levels of nesting left. -/
def readValue : Nat → Nat → List Char → Option (Toml × List Char)
  | 0, _, _ => none
  | fuel + 1, depth, cs =>
    match cs with
    | '"' :: _ => (readQuoted cs).map fun (s, rest) => (.str (String.ofList s), rest)
    | '\x27' :: _ => (readQuoted cs).map fun (s, rest) => (.str (String.ofList s), rest)
    | '[' :: rest =>
      if depth = 0 then none
      else (readItems fuel (depth - 1) rest).map fun (items, rest) => (.array items, rest)
    | '\x7b' :: rest =>
      if depth = 0 then none
      else
        match skipSpaces rest with
        | '\x7d' :: rest => some (.table .inline [], rest)
        | rest => (readPairs fuel (depth - 1) [] rest).map fun (es, rest) => (.table .inline es, rest)
    | cs => readWord cs

/-- The items of an array up to its closing bracket; a comma may stand behind the last one. -/
def readItems : Nat → Nat → List Char → Option (List Toml × List Char)
  | 0, _, _ => none
  | fuel + 1, depth, cs =>
    match skipTrivia false cs with
    | ']' :: rest => some ([], rest)
    | cs => do
      let (item, rest) ← readValue fuel depth cs
      match skipTrivia false rest with
      | ']' :: rest => return ([item], rest)
      | ',' :: rest =>
        let (items, rest) ← readItems fuel depth rest
        return (item :: items, rest)
      | _ => none

/-- The entries of a table in braces up to its closing brace. -/
def readPairs : Nat → Nat → Entries → List Char → Option (Entries × List Char)
  | 0, _, _, _ => none
  | fuel + 1, depth, es, cs => do
    let (path, rest) ← readKey cs
    match rest with
    | '=' :: rest =>
      let (v, rest) ← readValue fuel depth (skipSpaces rest)
      let es ← addKey path v es
      match skipSpaces rest with
      | '\x7d' :: rest => return (es, rest)
      | ',' :: rest => readPairs fuel depth es rest
      | _ => none
    | _ => none

end

/-! ### Files -/

/-- A line of a settings file. -/
inductive Statement where
  | header (path : List String)
  /-- A header in double brackets. -/
  | itemHeader (path : List String)
  | value (path : List String) (v : Toml)

/-- A statement and what follows it. -/
def readStatement (fuel : Nat) (cs : List Char) : Option (Statement × List Char) :=
  match cs with
  | '[' :: '[' :: rest => do
    let (path, rest) ← readKey rest
    match rest with
    | ']' :: ']' :: rest => return (.itemHeader path, rest)
    | _ => none
  | '[' :: rest => do
    let (path, rest) ← readKey rest
    match rest with
    | ']' :: rest => return (.header path, rest)
    | _ => none
  | cs => do
    let (path, rest) ← readKey cs
    match rest with
    | '=' :: rest =>
      let (v, rest) ← readValue fuel (depthLimit - 1) (skipSpaces rest)
      return (.value path v, rest)
    | _ => none

/-- The statements of a file, line by line. -/
def readStatements : Nat → List Char → Option (List Statement)
  | 0, _ => none
  | fuel + 1, cs =>
    match endLine? cs with
    | some [] => some []
    | some rest => readStatements fuel rest
    | none => do
      let (s, rest) ← readStatement (2 * cs.length + 2) (skipSpaces cs)
      let rest ← endLine? rest
      return s :: (← readStatements fuel rest)

/-- A text without a mark of its byte order. -/
def dropByteOrderMark : List Char → List Char
  | '\uFEFF' :: cs => cs
  | cs => cs

/-- The statements of a file. -/
def statements? (text : String) : Option (List Statement) :=
  let cs := dropByteOrderMark text.toList
  readStatements (cs.length + 1) cs

end Toml

end StackScript
