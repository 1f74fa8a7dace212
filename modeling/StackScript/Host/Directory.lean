import StackScript.Text.Utf8

/-!
# Files

The files of a working directory without directories in it.

## Design Notes

A path is read part by part from the left.  Only the last part may be missing, and only when a file is
written.  The directory above exists, and nothing else outside does.
-/

namespace StackScript

/-- Why a file cannot be read or written. -/
inductive FileFault where
  | missing
  | notDirectory
  | isDirectory
  | nameTooLong
  /-- The path has a NUL in it. -/
  | nul
  /-- The contents are no text. -/
  | notText
  deriving DecidableEq, Repr

/-- The words for a failure. -/
def FileFault.message : FileFault → String
  | missing => "No such file or directory (os error 2)"
  | notDirectory => "Not a directory (os error 20)"
  | isDirectory => "Is a directory (os error 21)"
  | nameTooLong => "File name too long (os error 36)"
  | nul => "file name contained an unexpected NUL byte"
  | notText => "stream did not contain valid UTF-8"

/-- The files of a directory; every name is there once. -/
structure Directory where
  files : List (String × List UInt8) := []

namespace Directory

/-- The contents of a file. -/
def get? (d : Directory) (name : String) : Option (List UInt8) :=
  d.files.lookup name

/-- Writes a file over one of the same name, or as a new one. -/
def put (d : Directory) (name : String) (contents : List UInt8) : Directory :=
  if d.files.any (·.1 == name) then
    ⟨d.files.map fun f => if f.1 == name then (name, contents) else f⟩
  else ⟨d.files ++ [(name, contents)]⟩

/-- What a path leads to. -/
inductive Target where
  /-- A directory. -/
  | directory
  /-- A name in the directory, of a file or of none. -/
  | entry (name : String)
  /-- A name of no file, asked for as a directory. -/
  | absent
  deriving DecidableEq, Repr

/-- The most bytes of a name. -/
def maxName : Nat := 255

/-- The most bytes of a path. -/
def maxPath : Nat := 4095

/-- Follows the parts of a path; `inside` says whether it is in the directory or somewhere above. -/
def follow (d : Directory) (inside : Bool) : List String → Except FileFault Target
  | [] => .ok .directory
  | part :: rest =>
    if part.isEmpty || part = "." then follow d inside rest
    else if part = ".." then follow d false rest
    else if maxName < part.utf8ByteSize then .error .nameTooLong
    else if rest.isEmpty && inside then .ok (.entry part)
    else if inside && (d.get? part).isSome then .error .notDirectory
    else if inside && rest.all (·.isEmpty) then .ok .absent
    else .error .missing

/-- What a path leads to. -/
def resolve (d : Directory) (path : String) : Except FileFault Target :=
  if path.any (· = '\x00') then .error .nul
  else if path.isEmpty then .error .missing
  else if maxPath < path.utf8ByteSize then .error .nameTooLong
  else follow d (!path.startsWith "/") (path.splitOn "/")

/-- The contents of a file by its path. -/
def read (d : Directory) (path : String) : Except FileFault (List UInt8) := do
  match ← d.resolve path with
  | .directory => throw .isDirectory
  | .entry name =>
    match d.get? name with
    | some contents => return contents
    | none => throw .missing
  | .absent => throw .missing

/-- The contents of a text file by its path. -/
def readText (d : Directory) (path : String) : Except FileFault String := do
  match Utf8.decode? (← d.read path) with
  | some text => return text
  | none => throw .notText

/-- Writes a file by its path. -/
def write (d : Directory) (path : String) (contents : List UInt8) : Except FileFault Directory := do
  match ← d.resolve path with
  | .directory | .absent => throw .isDirectory
  | .entry name => return d.put name contents

end Directory

end StackScript
