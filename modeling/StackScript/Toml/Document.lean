import StackScript.Toml.Reader

/-!
# Settings files as tables

## Design Notes

A header names a table once, but a table on the way to another one can still be named later.  Values
that follow a header go into its table.
-/

namespace StackScript

namespace Toml

/-- Changes the entries of the table at a path; on the way, tables are made where there are none, and
of tables with the same header the last one is meant. -/
def atPath (f : Entries → Option Entries) : List String → Entries → Option Entries
  | [], es => f es
  | p :: ps, es =>
    match es.lookup p with
    | none => do
      let inner ← atPath f ps []
      return es ++ [(p, .table .implied inner)]
    | some (.table .inline _) => none
    | some (.table origin inner) => do
      return setEntry p (.table origin (← atPath f ps inner)) es
    | some (.tables items) =>
      match items.reverse with
      | last :: before => do
        return setEntry p (.tables (before.reverse ++ [← atPath f ps last])) es
      | [] => none
    | some _ => none

/-- Names a table by a header. -/
def nameTable (key : String) (es : Entries) : Option Entries :=
  match es.lookup key with
  | none => some (es ++ [(key, .table .header [])])
  | some (.table .implied inner) => some (setEntry key (.table .header inner) es)
  | some _ => none

/-- Adds a table by a header in double brackets. -/
def addTable (key : String) (es : Entries) : Option Entries :=
  match es.lookup key with
  | none => some (es ++ [(key, .tables [[]])])
  | some (.tables items) => some (setEntry key (.tables (items ++ [[]])) es)
  | some _ => none

/-- The tables so far and the header in force. -/
structure Document where
  root : Entries := []
  header : List String := []

namespace Document

/-- Applies a change to the last part of a header's path, and puts the header in force. -/
def open? (d : Document) (path : List String) (f : String → Entries → Option Entries) : Option Document :=
  match path.reverse with
  | key :: before => do
    return ⟨← atPath (f key) before.reverse d.root, path⟩
  | [] => none

/-- Adds a statement. -/
def add (d : Document) : Statement → Option Document
  | .header path => d.open? path nameTable
  | .itemHeader path => d.open? path addTable
  | .value path v => do
    return { d with root := ← atPath (addKey path v) d.header d.root }

end Document

/-- The table of a file. -/
def ofText? (text : String) : Option Entries := do
  let d ← (← statements? text).foldlM Document.add {}
  return d.root

end Toml

end StackScript
