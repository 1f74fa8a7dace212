import StackScript.Number.Binary64

/-!
# Settings files

The values of a settings file in the TOML format.

## Design Notes

Whether a table may still grow depends on how it came to be, so a table keeps that.
-/

namespace StackScript

/-- How a table came to be. -/
inductive Toml.Origin where
  /-- Written in braces. -/
  | inline
  /-- Named by a header. -/
  | header
  /-- On the way to a table that a header names. -/
  | implied
  /-- On the way to a value with a dotted key. -/
  | dotted
  deriving DecidableEq, Repr

/-- A value of a settings file. -/
inductive Toml where
  | str (s : String)
  | int (n : Int)
  | float (x : Binary64)
  | bool (b : Bool)
  /-- A date, a time or both. -/
  | date
  | array (items : List Toml)
  | table (origin : Toml.Origin) (entries : List (String × Toml))
  /-- Tables with the same header in double brackets. -/
  | tables (items : List (List (String × Toml)))

end StackScript
