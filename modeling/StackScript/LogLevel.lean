import StackScript.Text.Blank

/-!
# Log levels
-/

namespace StackScript

/-- How much is logged. -/
inductive LogLevel where
  | trace | debug | info | warn | error
  deriving DecidableEq, Repr

namespace LogLevel

/-- The level with a name, whatever its case and the white space around, or the name as it was
looked up. -/
def ofText (text : String) : Except String LogLevel :=
  let name := (trimBlanks text).map Char.toLower
  if name = "trace" then .ok trace
  else if name = "debug" then .ok debug
  else if name = "info" then .ok info
  else if name = "warn" || name = "warning" then .ok warn
  else if name = "error" then .ok error
  else .error name

/-- The words for a name that no level has. -/
def unknownMessage (name : String) : String :=
  "unknown log level '" ++ name ++ "'"

end LogLevel

end StackScript
