import StackScript.Exec.Fault

/-!
# Functions from outside

Functions that a program declares and the host provides, and the lines that a program writes.
-/

namespace StackScript

/-- A function that the host provides: from the argument lists of its earlier calls and the arguments
of this one to its result or an error message. -/
abbrev HostFunction := List (List Value) → List Value → Except String (Option Value)

/-- A registered function and the arguments of its calls so far. -/
structure External where
  function : HostFunction
  past : List (List Value) := []

/-- What the host provides and keeps. -/
structure Host where
  externals : List (String × External) := []
  /-- All calls of registered functions. -/
  calls : Array (String × List Value) := #[]
  /-- Lines that the program has written. -/
  output : Array String := #[]

namespace Host

/-- Whether a function is registered. -/
def provides (h : Host) (name : String) : Bool :=
  (h.externals.lookup name).isSome

/-- Replaces the function of a name. -/
def setExternal (h : Host) (name : String) (e : External) : Host :=
  { h with externals := (name, e) :: h.externals.filter (·.1 != name) }

/-- Registers a function in place of one of the same name. -/
def register (h : Host) (name : String) (f : HostFunction) : Host :=
  h.setExternal name ⟨f, []⟩

/-- Calls a function; the call is kept, whatever comes of it. -/
def call (h : Host) (name : String) (args : List Value) : Except Fault (Option Value) × Host :=
  match h.externals.lookup name with
  | none => (.error (.link name), h)
  | some e =>
    let result := (e.function e.past args).mapError fun m => Fault.host name (.failed m)
    (result, { h.setExternal name { e with past := e.past ++ [args] } with
      calls := h.calls.push (name, args) })

/-- Adds a line to the output. -/
def log (h : Host) (line : String) : Host :=
  { h with output := h.output.push line }

end Host

end StackScript
