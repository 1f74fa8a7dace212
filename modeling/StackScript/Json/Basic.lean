import StackScript.Number.Binary64

/-!
# JSON values

## Design Notes

Integers and floats are different values, because a module tells its integer fields from its float
constants.
-/

namespace StackScript

/-- A JSON value. -/
inductive Json where
  | null
  | bool (b : Bool)
  | int (n : Int)
  | float (x : Binary64)
  | str (s : String)
  | arr (items : List Json)
  | obj (members : List (String × Json))

namespace Json

instance : Inhabited Json :=
  ⟨null⟩

/-- The member of an object with the given name; of two, the later one. -/
def get? (j : Json) (key : String) : Option Json :=
  match j with
  | obj members => (members.reverse.find? (·.1 = key)).map (·.2)
  | _ => none

/-- A present value, or null. -/
def ofOption {α : Type} (f : α → Json) : Option α → Json
  | some a => f a
  | none => null

end Json

end StackScript
