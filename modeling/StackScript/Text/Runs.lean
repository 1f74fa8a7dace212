/-!
# Sets of characters

A set of characters beyond ASCII is kept as the lengths of its runs: so many characters that are not in the set, then
so many that are, and so on, from the first character beyond ASCII on.
-/

namespace StackScript.Runs

/-- Whether a number lies in one of the runs that are in the set. -/
def covers : List Nat → Nat → Bool
  | gap :: run :: rest, n => gap ≤ n && (n < gap + run || covers rest (n - (gap + run)))
  | _, _ => false

/-- Whether a character beyond ASCII is in a set. -/
def has (runs : List Nat) (c : Char) : Bool :=
  covers runs (c.toNat - 128)

end StackScript.Runs
