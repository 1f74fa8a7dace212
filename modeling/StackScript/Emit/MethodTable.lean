import StackScript.Number.Power

/-!
# Methods by slot
-/

namespace StackScript

/-- The functions of the slots of structs; a slot may be empty. -/
structure MethodTable where
  structs : List (String × List (Option Nat))

namespace MethodTable

/-- No methods. -/
def empty : MethodTable :=
  ⟨[]⟩

/-- The number that stands for no function. -/
def noFunction : Nat := twoPow 32 - 1

/-- Slots with one of them written; slots in front of it that are missing are empty. -/
def setSlot : List (Option Nat) → Nat → Option Nat → List (Option Nat)
  | [], 0, f => [f]
  | [], slot + 1, f => none :: setSlot [] slot f
  | _ :: rest, 0, f => f :: rest
  | s :: rest, slot + 1, f => s :: setSlot rest slot f

/-- The entries with one slot of a struct written. -/
def insertIn (struct : String) (slot : Nat) (f : Option Nat) :
    List (String × List (Option Nat)) → List (String × List (Option Nat))
  | [] => [(struct, setSlot [] slot f)]
  | (s, slots) :: rest =>
    if s = struct then (s, setSlot slots slot f) :: rest
    else (s, slots) :: insertIn struct slot f rest

/-- Writes a slot of a struct. -/
def insert (t : MethodTable) (struct : String) (slot function : Nat) : MethodTable :=
  ⟨insertIn struct slot (if function = noFunction then none else some function) t.structs⟩

/-- The function of a slot. -/
def get? (t : MethodTable) (struct : String) (slot : Nat) : Option Nat := do
  let slots ← t.structs.lookup struct
  let f ← slots[slot]?
  f

/-- The number of slots. -/
def size (t : MethodTable) : Nat :=
  (t.structs.flatMap (·.2)).length

/-- Whether there is no slot. -/
def isEmpty (t : MethodTable) : Bool :=
  t.size = 0

end MethodTable

end StackScript
