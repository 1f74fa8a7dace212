/-!
# Promises

A promise is pending until it is settled once, with a value or with an error value.  Whoever waits for
a pending promise is kept with it and handed out when it is settled.
-/

namespace StackScript

/-- The number of a promise; the first one is 1. -/
structure PromiseHandle where
  number : Nat
  deriving DecidableEq, Repr

/-- The words for a promise. -/
def PromiseHandle.text (h : PromiseHandle) : String :=
  "Promise(" ++ toString h.number ++ ")"

/-- The state of a promise. -/
inductive PromiseState where
  | pending
  | resolved (value : BitVec 64)
  | rejected (value : BitVec 64)
  deriving DecidableEq, Repr

/-- Whether a promise is no longer pending. -/
def PromiseState.isSettled : PromiseState → Bool
  | pending => false
  | resolved _ | rejected _ => true

/-- Why an operation on a promise fails. -/
inductive PromiseFault where
  | unknownHandle (h : PromiseHandle)
  | alreadySettled (h : PromiseHandle)
  deriving DecidableEq, Repr

/-- The words for a failure. -/
def PromiseFault.message : PromiseFault → String
  | unknownHandle h => "unknown promise handle " ++ h.text
  | alreadySettled h => h.text ++ " is already settled"

/-- A promise and those who wait for it, in order. -/
structure Promise (W : Type) where
  state : PromiseState := .pending
  waiters : List W := []
  deriving DecidableEq, Repr

/-- All promises, in the order of their numbers. -/
structure PromiseRegistry (W : Type) where
  promises : Array (Promise W) := #[]
  deriving DecidableEq, Repr

namespace PromiseRegistry

variable {W : Type}

/-- A new pending promise. -/
def create (r : PromiseRegistry W) : PromiseHandle × PromiseRegistry W :=
  (⟨r.promises.size + 1⟩, ⟨r.promises.push {}⟩)

/-- The promise with a number; no promise has the number zero. -/
def get? (r : PromiseRegistry W) (h : PromiseHandle) : Option (Promise W) :=
  match h.number with
  | 0 => none
  | i + 1 => r.promises[i]?

/-- The promise with a number. -/
def find (r : PromiseRegistry W) (h : PromiseHandle) : Except PromiseFault (Promise W) :=
  match r.get? h with
  | some p => .ok p
  | none => .error (.unknownHandle h)

/-- The registry with another promise under a number. -/
def put (r : PromiseRegistry W) (h : PromiseHandle) (p : Promise W) : PromiseRegistry W :=
  ⟨r.promises.setIfInBounds (h.number - 1) p⟩

/-- The state of a promise. -/
def state (r : PromiseRegistry W) (h : PromiseHandle) : Except PromiseFault PromiseState := do
  return (← r.find h).state

/-- Settles a pending promise; gives those who waited. -/
def settle (r : PromiseRegistry W) (h : PromiseHandle) (s : PromiseState) :
    Except PromiseFault (List W × PromiseRegistry W) := do
  let p ← r.find h
  if p.state.isSettled then throw (.alreadySettled h)
  else return (p.waiters, r.put h ⟨s, []⟩)

/-- Resolves a pending promise. -/
def resolve (r : PromiseRegistry W) (h : PromiseHandle) (value : BitVec 64) :
    Except PromiseFault (List W × PromiseRegistry W) :=
  r.settle h (.resolved value)

/-- Rejects a pending promise. -/
def reject (r : PromiseRegistry W) (h : PromiseHandle) (value : BitVec 64) :
    Except PromiseFault (List W × PromiseRegistry W) :=
  r.settle h (.rejected value)

/-- Waits for a promise; if it is settled, its state is given and nobody waits. -/
def wait (r : PromiseRegistry W) (h : PromiseHandle) (w : W) :
    Except PromiseFault (Option PromiseState × PromiseRegistry W) := do
  let p ← r.find h
  if p.state.isSettled then return (some p.state, r)
  else return (none, r.put h { p with waiters := p.waiters ++ [w] })

/-- The number of promises. -/
def size (r : PromiseRegistry W) : Nat :=
  r.promises.size

/-- Whether there are no promises. -/
def isEmpty (r : PromiseRegistry W) : Bool :=
  r.size = 0

/-- The number of pending promises. -/
def pendingCount (r : PromiseRegistry W) : Nat :=
  r.promises.toList.countP fun p => !p.state.isSettled

end PromiseRegistry

end StackScript
