import StackScript.Machine.Basic
import StackScript.Number.Binary64

/-!
# Machine values
-/

namespace StackScript

/-- A machine value. -/
inductive Value where
  | i32 (v : BitVec 32)
  | i64 (v : BitVec 64)
  | f64 (v : Binary64)
  deriving DecidableEq, Repr

namespace Value

instance : Inhabited Value := ⟨.i32 0⟩

/-- The type of a value. -/
def ty : Value → ValType
  | i32 _ => .i32
  | i64 _ => .i64
  | f64 _ => .f64

/-- The first value of a local. -/
def zero : ValType → Value
  | .i32 => i32 0
  | .i64 => i64 0
  | .f64 => f64 ⟨0⟩

/-- A truth value. -/
def ofBool (b : Bool) : Value :=
  i32 (if b then 1 else 0)

/-- The value of a type that a payload holds. -/
def ofPayload (bits : BitVec 64) : ValType → Value
  | .i32 => i32 (bits.setWidth 32)
  | .i64 => i64 bits
  | .f64 => f64 ⟨bits⟩

@[simp]
theorem ty_zero (t : ValType) : (zero t).ty = t := by
  cases t <;> rfl

@[simp]
theorem ty_ofPayload (bits : BitVec 64) (t : ValType) : (ofPayload bits t).ty = t := by
  cases t <;> rfl

end Value

end StackScript
