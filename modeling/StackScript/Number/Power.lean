/-!
# Powers of two and ten

The scales of binary words and of decimals.
-/

namespace StackScript

/-- The power of two with an exponent: the number of words of that many bits. -/
def twoPow (n : Nat) : Nat :=
  Nat.pow 2 n

/-- The power of ten with an exponent: the value of a one with that many zeros. -/
def tenPow (n : Nat) : Nat :=
  Nat.pow 10 n

@[simp] theorem twoPow_zero : twoPow 0 = 1 := rfl

theorem twoPow_succ (n : Nat) : twoPow (n + 1) = twoPow n * 2 := rfl

@[simp] theorem tenPow_zero : tenPow 0 = 1 := rfl

theorem tenPow_succ (n : Nat) : tenPow (n + 1) = tenPow n * 10 := rfl

end StackScript
