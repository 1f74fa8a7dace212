import StackScript.Number.Power

/-!
# Binary floating-point numbers of 64 bits

The numbers are their bit patterns, so two of them are equal exactly when they have the same bits.

## Design Notes

Conversions are exact arithmetic on naturals with one rounding, to nearest and to the even
neighbour on a tie.  Arithmetic is that of the hardware; only the bit pattern of a NaN result is
spelled out here: an operand that is a NaN is passed on, the left one first, and an operation
without a result gives the NaN with the sign bit set.
-/

namespace StackScript

/-- A floating-point number, as its bits. -/
structure Binary64 where
  /-- Sign, eleven bits of exponent and fifty-two bits of fraction. -/
  bits : BitVec 64
  deriving DecidableEq, Repr, Inhabited

namespace Binary64

/-! ### Fields -/

/-- The sign bit. -/
def isNegative (x : Binary64) : Bool :=
  twoPow 63 ≤ x.bits.toNat

/-- All bits but the sign, as a number. -/
def magnitude (x : Binary64) : Nat :=
  x.bits.toNat % twoPow 63

/-- The exponent bits. -/
def exponentField (x : Binary64) : Nat :=
  x.magnitude / twoPow 52

/-- The fraction bits. -/
def fraction (x : Binary64) : Nat :=
  x.bits.toNat % twoPow 52

/-- The magnitude of an infinity; that of a NaN is greater. -/
def infinityMagnitude : Nat :=
  0x7ff * twoPow 52

/-- Whether the bits stand for no number. -/
def isNaN (x : Binary64) : Bool :=
  infinityMagnitude < x.magnitude

/-- Whether the bits stand for a number that is not infinite. -/
def isFinite (x : Binary64) : Bool :=
  x.magnitude < infinityMagnitude

/-- The significand `m` of a finite number, which is `m * 2 ^ x.exponent` up to its sign. -/
def significand (x : Binary64) : Nat :=
  if x.exponentField = 0 then x.fraction else twoPow 52 + x.fraction

/-- The exponent that goes with `significand`. -/
def exponent (x : Binary64) : Int :=
  if x.exponentField = 0 then -1074 else (x.exponentField : Int) - 1075

/-- The number with the given sign and magnitude bits. -/
def ofMagnitude (negative : Bool) (m : Nat) : Binary64 :=
  ⟨BitVec.ofNat 64 (if negative then twoPow 63 + m else m)⟩

/-- The number zero. -/
def zero : Binary64 :=
  ⟨0⟩

/-- The NaN that stands for a missing number in written values. -/
def nan : Binary64 :=
  ofMagnitude false (infinityMagnitude + twoPow 51)

/-- The NaN that an operation without a result gives. -/
def indefinite : Binary64 :=
  ofMagnitude true (infinityMagnitude + twoPow 51)

/-! ### Rounding -/

/-- A quotient rounded to the nearest integer, and to the even one on a tie. -/
def roundQuotient (num den : Nat) : Nat :=
  let q := num / den
  let r := num % den
  if den < 2 * r || (2 * r == den && q % 2 == 1) then q + 1 else q

/-- The numerator of `num / den / 2 ^ e`. -/
def scaledNum (num : Nat) (e : Int) : Nat :=
  num * twoPow (-e).toNat

/-- The denominator of `num / den / 2 ^ e`. -/
def scaledDen (den : Nat) (e : Int) : Nat :=
  den * twoPow e.toNat

/-- The exponent of the last place of the number nearest to `num / den`: there `num / den` has
fifty-three bits, or fewer when it is below the normal range. -/
def lastPlace (num den : Nat) : Int :=
  let low : Int := max (-1074) ((num.log2 : Int) - den.log2 - 53)
  if twoPow 53 ≤ scaledNum num low / scaledDen den low then low + 1 else low

/-- The number nearest to `num / den`, with the given sign. -/
def ofRatio (negative : Bool) (num den : Nat) : Binary64 :=
  if num = 0 then ofMagnitude negative 0
  else
    let e := lastPlace num den
    let m := roundQuotient (scaledNum num e) (scaledDen den e)
    let bits := if m < twoPow 52 then m else (e + 1075).toNat * twoPow 52 + (m - twoPow 52)
    ofMagnitude negative (min bits infinityMagnitude)

/-- The number nearest to an integer. -/
def ofInt (n : Int) : Binary64 :=
  ofRatio (n < 0) n.natAbs 1

/-- Number of decimal digits. -/
def decimalLength (n : Nat) : Nat :=
  (Nat.toDigits 10 n).length

/-- The number nearest to `digits * 10 ^ e`.  Decimals far outside the range are decided by their
length alone. -/
def ofDecimal (negative : Bool) (digits : Nat) (e : Int) : Binary64 :=
  if digits = 0 then ofMagnitude negative 0
  else
    let places := (decimalLength digits : Int) + e
    if 400 < places then ofMagnitude negative infinityMagnitude
    else if places < -400 then ofMagnitude negative 0
    else ofRatio negative (digits * tenPow e.toNat) (tenPow (-e).toNat)

/-! ### Integer parts -/

/-- The integer part of a finite number. -/
def integerPart (x : Binary64) : Int :=
  let m := if 0 ≤ x.exponent then x.significand * twoPow x.exponent.toNat
    else x.significand / twoPow (-x.exponent).toNat
  if x.isNegative then -(m : Int) else m

/-- The integer part, or the nearest end of the range `lo … hi`; a NaN counts as zero. -/
def truncate (x : Binary64) (lo hi : Int) : Int :=
  if x.isNaN then 0
  else if x.isFinite then max lo (min hi x.integerPart)
  else if x.isNegative then lo
  else hi

/-! ### Order -/

/-- Finite and infinite numbers are ordered as their keys; both zeros have the key zero. -/
def key (x : Binary64) : Int :=
  if x.isNegative then -(x.magnitude : Int) else x.magnitude

/-- Equality of numbers: the zeros are equal, a NaN equals nothing. -/
def equal (x y : Binary64) : Bool :=
  !x.isNaN && !y.isNaN && x.key == y.key

/-- The strict order of the numbers. -/
def less (x y : Binary64) : Bool :=
  !x.isNaN && !y.isNaN && decide (x.key < y.key)

/-- The order of the numbers. -/
def lessEq (x y : Binary64) : Bool :=
  !x.isNaN && !y.isNaN && decide (x.key ≤ y.key)

/-! ### Arithmetic -/

/-- The hardware number with these bits. -/
def toFloat (x : Binary64) : Float :=
  Float.ofBits (UInt64.ofBitVec x.bits)

/-- The bits of a hardware number. -/
def ofFloat (f : Float) : Binary64 :=
  ⟨f.toBits.toBitVec⟩

/-- A NaN with its quiet bit set. -/
def quiet (x : Binary64) : Binary64 :=
  ⟨x.bits ||| BitVec.ofNat 64 (twoPow 51)⟩

/-- An operation on two numbers, with the bits of NaN results spelled out. -/
def combine (op : Float → Float → Float) (x y : Binary64) : Binary64 :=
  if x.isNaN then x.quiet
  else if y.isNaN then y.quiet
  else
    let r := ofFloat (op x.toFloat y.toFloat)
    if r.isNaN then indefinite else r

/-- Sum. -/
def add (x y : Binary64) : Binary64 :=
  combine (· + ·) x y

/-- Difference. -/
def sub (x y : Binary64) : Binary64 :=
  combine (· - ·) x y

/-- Product. -/
def mul (x y : Binary64) : Binary64 :=
  combine (· * ·) x y

/-- Quotient. -/
def div (x y : Binary64) : Binary64 :=
  combine (· / ·) x y

/-- The number with the other sign. -/
def neg (x : Binary64) : Binary64 :=
  ⟨x.bits ^^^ BitVec.ofNat 64 (twoPow 63)⟩

end Binary64

end StackScript
