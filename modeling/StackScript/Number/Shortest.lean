import StackScript.Number.Binary64

/-!
# Shortest decimals

The decimal with the fewest digits among those that round to a given floating-point number, and
the ways of writing it.

## Design Notes

A number `m * 2 ^ e` owns the reals up to half a place away on both sides, the ends included when
`m` is even; below a power of two the lower half place is half as wide.  On the grid of decimals
with `n` digits only the two neighbours of the number can lie in that interval, so trying
`n = 1, 2, …` in turn finds the shortest decimal.  Of two neighbours in the interval the nearer
one is taken; when both are equally near, the form of the text decides.
-/

namespace StackScript

/-- A decimal `digits * 10 ^ exponent`. -/
structure Decimal where
  /-- The digits, read as one number. -/
  digits : Nat
  /-- Power of ten of the last digit. -/
  exponent : Int
  deriving DecidableEq, Repr

namespace Decimal

/-- Moves trailing zeros of the digits into the exponent; `fuel` bounds their number. -/
def strip (fuel : Nat) (d : Decimal) : Decimal :=
  match fuel with
  | 0 => d
  | fuel + 1 =>
    if d.digits ≠ 0 ∧ d.digits % 10 = 0 then strip fuel ⟨d.digits / 10, d.exponent + 1⟩ else d

end Decimal

/-- Which of two neighbours is taken when a number is in the middle between them. -/
inductive TieRule where
  /-- The upper one. -/
  | upper
  /-- The one with an even last digit. -/
  | even
  deriving DecidableEq, Repr

/-- Whether the middle between `d` and `d + 1` goes to `d + 1`. -/
def TieRule.goesUp : TieRule → Nat → Bool
  | upper, _ => true
  | even, d => d % 2 = 1

namespace Binary64

/-- The greatest power of ten that is at most `num / den`. -/
def decade (num den : Nat) : Int :=
  if den ≤ num then (decimalLength (num / den) : Int) - 1
  else -(decimalLength ((den + num - 1) / num - 1) : Int)

/-- The ends and the middle of the interval that rounds to a number, over the denominator
`den`. -/
structure Interval where
  /-- Lower end. -/
  low : Nat
  /-- The number itself. -/
  mid : Nat
  /-- Upper end. -/
  high : Nat
  /-- Common denominator. -/
  den : Nat
  /-- Whether the ends belong to the interval. -/
  closed : Bool

namespace Interval

/-- Whether the decimal `d * 10 ^ k` lies in the interval. -/
def contains (i : Interval) (d : Nat) (k : Int) : Bool :=
  let x := d * tenPow k.toNat * i.den
  let unit := tenPow (-k).toNat
  if i.closed then i.low * unit ≤ x && x ≤ i.high * unit
  else i.low * unit < x && x < i.high * unit

/-- The better of the two neighbours of the number among the decimals with last place `10 ^ k`,
if one of them lies in the interval. -/
def neighbour? (i : Interval) (tie : TieRule) (k : Int) : Option Decimal :=
  let num := i.mid * tenPow (-k).toNat
  let den := i.den * tenPow k.toNat
  let d := num / den
  match i.contains d k, i.contains (d + 1) k with
  | true, true =>
    let twice := 2 * (num % den)
    some (if den < twice ∨ (den = twice ∧ tie.goesUp d) then ⟨d + 1, k⟩ else ⟨d, k⟩)
  | true, false => some ⟨d, k⟩
  | false, true => some ⟨d + 1, k⟩
  | false, false => none

/-- The first decimal found on ever finer grids; `fuel` is the number of grids tried. -/
def search (i : Interval) (tie : TieRule) (k : Int) (fuel : Nat) : Decimal :=
  match fuel with
  | 0 => ⟨i.mid * tenPow (-k).toNat / (i.den * tenPow k.toNat), k⟩
  | fuel + 1 => (i.neighbour? tie k).getD (i.search tie (k - 1) fuel)

end Interval

/-- The interval of the reals that round to a finite number other than zero. -/
def interval (x : Binary64) : Interval :=
  let m := x.significand
  let narrow := x.fraction = 0 ∧ 1 < x.exponentField
  let up := twoPow (x.exponent - 2).toNat
  { low := (4 * m - (if narrow then 1 else 2)) * up
    mid := 4 * m * up
    high := (4 * m + 2) * up
    den := twoPow (2 - x.exponent).toNat
    closed := m % 2 = 0 }

/-- The shortest decimal that rounds to the magnitude of a finite number. -/
def shortest (x : Binary64) (tie : TieRule) : Decimal :=
  if x.significand = 0 then ⟨0, 0⟩
  else
    let i := x.interval
    (i.search tie (decade i.mid i.den) 17).strip 20

end Binary64

/-- How a decimal is written. -/
structure DecimalLayout where
  /-- The decimal exponents of the first digit that are written without an exponent, if there is
  a limit. -/
  positional : Option (Int × Int)
  /-- Whether a whole number is written with a zero after the point. -/
  wholePoint : Bool
  /-- Whether a positive exponent has a plus sign. -/
  plusSign : Bool
  /-- What happens to a number in the middle between two decimals. -/
  tie : TieRule

namespace DecimalLayout

/-- Never an exponent, and no point on whole numbers. -/
def plain : DecimalLayout :=
  ⟨none, false, false, .upper⟩

/-- An exponent below `10⁻⁴` and from `10¹⁶` on, and a point on every number without one. -/
def literal : DecimalLayout :=
  ⟨some (-4, 15), true, false, .upper⟩

/-- An exponent, always signed, below `10⁻⁵` and from `10¹⁶` on, and a point on every number
without one; a tie goes to the even digit. -/
def interchange : DecimalLayout :=
  ⟨some (-5, 15), true, true, .even⟩

/-- Digits written without an exponent. -/
def positionalText (l : DecimalLayout) (d : Decimal) : String :=
  let digits := Nat.toDigits 10 d.digits
  if 0 ≤ d.exponent then
    String.ofList (digits ++ List.replicate d.exponent.toNat '0') ++
      (if l.wholePoint then ".0" else "")
  else
    let places := (-d.exponent).toNat
    let padded := List.replicate (places + 1 - digits.length) '0' ++ digits
    let whole := padded.length - places
    String.ofList (padded.take whole) ++ "." ++ String.ofList (padded.drop whole)

/-- Digits written with an exponent. -/
def scientificText (l : DecimalLayout) (d : Decimal) (first : Int) : String :=
  let digits := Nat.toDigits 10 d.digits
  let rest := digits.drop 1
  String.ofList (digits.take 1) ++
    (if rest.isEmpty then "" else "." ++ String.ofList rest) ++
    "e" ++ (if l.plusSign && 0 ≤ first then "+" else "") ++ toString first

/-- The text of the magnitude of a finite number. -/
def magnitudeText (l : DecimalLayout) (d : Decimal) : String :=
  let first := d.exponent + (Binary64.decimalLength d.digits : Int) - 1
  match l.positional with
  | none => l.positionalText d
  | some (lo, hi) =>
    if d.digits = 0 ∨ (lo ≤ first ∧ first ≤ hi) then l.positionalText d
    else l.scientificText d first

/-- The text of a number. -/
def render (l : DecimalLayout) (x : Binary64) : String :=
  if x.isNaN then "NaN"
  else
    let body := if x.isFinite then l.magnitudeText (x.shortest l.tie) else "inf"
    if x.isNegative then "-" ++ body else body

end DecimalLayout

end StackScript
