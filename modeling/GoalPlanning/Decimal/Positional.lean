/-!
# Decimals in positional notation

A decimal is a natural number of units, each a power of ten below one. Its text is positional:
the digits of the whole part, and, if anything is left, a point and the remaining digits
without zeros at the end. There is never an exponent.
-/

namespace GoalPlanning

/-- The decimal fraction `numerator / 10 ^ places`. -/
structure Decimal where
  /-- The number of units. -/
  numerator : Nat
  /-- A unit is ten to the power of minus `places`. -/
  places : Nat
  deriving DecidableEq

namespace Decimal

/-- How many units make one. -/
def unitsPerOne (d : Decimal) : Nat := Nat.pow 10 d.places

/-- The digits in front of the point. -/
def wholeDigits (d : Decimal) : List Char := Nat.toDigits 10 (d.numerator / d.unitsPerOne)

/-- The digits behind the point, up to the last one that is not zero. -/
def fractionDigits (d : Decimal) : List Char :=
  let digits := (Nat.toDigits 10 (d.numerator % d.unitsPerOne)).leftpad d.places '0'
  (digits.reverse.dropWhile (· == '0')).reverse

/-- The characters of a decimal in positional notation. -/
def chars (d : Decimal) : List Char :=
  if d.numerator % d.unitsPerOne = 0 then d.wholeDigits
  else d.wholeDigits ++ '.' :: d.fractionDigits

/-- A decimal in positional notation. -/
def text (d : Decimal) : String := String.ofList d.chars

end Decimal

end GoalPlanning
