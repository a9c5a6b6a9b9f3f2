import GoalPlanning.Binary64.Rounding

/-!
# Arithmetic of binary64 numbers

Each operation works out its exact result in whole numbers and rounds once. Operands that are
infinite or NaN are settled first: a NaN operand is passed on, the left one before the right
one, and an operation without a value gives `Binary64.invalid`.
-/

namespace GoalPlanning.Binary64

/-- Addition. A sum of exactly zero is negative zero only if both operands are negative. -/
def add (x y : Binary64) : Binary64 :=
  if x.isNaN then x.quiet
  else if y.isNaN then y.quiet
  else if x.isInfinite then if y.isInfinite && x.negative != y.negative then invalid else x
  else if y.isInfinite then y
  else if x.units + y.units = 0 then signedZero (x.negative && y.negative)
  else nearest (x.units + y.units < 0) (x.units + y.units).natAbs 1

/-- Multiplication. Infinity times zero has no value. -/
def mul (x y : Binary64) : Binary64 :=
  if x.isNaN then x.quiet
  else if y.isNaN then y.quiet
  else if x.isInfinite || y.isInfinite then
    if x.isZero || y.isZero then invalid else infinity (x.negative != y.negative)
  else nearest (x.negative != y.negative)
    (unitsOfCode x.magnitude * unitsOfCode y.magnitude) unitsPerOne

/-- Division. Zero by zero and infinity by infinity have no value; any other number divided
by zero is infinite. -/
def div (x y : Binary64) : Binary64 :=
  if x.isNaN then x.quiet
  else if y.isNaN then y.quiet
  else if x.isInfinite then
    if y.isInfinite then invalid else infinity (x.negative != y.negative)
  else if y.isInfinite then signedZero (x.negative != y.negative)
  else if y.isZero then
    if x.isZero then invalid else infinity (x.negative != y.negative)
  else nearest (x.negative != y.negative)
    (unitsOfCode x.magnitude * unitsPerOne) (unitsOfCode y.magnitude)

instance : Add Binary64 := ⟨add⟩
instance : Mul Binary64 := ⟨mul⟩
instance : Div Binary64 := ⟨div⟩

/-- The least whole number that is not below the given one. The sign is kept, so what lies
between minus one and zero becomes negative zero. -/
def ceil (x : Binary64) : Binary64 :=
  if x.isNaN then x.quiet
  else if x.isInfinite then x
  else if x.negative then nearest true (unitsOfCode x.magnitude / unitsPerOne * unitsPerOne) 1
  else nearest false
    ((unitsOfCode x.magnitude + (unitsPerOne - 1)) / unitsPerOne * unitsPerOne) 1

/-- The number nearest to a natural number. Below 2 ^ 53 it is exact. -/
def ofNat (n : Nat) : Binary64 := nearest false (n * unitsPerOne) 1

/-! ## Widening -/

/-- The absolute value of a finite binary32 number, in units of 2 ^ (-149), from its exponent
and fraction fields. -/
def binary32Units (exponent fraction : Nat) : Nat :=
  if exponent = 0 then fraction else (0x800000 + fraction) <<< (exponent - 1)

/-- A NaN with the given sign and fraction, made quiet. -/
def quietNaN (negative : Bool) (fraction : Nat) : Binary64 :=
  quiet ⟨negative, infinityCode + fraction % 0x10000000000000, by
    have h : infinityCode = 0x7ff0000000000000 := rfl
    omega⟩

/-- Widens the 32 bits of a binary32 number. Every finite one is also a binary64 number, so
this is exact. A NaN keeps its sign and its fraction bits and becomes quiet. -/
def ofBinary32 (bits : UInt32) : Binary64 :=
  let negative : Bool := 0x80000000 ≤ bits.toNat
  let exponent := bits.toNat / 0x800000 % 0x100
  let fraction := bits.toNat % 0x800000
  if exponent = 0xff then
    if fraction = 0 then infinity negative else quietNaN negative (fraction <<< 29)
  else nearest negative (binary32Units exponent fraction <<< (1074 - 149)) 1

end GoalPlanning.Binary64
