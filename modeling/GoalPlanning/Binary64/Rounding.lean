import GoalPlanning.Binary64.Basic

/-!
# Rounding to the nearest number

An operation of IEEE 754 gives the number nearest to the exact result, and of two equally near
ones the one with the even fraction. Exact results are quotients of natural numbers, counted in
units of 2 ^ (-1074). The codes of one binade are consecutive, so rounding a quotient means to
scale it into its binade, to round to a whole number, and to add the place where the binade
starts; a carry into the next binade needs no case of its own.
-/

namespace GoalPlanning

/-- The natural number nearest to `num / den`; a half goes to the even neighbour. -/
def roundQuotient (num den : Nat) : Nat :=
  if 2 * (num % den) < den ∨ (2 * (num % den) = den ∧ num / den % 2 = 0) then num / den
  else num / den + 1

namespace Binary64

/-- How often a quotient has to be halved until it is below 2 ^ 53, the range in which whole
numbers of units are exact. -/
def binadeShift (num den : Nat) : Nat := (num / den).log2 - 52

/-- The magnitude code nearest to `num / den` units. What is too large becomes infinity. -/
def codeOfRatio (num den : Nat) : Nat :=
  min (binadeShift num den * 0x10000000000000 +
    roundQuotient num (den <<< binadeShift num den)) infinityCode

/-- Rounding goes no further than infinity. -/
theorem codeOfRatio_le (num den : Nat) : codeOfRatio num den ≤ infinityCode :=
  Nat.min_le_right _ _

/-- The number of the given sign nearest to `num / den` units. -/
def nearest (negative : Bool) (num den : Nat) : Binary64 :=
  ⟨negative, codeOfRatio num den, Nat.lt_of_le_of_lt (codeOfRatio_le num den) infinityCode_lt⟩

end Binary64

end GoalPlanning
