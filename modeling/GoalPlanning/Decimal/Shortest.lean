import GoalPlanning.Binary64.Basic
import GoalPlanning.Decimal.Positional

/-!
# The shortest decimal that reads back

A binary64 number is written with the fewest decimal digits that still read back to it, since
whoever reads a decimal takes the nearest number. With enough places every finite number and its
neighbours are exact decimals, so the search needs natural numbers only. It tries the decimal
grids from coarse to fine. On each grid only the two neighbours of the number can be the nearest
decimal that reads back, and the finest grid holds the number itself.
-/

namespace GoalPlanning.Binary64

/-- A number of places with which a magnitude code and its neighbours are exact decimals. The codes
of the first three binades need 1074 of them, and each further binade needs one less. -/
def placesFor (code : Nat) : Nat := 1074 - (code / 0x10000000000000 - 2)

/-- The absolute value of a magnitude code as the numerator of a decimal, for a number of places
with which it is exact. -/
def numeratorWith (places code : Nat) : Nat :=
  unitsOfCode code >>> (1074 - places) * Nat.pow 5 places

/-- Whether a decimal reads back to a magnitude code: it lies between the midpoints to the two
neighbouring codes. A midpoint itself goes to the even code. -/
def readsBack (code : Nat) (d : Decimal) : Bool :=
  let low := numeratorWith d.places (code - 1) + numeratorWith d.places code
  let high := numeratorWith d.places code + numeratorWith d.places (code + 1)
  if code % 2 = 0 then low ≤ 2 * d.numerator && 2 * d.numerator ≤ high
  else low < 2 * d.numerator && 2 * d.numerator < high

/-- On the grid of numerators that are multiples of `spacing`, the decimal nearest to a magnitude
code among those that read back to it. Of two equally near ones it is the larger. -/
def nearestOnGrid (code places spacing : Nat) : Option Decimal :=
  let exact := numeratorWith places code
  let below := exact / spacing * spacing
  let above := below + spacing
  match readsBack code ⟨below, places⟩, readsBack code ⟨above, places⟩ with
  | true, true => some ⟨if exact - below < above - exact then below else above, places⟩
  | true, false => some ⟨below, places⟩
  | false, true => some ⟨above, places⟩
  | false, false => none

/-- Tries the grids with spacing 10 ^ exponent and finer ones in turn. -/
def shortestFrom (code places : Nat) : (exponent : Nat) → Decimal
  | 0 => ⟨numeratorWith places code, places⟩
  | exponent + 1 =>
    (nearestOnGrid code places (Nat.pow 10 (exponent + 1))).getD
      (shortestFrom code places exponent)

/-- The shortest decimal that reads back to a magnitude code, the nearest one of that length. -/
def shortestDecimal (code : Nat) : Decimal :=
  let places := placesFor code
  shortestFrom code places ((Nat.toDigits 10 (numeratorWith places code)).length - 1)

/-- A number as text: its shortest decimal in positional notation, with a sign if the sign bit
is set. Infinity has its sign too, a NaN has none. -/
def text (x : Binary64) : String :=
  if x.isNaN then "NaN"
  else
    let unsigned := if x.isInfinite then "inf" else (shortestDecimal x.magnitude).text
    if x.negative then "-" ++ unsigned else unsigned

end GoalPlanning.Binary64
