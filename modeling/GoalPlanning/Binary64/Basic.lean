/-!
# Floating-point numbers of 64 bits

Costs and estimates are binary64 numbers of IEEE 754. A number is kept as its sign and the
63 bits below the sign, read as a natural number. Among finite numbers of one sign a larger
magnitude code means a larger absolute value, so both orders that planning needs, the
numerical one and the total one, are comparisons of integers.

The fraction field has 52 bits, so codes come in binades of `0x10000000000000`, and the sign is
worth `0x8000000000000000`.
-/

namespace GoalPlanning

/-- A binary64 number: its sign bit and the code made by the other 63 bits. -/
structure Binary64 where
  /-- The sign bit, set for negative numbers and for negative zero. -/
  negative : Bool
  /-- Exponent and fraction fields, read together as one number. -/
  magnitude : Nat
  /-- The code fits the 63 bits below the sign. -/
  magnitude_lt : magnitude < 0x8000000000000000
  deriving DecidableEq

namespace Binary64

/-- The magnitude code of infinity. Smaller codes are finite numbers, larger ones are NaNs. -/
def infinityCode : Nat := 0x7ff0000000000000

/-- The code of infinity leaves the sign bit free. -/
theorem infinityCode_lt : infinityCode < 0x8000000000000000 := by decide

/-! ## Bits -/

/-- Reads a number from its 64 bits. -/
def ofBits (bits : UInt64) : Binary64 :=
  ⟨0x8000000000000000 ≤ bits.toNat, bits.toNat % 0x8000000000000000, Nat.mod_lt _ (by decide)⟩

/-- The 64 bits of a number as a natural number. -/
def code (x : Binary64) : Nat :=
  if x.negative then 0x8000000000000000 + x.magnitude else x.magnitude

/-- A code has 64 bits. -/
theorem code_lt (x : Binary64) : x.code < 0x10000000000000000 := by
  have h := x.magnitude_lt
  unfold code
  split <;> omega

/-- The 64 bits of a number. -/
def toBits (x : Binary64) : UInt64 := UInt64.ofNat x.code

/-- A number can be read off its bits. -/
theorem ofBits_toBits (x : Binary64) : ofBits x.toBits = x := by
  obtain ⟨negative, magnitude, h⟩ := x
  have hcode := code_lt ⟨negative, magnitude, h⟩
  have htoNat : (toBits ⟨negative, magnitude, h⟩).toNat = code ⟨negative, magnitude, h⟩ :=
    UInt64.toNat_ofNat_of_lt' hcode
  cases negative <;> simp [ofBits, htoNat, code] <;> omega

/-- Every sequence of 64 bits is that of a number. -/
theorem toBits_ofBits (bits : UInt64) : (ofBits bits).toBits = bits := by
  have hbits := bits.toNat_lt
  have hcode : (ofBits bits).code = bits.toNat := by
    simp only [code, ofBits, decide_eq_true_eq]
    split <;> omega
  rw [toBits, hcode, UInt64.ofNat_toNat]

/-! ## Kinds of numbers -/

/-- A magnitude code above that of infinity marks a NaN. -/
def isNaN (x : Binary64) : Bool := infinityCode < x.magnitude

/-- Infinity of either sign. -/
def isInfinite (x : Binary64) : Bool := x.magnitude == infinityCode

/-- Neither infinite nor NaN. -/
def isFinite (x : Binary64) : Bool := x.magnitude < infinityCode

/-- Zero of either sign. -/
def isZero (x : Binary64) : Bool := x.magnitude == 0

/-- Zero of the given sign. -/
def signedZero (negative : Bool) : Binary64 := ⟨negative, 0, by decide⟩

/-- Infinity of the given sign. -/
def infinity (negative : Bool) : Binary64 := ⟨negative, infinityCode, infinityCode_lt⟩

/-- Positive zero. -/
def zero : Binary64 := signedZero false

/-- The number one. -/
def one : Binary64 := ⟨false, 0x3ff0000000000000, by decide⟩

/-- The NaN that an operation without a value gives, such as the sum of opposite infinities:
quiet, with the sign bit set and no payload. -/
def invalid : Binary64 := ⟨true, 0x7ff8000000000000, by decide⟩

/-- Sets the topmost fraction bit. An operation passes a NaN operand on in this form. -/
def quiet (x : Binary64) : Binary64 where
  negative := x.negative
  magnitude :=
    if x.magnitude / 0x8000000000000 % 2 = 1 then x.magnitude else x.magnitude + 0x8000000000000
  magnitude_lt := by
    have h := x.magnitude_lt
    split <;> omega

/-! ## Value -/

/-- The absolute value that a magnitude code stands for, in units of 2 ^ (-1074), the least
positive number. Every finite number is a whole number of these units. In the first two binades
the code itself counts them, and each further binade has steps twice as long. The code of infinity
gives the value that would come after the largest finite number. -/
def unitsOfCode (code : Nat) : Nat :=
  if code < 0x10000000000000 then code
  else (0x10000000000000 + code % 0x10000000000000) <<< (code / 0x10000000000000 - 1)

/-- The number one, counted in units. -/
def unitsPerOne : Nat := 1 <<< 1074

/-- The value of a finite number in units, with its sign. -/
def units (x : Binary64) : Int :=
  if x.negative then -(unitsOfCode x.magnitude : Int) else unitsOfCode x.magnitude

/-! ## Numerical comparison -/

/-- The magnitude code with the sign in front. Both zeros get the same one. -/
def signedCode (x : Binary64) : Int := if x.negative then -(x.magnitude : Int) else x.magnitude

/-- The numerical comparison "at most". It is false when an operand is NaN, and both zeros
are equal. -/
def numericLe (x y : Binary64) : Bool := !x.isNaN && !y.isNaN && x.signedCode ≤ y.signedCode

/-- Numerical equality. It is false when an operand is NaN, and both zeros are equal. -/
def numericEq (x y : Binary64) : Bool := !x.isNaN && !y.isNaN && x.signedCode == y.signedCode

/-- A number is below zero if it has the sign bit and is neither zero nor NaN. -/
def isBelowZero (x : Binary64) : Bool := !x.isNaN && x.signedCode < 0

/-! ## Total order -/

/-- The place of a number in the total order of IEEE 754: negative NaNs, negative numbers,
negative zero, positive zero, positive numbers, positive NaNs. -/
def rank (x : Binary64) : Int := if x.negative then -1 - (x.magnitude : Int) else x.magnitude

/-- Numbers of one rank are the same bit for bit. -/
theorem rank_inj {x y : Binary64} : x.rank = y.rank ↔ x = y := by
  refine ⟨fun h => ?_, fun h => h ▸ rfl⟩
  obtain ⟨sx, mx, hx⟩ := x
  obtain ⟨sy, my, hy⟩ := y
  cases sx <;> cases sy <;> simp only [rank, Bool.false_eq_true, if_true, if_false] at h
  · simp only [mk.injEq, true_and]
    omega
  · omega
  · omega
  · simp only [mk.injEq, true_and]
    omega

/-- Numbers are compared in the total order. -/
instance : Ord Binary64 := ⟨compareOn rank⟩

instance : Std.TransOrd Binary64 := inferInstanceAs (Std.TransCmp (compareOn rank))

instance : Std.LawfulEqOrd Binary64 where
  eq_of_compare {x y} h :=
    have hrank : compare x.rank y.rank = .eq := h
    rank_inj.1 (Std.LawfulEqOrd.eq_of_compare hrank)

end Binary64

end GoalPlanning
