import GoalPlanning.Action.Basic
import GoalPlanning.Binary64.Arithmetic
import GoalPlanning.Proofs.Binary64.RoundingOrder

/-!
# Sums of costs

The cost of a chain of actions is summed from zero, so it is never NaN and its sign bit is clear,
although a single cost may be negative zero and a sum may overflow to infinity. On such numbers
the numerical order and the total order are both the order of the magnitude codes, and addition
is monotone, never below its operands, and without effect where zero is added.
-/

namespace GoalPlanning.Binary64

/-! ## Two classes of numbers -/

/-- Neither NaN nor with a sign bit. -/
structure IsUnsigned (x : Binary64) : Prop where
  /-- The sign bit is clear. -/
  sign : x.negative = false
  /-- It is not NaN. Infinity is among these numbers. -/
  le_infinity : x.magnitude ≤ infinityCode

/-- At least zero as a number. Negative zero is among these numbers, and so is infinity. -/
structure IsNonneg (x : Binary64) : Prop where
  /-- Only zero may have the sign bit. -/
  sign : x.negative = true → x.magnitude = 0
  /-- It is not NaN. -/
  le_infinity : x.magnitude ≤ infinityCode

/-- Up to infinity no number is NaN. -/
theorem isNaN_eq_false {x : Binary64} (h : x.magnitude ≤ infinityCode) : x.isNaN = false := by
  simpa [isNaN] using h

/-- The numerical comparison in terms of codes. -/
theorem numericLe_iff {x y : Binary64} :
    x.numericLe y = true ↔
      x.magnitude ≤ infinityCode ∧ y.magnitude ≤ infinityCode ∧ x.signedCode ≤ y.signedCode := by
  simp [numericLe, isNaN, and_assoc]

/-- Zero is unsigned. -/
theorem zero_isUnsigned : zero.IsUnsigned := ⟨rfl, Nat.zero_le _⟩

/-- An unsigned number is at least zero. -/
theorem IsUnsigned.isNonneg {x : Binary64} (h : x.IsUnsigned) : x.IsNonneg :=
  ⟨fun hsign => by simp [h.sign] at hsign, h.le_infinity⟩

/-- A number is at least zero exactly if the numerical comparison says so. -/
theorem isNonneg_iff {x : Binary64} : x.IsNonneg ↔ zero.numericLe x = true := by
  have hzero : zero.magnitude = 0 ∧ zero.signedCode = 0 := ⟨rfl, rfl⟩
  rw [numericLe_iff, hzero.1, hzero.2]
  unfold signedCode
  constructor
  · intro h
    have hcode : 0 ≤ if x.negative then -(x.magnitude : ℤ) else x.magnitude := by
      split
      case isTrue hneg =>
        have hzero := h.sign hneg
        omega
      case isFalse => omega
    exact ⟨Nat.zero_le _, h.le_infinity, hcode⟩
  · rintro ⟨-, hle, hcode⟩
    constructor
    · intro hneg
      rw [if_pos hneg] at hcode
      omega
    · exact hle

/-- Costs are finite and at least zero. -/
theorem isNonneg_of_isCost {x : Binary64} (h : x.isCost = true) :
    x.IsNonneg ∧ x.magnitude < infinityCode := by
  simp only [isCost, isFinite, Bool.and_eq_true, decide_eq_true_eq] at h
  obtain ⟨hfinite, hsign⟩ := h
  have hzero : x.negative = true → x.magnitude = 0 := by
    intro hneg
    simp only [isBelowZero, isNaN_eq_false hfinite.le, signedCode, hneg] at hsign
    simpa using hsign
  exact ⟨⟨hzero, hfinite.le⟩, hfinite⟩

/-- The code of a number that is at least zero does not depend on its sign bit. -/
theorem IsNonneg.signedCode_eq {x : Binary64} (hx : x.IsNonneg) : x.signedCode = x.magnitude := by
  unfold signedCode
  split
  case isTrue hneg =>
    rw [hx.sign hneg]
    rfl
  case isFalse => rfl

/-- On numbers that are at least zero the numerical order is the order of the codes. -/
theorem IsNonneg.numericLe_iff {x y : Binary64} (hx : x.IsNonneg) (hy : y.IsNonneg) :
    x.numericLe y = true ↔ x.magnitude ≤ y.magnitude := by
  simp [Binary64.numericLe_iff, hx.signedCode_eq, hy.signedCode_eq, hx.le_infinity, hy.le_infinity]

/-- Numbers that are at least zero are equal as numbers if they have the same code. -/
theorem IsNonneg.numericEq_iff {x y : Binary64} (hx : x.IsNonneg) (hy : y.IsNonneg) :
    x.numericEq y = true ↔ x.magnitude = y.magnitude := by
  simp [numericEq, isNaN_eq_false hx.le_infinity, isNaN_eq_false hy.le_infinity,
    hx.signedCode_eq, hy.signedCode_eq]

/-- Numbers that are at least zero and have the same code are equal, or they are the two zeros. -/
theorem IsNonneg.eq_or_magnitude_eq_zero {x y : Binary64} (hx : x.IsNonneg) (hy : y.IsNonneg)
    (h : x.magnitude = y.magnitude) : x = y ∨ y.magnitude = 0 := by
  by_cases hzero : y.magnitude = 0
  · exact Or.inr hzero
  · have hunsigned {z : Binary64} (hz : z.IsNonneg) (hne : z.magnitude ≠ 0) : z.IsUnsigned :=
      ⟨by simpa using fun hneg => hne (hz.sign hneg), hz.le_infinity⟩
    have hx' := hunsigned hx (h ▸ hzero)
    exact Or.inl (rank_inj.1 (by simp [rank, hx'.sign, (hunsigned hy hzero).sign, h]))

/-- On unsigned numbers the numerical order is the order of the codes. -/
theorem IsUnsigned.numericLe_iff {x y : Binary64} (hx : x.IsUnsigned) (hy : y.IsUnsigned) :
    x.numericLe y = true ↔ x.magnitude ≤ y.magnitude :=
  hx.isNonneg.numericLe_iff hy.isNonneg

/-- On unsigned numbers the total order is the order of the codes. -/
theorem IsUnsigned.rank_eq {x : Binary64} (hx : x.IsUnsigned) : x.rank = x.magnitude := by
  simp [rank, hx.sign]

/-- On unsigned numbers the numerical order and the total order are the same. -/
theorem IsUnsigned.numericLe_iff_isLE_compare {x y : Binary64} (hx : x.IsUnsigned)
    (hy : y.IsUnsigned) : x.numericLe y = true ↔ (compare x y).isLE = true := by
  have hrank : compare x y = compare x.rank y.rank := rfl
  rw [hx.numericLe_iff hy, hrank, Std.isLE_compare, hx.rank_eq, hy.rank_eq, Nat.cast_le]

/-- Unsigned numbers are determined by their magnitudes. -/
theorem IsUnsigned.ext {x y : Binary64} (hx : x.IsUnsigned) (hy : y.IsUnsigned)
    (h : x.magnitude = y.magnitude) : x = y :=
  rank_inj.1 (by rw [hx.rank_eq, hy.rank_eq, h])

/-- The value of a number that is at least zero does not depend on its sign bit. -/
theorem IsNonneg.units_eq {x : Binary64} (hx : x.IsNonneg) :
    x.units = unitsOfCode x.magnitude := by
  unfold units
  split
  case isTrue hneg =>
    rw [hx.sign hneg]
    rfl
  case isFalse => rfl

/-- The value of a number that is at least zero rounds to the code of the number. -/
theorem IsNonneg.codeOfRatio_units {x : Binary64} (hx : x.IsNonneg) :
    codeOfRatio (unitsOfCode x.magnitude) 1 = x.magnitude := by
  rw [← Nat.mul_one (unitsOfCode x.magnitude), codeOfRatio_unitsOfCode_mul Nat.one_pos,
    min_eq_left hx.le_infinity]

/-- An unsigned number is not changed by rounding. -/
theorem IsUnsigned.codeOfRatio_units {x : Binary64} (hx : x.IsUnsigned) :
    codeOfRatio (unitsOfCode x.magnitude) 1 = x.magnitude :=
  hx.isNonneg.codeOfRatio_units

/-- A rounded number with a clear sign bit is unsigned. -/
theorem nearest_isUnsigned (num den : ℕ) : (nearest false num den).IsUnsigned :=
  ⟨rfl, codeOfRatio_le num den⟩

/-- A rounded number is at least zero if it is zero whenever it has the sign bit. -/
theorem nearest_isNonneg {negative : Bool} {num den : ℕ}
    (h : negative = true → codeOfRatio num den = 0) : (nearest negative num den).IsNonneg :=
  ⟨h, codeOfRatio_le num den⟩

/-! ## Addition -/

/-- What is at least as large as infinity rounds to infinity. -/
theorem codeOfRatio_of_infinity_le {num : ℕ} (h : unitsOfCode infinityCode ≤ num) :
    codeOfRatio num 1 = infinityCode := by
  refine le_antisymm (codeOfRatio_le num 1) ?_
  calc infinityCode = codeOfRatio (unitsOfCode infinityCode * 1) 1 := by
        rw [codeOfRatio_unitsOfCode_mul Nat.one_pos, min_self]
    _ ≤ codeOfRatio num 1 := codeOfRatio_mono Nat.one_pos Nat.one_pos (by omega)

/-- Infinity absorbs what is added to it. -/
theorem add_of_left_infinite {x y : Binary64} (hx : x.IsUnsigned) (hy : y.IsNonneg)
    (hinf : x.magnitude = infinityCode) : x + y = x := by
  have hsign : ¬(y.magnitude = infinityCode ∧ y.negative = true) := by
    rintro ⟨hmag, hneg⟩
    simp [hy.sign hneg, infinityCode] at hmag
  change add x y = x
  simp [add, isNaN_eq_false hx.le_infinity, isNaN_eq_false hy.le_infinity, isInfinite, hx.sign,
    hinf, hsign]

/-- A finite number is absorbed by infinity. -/
theorem add_of_right_infinite {x y : Binary64} (hx : x.magnitude < infinityCode)
    (hinf : y.magnitude = infinityCode) : x + y = y := by
  change add x y = y
  simp [add, isNaN_eq_false hx.le, isNaN_eq_false hinf.le, isInfinite, hinf, hx.ne]

/-- A sum of finite numbers is the exact sum, rounded once. If it vanishes, then the signs decide
which zero it is. -/
theorem add_of_finite {x y : Binary64} (hx : x.magnitude < infinityCode)
    (hy : y.magnitude < infinityCode) :
    x + y = if x.units + y.units = 0 then signedZero (x.negative && y.negative)
      else nearest (x.units + y.units < 0) (x.units + y.units).natAbs 1 := by
  change add x y = _
  simp [add, isNaN_eq_false hx.le, isNaN_eq_false hy.le, isInfinite, hx.ne, hy.ne]

/-- An unsigned number plus one that is at least zero is unsigned, and its code is the rounded
sum of the values. Infinity needs no case here: its value is what would come after the largest
finite number, and such sums overflow. -/
theorem add_of_isNonneg {x y : Binary64} (hx : x.IsUnsigned) (hy : y.IsNonneg) :
    (x + y).IsUnsigned ∧
      (x + y).magnitude = codeOfRatio (unitsOfCode x.magnitude + unitsOfCode y.magnitude) 1 := by
  by_cases hxinf : x.magnitude = infinityCode
  · rw [add_of_left_infinite hx hy hxinf, hxinf, codeOfRatio_of_infinity_le (Nat.le_add_right _ _)]
    exact ⟨hx, rfl⟩
  have hxfin := lt_of_le_of_ne hx.le_infinity hxinf
  by_cases hyinf : y.magnitude = infinityCode
  · rw [add_of_right_infinite hxfin hyinf, hyinf, codeOfRatio_of_infinity_le (Nat.le_add_left _ _)]
    refine ⟨⟨?_, hy.le_infinity⟩, rfl⟩
    by_contra hneg
    simp [hy.sign (by simpa using hneg), infinityCode] at hyinf
  have hyfin := lt_of_le_of_ne hy.le_infinity hyinf
  have hsum : x.units + y.units = (unitsOfCode x.magnitude + unitsOfCode y.magnitude : ℕ) := by
    rw [hx.isNonneg.units_eq, hy.units_eq, Nat.cast_add]
  rw [add_of_finite hxfin hyfin, hsum]
  generalize unitsOfCode x.magnitude + unitsOfCode y.magnitude = sum
  by_cases hzero : (sum : ℤ) = 0
  · rw [if_pos hzero, hx.sign, show sum = 0 by omega]
    exact ⟨zero_isUnsigned, rfl⟩
  · rw [if_neg hzero]
    exact ⟨⟨by simp [nearest], codeOfRatio_le _ _⟩, rfl⟩

/-- A sum of costs is unsigned. -/
theorem IsUnsigned.add {x y : Binary64} (hx : x.IsUnsigned) (hy : y.IsNonneg) :
    (x + y).IsUnsigned :=
  (add_of_isNonneg hx hy).1

/-- The code of a sum is the rounded sum of the values. -/
theorem IsUnsigned.magnitude_add {x y : Binary64} (hx : x.IsUnsigned) (hy : y.IsNonneg) :
    (x + y).magnitude = codeOfRatio (unitsOfCode x.magnitude + unitsOfCode y.magnitude) 1 :=
  (add_of_isNonneg hx hy).2

/-- If the first number may be negative zero, then so may the sum, but its code is still the rounded
sum of the values. -/
theorem IsNonneg.add_spec {x y : Binary64} (hx : x.IsNonneg) (hy : y.IsNonneg) :
    (x + y).IsNonneg ∧
      (x + y).magnitude = codeOfRatio (unitsOfCode x.magnitude + unitsOfCode y.magnitude) 1 := by
  by_cases hsign : x.negative = true
  · have hzero := hx.sign hsign
    have hxfin : x.magnitude < infinityCode := by
      rw [hzero]
      decide
    by_cases hyinf : y.magnitude = infinityCode
    · rw [add_of_right_infinite hxfin hyinf, hyinf,
        codeOfRatio_of_infinity_le (Nat.le_add_left _ _)]
      exact ⟨hy, rfl⟩
    have hsum : x.units + y.units = unitsOfCode y.magnitude := by
      rw [hx.units_eq, hy.units_eq, hzero]
      simp [unitsOfCode]
    rw [add_of_finite hxfin (lt_of_le_of_ne hy.le_infinity hyinf), hsum, hzero,
      show unitsOfCode 0 = 0 from rfl, Nat.zero_add]
    generalize unitsOfCode y.magnitude = sum
    by_cases hnothing : (sum : ℤ) = 0
    · rw [if_pos hnothing, show sum = 0 by omega]
      exact ⟨⟨fun _ => rfl, Nat.zero_le _⟩, rfl⟩
    · rw [if_neg hnothing]
      exact ⟨⟨by simp [nearest], codeOfRatio_le _ _⟩, rfl⟩
  · have hunsigned : x.IsUnsigned := ⟨by simpa using hsign, hx.le_infinity⟩
    exact ⟨(hunsigned.add hy).isNonneg, hunsigned.magnitude_add hy⟩

/-- Adding zero of either sign changes nothing. -/
theorem IsUnsigned.add_eq_left {x y : Binary64} (hx : x.IsUnsigned) (hy : y.IsNonneg)
    (hzero : y.magnitude = 0) : x + y = x := by
  apply (hx.add hy).ext hx
  rw [hx.magnitude_add hy, hzero, show unitsOfCode 0 = 0 from rfl, Nat.add_zero,
    hx.codeOfRatio_units]

/-- A sum is at least as large as every number that the exact sum reaches. -/
theorem IsUnsigned.le_magnitude_add {x y : Binary64} (hx : x.IsUnsigned) (hy : y.IsNonneg)
    {code : ℕ} (hcode : code ≤ infinityCode)
    (h : unitsOfCode code ≤ unitsOfCode x.magnitude + unitsOfCode y.magnitude) :
    code ≤ (x + y).magnitude := by
  rw [hx.magnitude_add hy]
  calc code = codeOfRatio (unitsOfCode code * 1) 1 := by
        rw [codeOfRatio_unitsOfCode_mul Nat.one_pos, min_eq_left hcode]
    _ ≤ _ := codeOfRatio_mono Nat.one_pos Nat.one_pos (by omega)

/-- A sum is never below its first operand. -/
theorem IsUnsigned.magnitude_le_add {x y : Binary64} (hx : x.IsUnsigned) (hy : y.IsNonneg) :
    x.magnitude ≤ (x + y).magnitude :=
  hx.le_magnitude_add hy hx.le_infinity (Nat.le_add_right _ _)

/-- A sum is monotone in its first operand. -/
theorem IsUnsigned.magnitude_add_mono {x x' y : Binary64} (hx : x.IsUnsigned)
    (hx' : x'.IsUnsigned) (hy : y.IsNonneg) (h : x.magnitude ≤ x'.magnitude) :
    (x + y).magnitude ≤ (x' + y).magnitude := by
  rw [hx.magnitude_add hy, hx'.magnitude_add hy]
  have hunits := unitsOfCode_strictMono.monotone h
  apply codeOfRatio_mono Nat.one_pos Nat.one_pos
  omega

/-- A sum is monotone in its second operand. -/
theorem IsUnsigned.magnitude_add_mono_right {x y y' : Binary64} (hx : x.IsUnsigned)
    (hy : y.IsNonneg) (hy' : y'.IsNonneg) (h : y.magnitude ≤ y'.magnitude) :
    (x + y).magnitude ≤ (x + y').magnitude := by
  rw [hx.magnitude_add hy, hx.magnitude_add hy']
  have hunits := unitsOfCode_strictMono.monotone h
  apply codeOfRatio_mono Nat.one_pos Nat.one_pos
  omega

/-- Whatever it is multiplied with, a zero of either sign adds the same. -/
theorem IsUnsigned.add_mul_zero {x : Binary64} (hx : x.IsUnsigned) (factor : Binary64)
    {y y' : Binary64} (hy : y.magnitude = 0) (hy' : y'.magnitude = 0) :
    x + factor * y = x + factor * y' := by
  have hkind {z : Binary64} (hz : z.magnitude = 0) :
      z.isNaN = false ∧ z.isInfinite = false ∧ z.isZero = true := by
    rw [isNaN, isInfinite, isZero, hz]
    decide
  have hnothing (negative : Bool) : x + nearest negative 0 unitsPerOne = x := by
    have hcode : codeOfRatio 0 unitsPerOne = 0 := by decide +kernel
    exact hx.add_eq_left ⟨fun _ => hcode, codeOfRatio_le _ _⟩ hcode
  have hunits : unitsOfCode factor.magnitude * unitsOfCode 0 = 0 := Nat.mul_zero _
  change x + mul factor y = x + mul factor y'
  unfold mul
  rw [hy, hy', hunits]
  cases hnan : factor.isNaN <;> cases hinfinite : factor.isInfinite <;>
    simp [hkind hy, hkind hy', hnothing]

end GoalPlanning.Binary64
