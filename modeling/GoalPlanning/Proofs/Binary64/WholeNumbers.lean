import GoalPlanning.Proofs.Binary64.Sums
import Mathlib.Algebra.Order.Field.Rat
import Mathlib.Tactic.FieldSimp
import Mathlib.Tactic.Positivity

/-!
# Whole numbers

Every whole number up to 2 ^ 53 is a binary64 number, so sums of whole numbers are exact as long
as they do not exceed this bound. The exact value of a number is a fraction; for numbers that are
at least zero it is a count of units divided by the count that makes one.
-/

namespace GoalPlanning.Binary64

/-- The exact value of a finite number. -/
def toRat (x : Binary64) : ℚ := x.units / unitsPerOne

/-- Whether the value is a natural number. -/
def IsWhole (x : Binary64) : Prop := ∃ n : ℕ, x.toRat = n

/-- Zero is zero. -/
@[simp] theorem toRat_zero : zero.toRat = 0 := by
  rw [toRat, zero_isUnsigned.isNonneg.units_eq, show unitsOfCode zero.magnitude = 0 from rfl]
  simp

/-- The units that make one are a power of two. -/
theorem exists_unitsPerOne_eq : ∃ e, unitsPerOne = 2 ^ e := by
  have hshift (e : ℕ) : ∃ e', 1 <<< e = 2 ^ e' := ⟨e, Nat.one_shiftLeft e⟩
  exact hshift 1074

/-- One is some number of units. -/
theorem unitsPerOne_pos : 0 < unitsPerOne := by
  obtain ⟨e, he⟩ := exists_unitsPerOne_eq
  rw [he]
  exact Nat.two_pow_pos e

/-- The value of a number that is at least zero, from its units. -/
theorem IsNonneg.toRat_eq {x : Binary64} (hx : x.IsNonneg) :
    x.toRat = (unitsOfCode x.magnitude : ℚ) / unitsPerOne := by
  rw [toRat, hx.units_eq, Int.cast_natCast]

/-- Values are compared by comparing units. -/
theorem IsNonneg.toRat_le_iff {x : Binary64} (hx : x.IsNonneg) {units : ℕ} :
    x.toRat ≤ units / unitsPerOne ↔ unitsOfCode x.magnitude ≤ units := by
  have hpos : (0 : ℚ) < unitsPerOne := by exact_mod_cast unitsPerOne_pos
  rw [toRat, hx.units_eq, div_le_div_iff_of_pos_right hpos]
  exact_mod_cast Iff.rfl

/-- A number below 2 ^ 53 is so in units. -/
theorem IsNonneg.units_lt_of_toRat_lt {x : Binary64} (hx : x.IsNonneg) (h : x.toRat < 2 ^ 53) :
    unitsOfCode x.magnitude < 2 ^ 53 * unitsPerOne := by
  have hpos : (0 : ℚ) < unitsPerOne := by exact_mod_cast unitsPerOne_pos
  rw [toRat, hx.units_eq, div_lt_iff₀ hpos] at h
  exact_mod_cast h

/-- A whole number that is at least zero is a multiple of the units that make one. -/
theorem IsNonneg.isWhole_iff {x : Binary64} (hx : x.IsNonneg) :
    x.IsWhole ↔ ∃ n, unitsOfCode x.magnitude = n * unitsPerOne := by
  have hpos : (0 : ℚ) < unitsPerOne := by exact_mod_cast unitsPerOne_pos
  refine exists_congr fun n => ?_
  rw [toRat, hx.units_eq, div_eq_iff hpos.ne']
  exact_mod_cast Iff.rfl

/-- Whole numbers up to 2 ^ 53 are finite. -/
theorem whole_lt_infinity {n : ℕ} (hn : n ≤ 2 ^ 53) :
    n * unitsPerOne < unitsOfCode infinityCode := by
  have hfinite : 2 ^ 53 * unitsPerOne < unitsOfCode infinityCode := by decide +kernel
  exact (Nat.mul_le_mul_right unitsPerOne hn).trans_lt hfinite

/-- Whole numbers up to 2 ^ 53 are not changed by rounding. -/
theorem unitsOfCode_codeOfRatio_whole {n : ℕ} (hn : n ≤ 2 ^ 53) :
    unitsOfCode (codeOfRatio (n * unitsPerOne) 1) = n * unitsPerOne := by
  have hlt := whole_lt_infinity hn
  obtain ⟨e, he⟩ := exists_unitsPerOne_eq
  rw [he] at hlt ⊢
  exact unitsOfCode_codeOfRatio (two_pow_binadeShift_dvd hn e) hlt

/-- A number at most as large as a whole number up to 2 ^ 53 has at most its value. -/
theorem unitsOfCode_le_of_le_whole {code n : ℕ} (hn : n ≤ 2 ^ 53)
    (h : code ≤ codeOfRatio (n * unitsPerOne) 1) : unitsOfCode code ≤ n * unitsPerOne := by
  rw [← unitsOfCode_codeOfRatio_whole hn]
  exact unitsOfCode_strictMono.monotone h

/-- What rounds to less than 2 ^ 53 is not changed by rounding, if it is a whole number. -/
theorem unitsOfCode_codeOfRatio_of_lt {num : ℕ} (hdvd : unitsPerOne ∣ num)
    (hlt : unitsOfCode (codeOfRatio num 1) < 2 ^ 53 * unitsPerOne) :
    unitsOfCode (codeOfRatio num 1) = num := by
  obtain ⟨n, rfl⟩ := hdvd
  rw [Nat.mul_comm] at hlt ⊢
  by_cases hn : n ≤ 2 ^ 53
  · exact unitsOfCode_codeOfRatio_whole hn
  · have hle : 2 ^ 53 * unitsPerOne * 1 ≤ n * unitsPerOne * 1 :=
      Nat.mul_le_mul_right 1 (Nat.mul_le_mul_right _ (Nat.le_of_not_le hn))
    have hunits := unitsOfCode_strictMono.monotone
      (codeOfRatio_mono Nat.one_pos Nat.one_pos hle)
    rw [unitsOfCode_codeOfRatio_whole le_rfl] at hunits
    exact absurd hlt (not_lt.2 hunits)

/-- A sum of whole numbers that is below 2 ^ 53 is exact. -/
theorem IsUnsigned.units_add_of_lt {x y : Binary64} (hx : x.IsUnsigned) (hy : y.IsNonneg)
    (hxdvd : unitsPerOne ∣ unitsOfCode x.magnitude) (hydvd : unitsPerOne ∣ unitsOfCode y.magnitude)
    (hlt : unitsOfCode (x + y).magnitude < 2 ^ 53 * unitsPerOne) :
    unitsOfCode (x + y).magnitude = unitsOfCode x.magnitude + unitsOfCode y.magnitude := by
  rw [hx.magnitude_add hy] at hlt ⊢
  exact unitsOfCode_codeOfRatio_of_lt (Nat.dvd_add hxdvd hydvd) hlt

/-! ## Counts -/

/-- A natural number as a binary64 number is unsigned. If it is too large, it is infinite. -/
theorem ofNat_isUnsigned (n : ℕ) : (ofNat n).IsUnsigned := nearest_isUnsigned _ _

/-- Up to 2 ^ 53 a natural number is converted exactly. -/
theorem unitsOfCode_ofNat {n : ℕ} (hn : n ≤ 2 ^ 53) :
    unitsOfCode (ofNat n).magnitude = n * unitsPerOne :=
  unitsOfCode_codeOfRatio_whole hn

/-- Whole numbers up to 2⁵³ are represented exactly. -/
theorem toRat_ofNat {n : ℕ} (hn : n ≤ 2 ^ 53) : (ofNat n).toRat = n := by
  have hpos : (0 : ℚ) < unitsPerOne := by exact_mod_cast unitsPerOne_pos
  rw [toRat, (ofNat_isUnsigned n).isNonneg.units_eq, unitsOfCode_ofNat hn, div_eq_iff hpos.ne']
  exact_mod_cast rfl

/-- Numbers that represent whole numbers up to 2⁵³ are whole. -/
theorem isWhole_ofNat {n : ℕ} (hn : n ≤ 2 ^ 53) : (ofNat n).IsWhole := ⟨n, toRat_ofNat hn⟩

/-- Rounding keeps whole numbers up to 2 ^ 53 finite. -/
theorem codeOfRatio_whole_lt_infinity {n : ℕ} (hn : n ≤ 2 ^ 53) :
    codeOfRatio (n * unitsPerOne) 1 < infinityCode := by
  rw [← unitsOfCode_strictMono.lt_iff_lt, unitsOfCode_codeOfRatio_whole hn]
  exact whole_lt_infinity hn

end GoalPlanning.Binary64
