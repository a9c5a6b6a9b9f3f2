import GoalPlanning.Proofs.Binary64.WholeNumbers
import Mathlib.Algebra.Order.Floor.Div

/-!
# Quotients and products

An estimate divides a count by another count, takes the ceiling and multiplies it with a cost.
Each of these operations rounds once. A whole number that bounds the exact quotient is a number
itself, so by monotony it bounds the rounded quotient too.
-/

namespace GoalPlanning.Binary64

variable {x y : Binary64}

/-! ## Quotients -/

/-- Dividing by infinity gives zero. -/
theorem IsUnsigned.div_of_right_infinite (hx : x.IsUnsigned) (hfinite : x.magnitude < infinityCode)
    (hy : y.IsUnsigned) (hinf : y.magnitude = infinityCode) : x / y = zero := by
  change div x y = zero
  simp [div, isNaN_eq_false hx.le_infinity, isNaN_eq_false hy.le_infinity, isInfinite, hx.sign,
    hy.sign, hfinite.ne, hinf, zero]

/-- A quotient of finite numbers is the exact quotient, rounded once. -/
theorem IsUnsigned.div_of_finite (hx : x.IsUnsigned) (hfinite : x.magnitude < infinityCode)
    (hy : y.IsUnsigned) (hyfinite : y.magnitude < infinityCode) (hpos : 0 < y.magnitude) :
    x / y = nearest false (unitsOfCode x.magnitude * unitsPerOne) (unitsOfCode y.magnitude) := by
  change div x y = _
  simp [div, isNaN_eq_false hx.le_infinity, isNaN_eq_false hy.le_infinity, isInfinite, isZero,
    hx.sign, hy.sign, hfinite.ne, hyfinite.ne, hpos.ne']

/-- A quotient of unsigned numbers is bounded by each whole number that bounds the exact
quotient. -/
theorem IsUnsigned.div_le (hx : x.IsUnsigned) (hfinite : x.magnitude < infinityCode)
    (hy : y.IsUnsigned) (hpos : 0 < y.magnitude) {k : ℕ}
    (hle : unitsOfCode x.magnitude ≤ k * unitsOfCode y.magnitude) :
    (x / y).IsUnsigned ∧ (x / y).magnitude ≤ codeOfRatio (k * unitsPerOne) 1 := by
  rcases hy.le_infinity.eq_or_lt with hinf | hyfinite
  · rw [hx.div_of_right_infinite hfinite hy hinf]
    exact ⟨zero_isUnsigned, Nat.zero_le _⟩
  · rw [hx.div_of_finite hfinite hy hyfinite hpos]
    refine ⟨nearest_isUnsigned _ _, ?_⟩
    have hunits : 0 < unitsOfCode y.magnitude := unitsOfCode_strictMono hpos
    refine codeOfRatio_mono hunits Nat.one_pos ?_
    calc unitsOfCode x.magnitude * unitsPerOne * 1
        = unitsOfCode x.magnitude * unitsPerOne := Nat.mul_one _
      _ ≤ k * unitsOfCode y.magnitude * unitsPerOne := Nat.mul_le_mul_right _ hle
      _ = k * unitsPerOne * unitsOfCode y.magnitude := Nat.mul_right_comm ..

/-- Dividing by one or more gives no larger number. -/
theorem IsUnsigned.div_le_left (hx : x.IsUnsigned) (hfinite : x.magnitude < infinityCode)
    (hy : y.IsUnsigned) (hone : unitsPerOne ≤ unitsOfCode y.magnitude) :
    (x / y).IsUnsigned ∧ (x / y).magnitude ≤ x.magnitude := by
  have hunits := unitsPerOne_pos.trans_le hone
  have hpos : 0 < y.magnitude := unitsOfCode_strictMono.lt_iff_lt.1 hunits
  rcases hy.le_infinity.eq_or_lt with hinf | hyfinite
  · rw [hx.div_of_right_infinite hfinite hy hinf]
    exact ⟨zero_isUnsigned, Nat.zero_le _⟩
  · rw [hx.div_of_finite hfinite hy hyfinite hpos]
    refine ⟨nearest_isUnsigned _ _, ?_⟩
    calc codeOfRatio (unitsOfCode x.magnitude * unitsPerOne) (unitsOfCode y.magnitude)
        ≤ codeOfRatio (unitsOfCode x.magnitude) 1 := by
          apply codeOfRatio_mono hunits Nat.one_pos
          rw [Nat.mul_one]
          exact Nat.mul_le_mul_left _ hone
      _ = x.magnitude := hx.codeOfRatio_units

/-! ## Ceilings -/

/-- The next whole number above a finite number is counted in units and written as a number. -/
theorem IsUnsigned.ceil_of_finite (hx : x.IsUnsigned) (hfinite : x.magnitude < infinityCode) :
    x.ceil = nearest false
      ((unitsOfCode x.magnitude + (unitsPerOne - 1)) / unitsPerOne * unitsPerOne) 1 := by
  simp [ceil, isNaN_eq_false hx.le_infinity, isInfinite, hx.sign, hfinite.ne]

/-- The ceiling of an unsigned number is the number of units divided by the units that make one,
rounded up. -/
theorem IsUnsigned.ceil_eq_ofNat (hx : x.IsUnsigned) (hfinite : x.magnitude < infinityCode) :
    x.ceil = ofNat (unitsOfCode x.magnitude ⌈/⌉ unitsPerOne) := by
  rw [hx.ceil_of_finite hfinite, Nat.ceilDiv_eq_add_pred_div, Nat.add_sub_assoc unitsPerOne_pos,
    ofNat]

/-- Above 2 ^ 53 all numbers are whole. -/
theorem unitsPerOne_dvd_unitsOfCode {code : ℕ} (h : 2 ^ 53 * unitsPerOne ≤ unitsOfCode code) :
    unitsPerOne ∣ unitsOfCode code := by
  obtain ⟨e, he⟩ := exists_unitsPerOne_eq
  obtain ⟨shift, m, rfl, hlt, hge⟩ := exists_binade code
  rw [unitsOfCode_binade hlt.le hge, he] at h ⊢
  have hstep : 2 ^ e < 2 ^ shift := by
    by_contra hle
    have hbelow : m * 2 ^ shift < 2 ^ 53 * 2 ^ e :=
      (Nat.mul_le_mul_left m (not_lt.1 hle)).trans_lt
        (Nat.mul_lt_mul_of_pos_right hlt (Nat.two_pow_pos e))
    omega
  have hexponent : e < shift := (Nat.pow_lt_pow_iff_right (by omega)).1 hstep
  exact Dvd.dvd.mul_left (Nat.pow_dvd_pow 2 hexponent.le) m

/-- The ceiling of a finite unsigned number is finite: up to 2 ^ 53 it is at most 2 ^ 53, and above
that it is the number itself. -/
theorem IsUnsigned.ceil_lt_infinity (hx : x.IsUnsigned) (hfinite : x.magnitude < infinityCode) :
    x.ceil.IsUnsigned ∧ x.ceil.magnitude < infinityCode := by
  rw [hx.ceil_eq_ofNat hfinite]
  refine ⟨ofNat_isUnsigned _, ?_⟩
  change codeOfRatio ((unitsOfCode x.magnitude ⌈/⌉ unitsPerOne) * unitsPerOne) 1 < infinityCode
  rcases Nat.le_total (unitsOfCode x.magnitude) (2 ^ 53 * unitsPerOne) with hsmall | hlarge
  · apply codeOfRatio_whole_lt_infinity
    rwa [ceilDiv_le_iff_le_mul unitsPerOne_pos, Nat.mul_comm]
  · obtain ⟨k, hk⟩ := unitsPerOne_dvd_unitsOfCode hlarge
    have hceil : unitsOfCode x.magnitude ⌈/⌉ unitsPerOne ≤ k :=
      (ceilDiv_le_iff_le_mul unitsPerOne_pos).2 hk.le
    have hunits : (unitsOfCode x.magnitude ⌈/⌉ unitsPerOne) * unitsPerOne ≤
        unitsOfCode x.magnitude := by
      calc (unitsOfCode x.magnitude ⌈/⌉ unitsPerOne) * unitsPerOne
          ≤ k * unitsPerOne := Nat.mul_le_mul_right _ hceil
        _ = unitsOfCode x.magnitude := by rw [hk, Nat.mul_comm]
    calc codeOfRatio ((unitsOfCode x.magnitude ⌈/⌉ unitsPerOne) * unitsPerOne) 1
        ≤ codeOfRatio (unitsOfCode x.magnitude) 1 :=
          codeOfRatio_mono Nat.one_pos Nat.one_pos (Nat.mul_le_mul_right 1 hunits)
      _ = x.magnitude := hx.codeOfRatio_units
      _ < infinityCode := hfinite

/-! ## Products -/

/-- A product of finite numbers is the exact product, rounded once. -/
theorem IsUnsigned.mul_of_finite (hx : x.IsUnsigned) (hfinite : x.magnitude < infinityCode)
    (hyfinite : y.magnitude < infinityCode) :
    x * y = nearest y.negative (unitsOfCode x.magnitude * unitsOfCode y.magnitude) unitsPerOne := by
  change mul x y = _
  simp [mul, isNaN_eq_false hx.le_infinity, isNaN_eq_false hyfinite.le, isInfinite, hx.sign,
    hfinite.ne, hyfinite.ne]

/-- The product of a finite unsigned number and a finite one that is at least zero is at least
zero. It may be infinite, and it may be negative zero. -/
theorem IsUnsigned.mul_isNonneg (hx : x.IsUnsigned) (hfinite : x.magnitude < infinityCode)
    (hy : y.IsNonneg) (hyfinite : y.magnitude < infinityCode) : (x * y).IsNonneg := by
  rw [hx.mul_of_finite hfinite hyfinite]
  refine nearest_isNonneg fun hsign => ?_
  rw [hy.sign hsign, show unitsOfCode 0 = 0 from rfl, Nat.mul_zero]
  decide +kernel

/-- A product with a count up to 2 ^ 53 is the exact product, rounded. -/
theorem ofNat_mul {k : ℕ} (hk : k ≤ 2 ^ 53) (hy : y.IsNonneg)
    (hyfinite : y.magnitude < infinityCode) :
    (ofNat k * y).IsNonneg ∧
      (ofNat k * y).magnitude = codeOfRatio (k * unitsOfCode y.magnitude) 1 := by
  rw [(ofNat_isUnsigned k).mul_of_finite (codeOfRatio_whole_lt_infinity hk) hyfinite,
    unitsOfCode_ofNat hk]
  have hratio : k * unitsPerOne * unitsOfCode y.magnitude * 1 =
      k * unitsOfCode y.magnitude * unitsPerOne := by ring
  have hproduct : codeOfRatio (k * unitsPerOne * unitsOfCode y.magnitude) unitsPerOne =
      codeOfRatio (k * unitsOfCode y.magnitude) 1 :=
    le_antisymm (codeOfRatio_mono unitsPerOne_pos Nat.one_pos hratio.le)
      (codeOfRatio_mono Nat.one_pos unitsPerOne_pos hratio.ge)
  refine ⟨nearest_isNonneg fun hsign => ?_, hproduct⟩
  rw [hproduct, hy.sign hsign, show unitsOfCode 0 = 0 from rfl, Nat.mul_zero]
  decide

end GoalPlanning.Binary64
