import GoalPlanning.Proofs.Binary64.Quotients

/-!
# Ceilings of quotients of counts

The quotient of two counts is rounded before its ceiling is taken. Rounding up to the next whole
number would not matter, but rounding down to a whole number would make the ceiling too small.
This does not happen as long as the dividend is at most 2 ^ 53: then the quotient is further away
from any whole number below it than rounding can bridge, and the ceiling is that of the exact
quotient.
-/

namespace GoalPlanning.Binary64

/-! ## How far rounding down reaches -/

/-- What rounds to at most some number lies at most in the middle between this number and the next
one. -/
theorem le_middle_of_codeOfRatio_le {num den code : ℕ} (hden : 0 < den)
    (hcode : code < infinityCode) (h : codeOfRatio num den ≤ code) :
    2 * num ≤ (unitsOfCode code + unitsOfCode (code + 1)) * den := by
  obtain ⟨hlt_scaled, -⟩ := scaled_quotient_bounds num hden
  obtain ⟨-, hge_rounded⟩ := roundQuotient_bounds num hden
  obtain ⟨shift, m, rfl, hlt, hge⟩ := exists_binade code
  rw [codeOfRatio, min_le_iff, or_iff_left (by omega)] at h
  rw [Nat.add_assoc, unitsOfCode_binade hlt.le hge, unitsOfCode_binade hlt (by omega)]
  have hshift_pos := Nat.mul_pos hden (Nat.two_pow_pos (binadeShift num den))
  rw [Nat.shiftLeft_eq] at hlt_scaled hge_rounded h
  generalize binadeShift num den = shift' at *
  rcases lt_trichotomy shift' shift with hbelow | rfl | habove
  · -- The quotient lies in a lower binade than the number.
    have hm : 2 ^ 52 ≤ m := hge.resolve_left (by omega)
    have hstep : 2 ^ (shift' + 1) ≤ 2 ^ shift := Nat.pow_le_pow_right Nat.two_pos hbelow
    calc 2 * num ≤ 2 * (2 ^ 53 * (den * 2 ^ shift')) := Nat.mul_le_mul_left 2 hlt_scaled.le
      _ = 2 * 2 ^ 52 * 2 ^ (shift' + 1) * den := by ring
      _ ≤ 2 * m * 2 ^ shift * den := by gcongr
      _ ≤ (m * 2 ^ shift + (m + 1) * 2 ^ shift) * den := by
          apply Nat.mul_le_mul_right
          rw [← Nat.add_mul]
          exact Nat.mul_le_mul_right _ (by omega)
  · have hround : roundQuotient num (den * 2 ^ shift') ≤ m := by omega
    have hmiddle : 2 * num ≤ (2 * m + 1) * (den * 2 ^ shift') := by
      rcases (roundQuotient_le_iff hshift_pos).1 hround with hlt' | ⟨heq, -⟩
      · exact hlt'.le
      · exact heq.le
    calc 2 * num ≤ (2 * m + 1) * (den * 2 ^ shift') := hmiddle
      _ = (m * 2 ^ shift' + (m + 1) * 2 ^ shift') * den := by ring
  · have hsignificand := hge_rounded.resolve_left (by omega)
    omega

/-- What rounds to at most some number that is not subnormal exceeds it by one part in 2 ^ 53 at
most. -/
theorem mul_le_of_codeOfRatio_le {num den code : ℕ} (hden : 0 < den) (hnormal : 2 ^ 52 ≤ code)
    (hcode : code < infinityCode) (h : codeOfRatio num den ≤ code) :
    2 ^ 53 * num ≤ (2 ^ 53 + 1) * (unitsOfCode code * den) := by
  have hmiddle := le_middle_of_codeOfRatio_le hden hcode h
  obtain ⟨shift, m, rfl, hlt, hge⟩ := exists_binade code
  rw [Nat.add_assoc, unitsOfCode_binade hlt.le hge, unitsOfCode_binade hlt (by omega)] at hmiddle
  rw [unitsOfCode_binade hlt.le hge]
  have hm : 2 ^ 52 ≤ m := by omega
  calc 2 ^ 53 * num = 2 ^ 52 * (2 * num) := by ring
    _ ≤ 2 ^ 52 * ((m * 2 ^ shift + (m + 1) * 2 ^ shift) * den) := Nat.mul_le_mul_left _ hmiddle
    _ = (2 ^ 53 * m + 2 ^ 52) * (2 ^ shift * den) := by ring
    _ ≤ (2 ^ 53 * m + m) * (2 ^ shift * den) := by gcongr
    _ = (2 ^ 53 + 1) * (m * 2 ^ shift * den) := by ring

/-- A whole number that is not zero is not subnormal. -/
theorem le_codeOfRatio_whole {n : ℕ} (hpos : 0 < n) (hn : n ≤ 2 ^ 53) :
    2 ^ 52 ≤ codeOfRatio (n * unitsPerOne) 1 := by
  have hnormal : unitsOfCode (2 ^ 52) ≤ unitsPerOne := by decide +kernel
  rw [← unitsOfCode_strictMono.le_iff_le, unitsOfCode_codeOfRatio_whole hn]
  exact hnormal.trans (Nat.le_mul_of_pos_left _ hpos)

/-! ## Counts as divisors -/

/-- A count divided by a converted number. Beyond 2 ^ 53 the number may lose its last bits, but
not so many that a count up to 2 ^ 53 exceeds it. -/
theorem le_mul_unitsOfCode_ofNat {count k m : ℕ} (hcount : count ≤ 2 ^ 53) (hle : count ≤ m * k) :
    count * unitsPerOne ≤ k * unitsOfCode (ofNat m).magnitude := by
  have hunits : min m (2 ^ 53) * unitsPerOne ≤ unitsOfCode (ofNat m).magnitude := by
    rw [← unitsOfCode_codeOfRatio_whole (min_le_right m (2 ^ 53))]
    apply unitsOfCode_strictMono.monotone
    apply codeOfRatio_mono Nat.one_pos Nat.one_pos
    exact Nat.mul_le_mul_right _ (Nat.mul_le_mul_right _ (min_le_left m (2 ^ 53)))
  have hcapped : count ≤ k * min m (2 ^ 53) := by
    rcases Nat.le_total m (2 ^ 53) with hm | hm
    · rwa [min_eq_left hm, Nat.mul_comm k m]
    · rw [min_eq_right hm]
      rcases Nat.eq_zero_or_pos k with rfl | hk
      · exact hle.trans (Nat.zero_le _)
      · exact hcount.trans (Nat.le_mul_of_pos_left _ hk)
  calc count * unitsPerOne ≤ k * min m (2 ^ 53) * unitsPerOne := Nat.mul_le_mul_right _ hcapped
    _ = k * (min m (2 ^ 53) * unitsPerOne) := Nat.mul_assoc ..
    _ ≤ k * unitsOfCode (ofNat m).magnitude := Nat.mul_le_mul_left _ hunits

/-- A positive whole number does not become zero. -/
theorem ofNat_magnitude_pos {m : ℕ} (hm : 0 < m) : 0 < (ofNat m).magnitude := by
  have hleast : codeOfRatio 1 1 = 1 := by decide
  have hunits := Nat.mul_pos hm unitsPerOne_pos
  calc 0 < codeOfRatio 1 1 := hleast ▸ Nat.one_pos
    _ ≤ codeOfRatio (m * unitsPerOne) 1 := codeOfRatio_mono Nat.one_pos Nat.one_pos (by omega)

/-! ## Quotients of counts -/

/-- A quotient of counts that is not zero does not round to zero. -/
theorem ofNat_div_magnitude_pos {count m : ℕ} (hcount : count ≤ 2 ^ 53) (hpos : 0 < count)
    (hm : 0 < (ofNat m).magnitude) (hfinite : (ofNat m).magnitude < infinityCode) :
    0 < (ofNat count / ofNat m).magnitude := by
  have hunits : 0 < unitsOfCode (ofNat m).magnitude := unitsOfCode_strictMono hm
  rw [(ofNat_isUnsigned count).div_of_finite (codeOfRatio_whole_lt_infinity hcount)
    (ofNat_isUnsigned m) hfinite hm, unitsOfCode_ofNat hcount]
  change 0 < codeOfRatio _ _
  have hleast : codeOfRatio 1 1 = 1 := by decide
  have hlarge : unitsOfCode infinityCode ≤ unitsPerOne * unitsPerOne := by decide +kernel
  rw [← Nat.succ_le_iff, Nat.succ_eq_add_one, Nat.zero_add, ← hleast]
  apply codeOfRatio_mono Nat.one_pos hunits
  calc 1 * unitsOfCode (ofNat m).magnitude ≤ unitsOfCode infinityCode := by
        rw [Nat.one_mul]
        exact (unitsOfCode_strictMono hfinite).le
    _ ≤ unitsPerOne * unitsPerOne := hlarge
    _ ≤ count * unitsPerOne * unitsPerOne * 1 := by
        rw [Nat.mul_one, Nat.mul_assoc]
        exact Nat.le_mul_of_pos_left _ hpos

/-- If the rounded quotient of two counts is at most a whole number, then so is the exact one. -/
theorem le_mul_of_ofNat_div_le {count m k : ℕ} (hcount : count ≤ 2 ^ 53) (hm : 0 < m)
    (hfinite : (ofNat m).magnitude < infinityCode) (hk : k ≤ 2 ^ 53)
    (hle : (ofNat count / ofNat m).magnitude ≤ codeOfRatio (k * unitsPerOne) 1) :
    count ≤ m * k := by
  have hm_magnitude := ofNat_magnitude_pos hm
  rcases Nat.eq_zero_or_pos k with rfl | hk_pos
  · -- Only zero rounds to zero.
    by_contra hcount_pos
    have hpos := ofNat_div_magnitude_pos hcount (by omega) hm_magnitude hfinite
    have hzero : codeOfRatio (0 * unitsPerOne) 1 = 0 := by
      rw [Nat.zero_mul]
      decide
    omega
  · by_cases hm53 : m ≤ 2 ^ 53
    · rw [(ofNat_isUnsigned count).div_of_finite (codeOfRatio_whole_lt_infinity hcount)
        (ofNat_isUnsigned m) hfinite hm_magnitude, unitsOfCode_ofNat hcount,
        unitsOfCode_ofNat hm53] at hle
      have hreach := mul_le_of_codeOfRatio_le (Nat.mul_pos hm unitsPerOne_pos)
        (le_codeOfRatio_whole hk_pos hk) (codeOfRatio_whole_lt_infinity hk) hle
      rw [unitsOfCode_codeOfRatio_whole hk] at hreach
      have hcounts : 2 ^ 53 * count ≤ (2 ^ 53 + 1) * (m * k) := by
        refine Nat.le_of_mul_le_mul_right (?_ : _ * (unitsPerOne * unitsPerOne) ≤ _)
          (Nat.mul_pos unitsPerOne_pos unitsPerOne_pos)
        calc 2 ^ 53 * count * (unitsPerOne * unitsPerOne)
            = 2 ^ 53 * (count * unitsPerOne * unitsPerOne) := by ring
          _ ≤ (2 ^ 53 + 1) * (k * unitsPerOne * (m * unitsPerOne)) := hreach
          _ = (2 ^ 53 + 1) * (m * k) * (unitsPerOne * unitsPerOne) := by ring
      -- A larger count would exceed the product by one at least, which is too much below 2 ^ 53.
      omega
    · calc count ≤ m := by omega
        _ ≤ m * k := Nat.le_mul_of_pos_right m hk_pos

/-- Up to 2 ^ 53 the ceiling of the rounded quotient of two counts is that of the exact one. -/
theorem ceil_ofNat_div {count m : ℕ} (hcount : count ≤ 2 ^ 53) (hm : 0 < m)
    (hfinite : (ofNat m).magnitude < infinityCode) :
    (ofNat count / ofNat m).ceil = ofNat (count ⌈/⌉ m) := by
  have hreach (a : ℕ) {b : ℕ} (hb : 0 < b) : a ≤ b * (a ⌈/⌉ b) :=
    (ceilDiv_le_iff_le_mul hb).1 le_rfl
  have hceil : count ⌈/⌉ m ≤ 2 ^ 53 :=
    (ceilDiv_le_iff_le_mul hm).2 (hcount.trans (Nat.le_mul_of_pos_left _ hm))
  have hunits : unitsOfCode (ofNat count).magnitude ≤
      (count ⌈/⌉ m) * unitsOfCode (ofNat m).magnitude := by
    rw [unitsOfCode_ofNat hcount]
    exact le_mul_unitsOfCode_ofNat hcount (hreach count hm)
  obtain ⟨hunsigned, hle⟩ := (ofNat_isUnsigned count).div_le
    (codeOfRatio_whole_lt_infinity hcount) (ofNat_isUnsigned m) (ofNat_magnitude_pos hm) hunits
  generalize hx : ofNat count / ofNat m = x at *
  have hx_finite := hle.trans_lt (codeOfRatio_whole_lt_infinity hceil)
  rw [hunsigned.ceil_eq_ofNat hx_finite]
  have hle_ceil : unitsOfCode x.magnitude ⌈/⌉ unitsPerOne ≤ count ⌈/⌉ m := by
    rw [ceilDiv_le_iff_le_mul unitsPerOne_pos, Nat.mul_comm]
    exact unitsOfCode_le_of_le_whole hceil hle
  congr 1
  apply le_antisymm hle_ceil
  rw [ceilDiv_le_iff_le_mul hm]
  apply le_mul_of_ofNat_div_le hcount hm hfinite (hle_ceil.trans hceil)
  calc (ofNat count / ofNat m).magnitude = codeOfRatio (unitsOfCode x.magnitude) 1 := by
        rw [hx, hunsigned.codeOfRatio_units]
    _ ≤ codeOfRatio ((unitsOfCode x.magnitude ⌈/⌉ unitsPerOne) * unitsPerOne) 1 := by
        apply codeOfRatio_mono Nat.one_pos Nat.one_pos
        rw [Nat.mul_one, Nat.mul_one, Nat.mul_comm (_ ⌈/⌉ _)]
        exact hreach _ unitsPerOne_pos

end GoalPlanning.Binary64
