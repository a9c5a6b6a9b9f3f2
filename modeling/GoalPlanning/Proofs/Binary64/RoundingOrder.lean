import GoalPlanning.Binary64.Rounding
import Mathlib.Data.Nat.Log
import Mathlib.Order.Monotone.Basic
import Mathlib.Tactic.Ring

/-!
# Rounding keeps order

Two facts about rounding carry everything that is said about sums, products and quotients
of costs: a larger quotient never rounds to a smaller number, and a quotient that is a number
already rounds to itself. Together they bound a rounded result by any number that bounds the
exact one. Whole numbers up to 2 ^ 53, in whatever unit, are numbers already.
-/

namespace GoalPlanning

/-- A quotient rounds to at most `k` if it lies below the middle between `k` and `k + 1`, or in
the middle when `k` is the even neighbour. -/
theorem roundQuotient_le_iff {num den k : ℕ} (hden : 0 < den) :
    roundQuotient num den ≤ k ↔
      2 * num < (2 * k + 1) * den ∨ (2 * num = (2 * k + 1) * den ∧ k % 2 = 0) := by
  have hnum := Nat.div_add_mod num den
  have hmod := Nat.mod_lt num hden
  have hmiddle : (2 * k + 1) * den = 2 * (den * k) + den := by ring
  rw [hmiddle]
  unfold roundQuotient
  rcases lt_trichotomy (num / den) k with hlt | heq | hgt
  · have hprod : den * (num / den) + den ≤ den * k := Nat.mul_le_mul_left den hlt
    split <;> omega
  · subst heq
    split <;> omega
  · have hprod : den * k + den ≤ den * (num / den) := Nat.mul_le_mul_left den hgt
    split <;> omega

/-- Rounding to a natural number is monotone in the quotient, whatever its form. -/
theorem roundQuotient_mono {num den num' den' : ℕ} (hden : 0 < den) (hden' : 0 < den')
    (h : num * den' ≤ num' * den) : roundQuotient num den ≤ roundQuotient num' den' := by
  have hself := (roundQuotient_le_iff hden').1 (le_refl (roundQuotient num' den'))
  generalize roundQuotient num' den' = k at hself ⊢
  rw [roundQuotient_le_iff hden]
  have hscaled : 2 * num * den' ≤ 2 * num' * den := by
    simpa only [Nat.mul_assoc] using Nat.mul_le_mul_left 2 h
  have hswap : (2 * k + 1) * den' * den = (2 * k + 1) * den * den' := Nat.mul_right_comm ..
  rcases hself with hlt | ⟨heq, heven⟩
  · left
    have hlt' := Nat.mul_lt_mul_of_pos_right hlt hden
    exact Nat.lt_of_mul_lt_mul_right (by omega : 2 * num * den' < (2 * k + 1) * den * den')
  · have hle : 2 * num ≤ (2 * k + 1) * den := by
      rw [heq] at hscaled
      exact Nat.le_of_mul_le_mul_right (by omega) hden'
    exact (Nat.lt_or_eq_of_le hle).imp_right fun hnum => ⟨hnum, heven⟩

/-- A quotient without remainder rounds to itself. -/
theorem roundQuotient_mul_self (k : ℕ) {den : ℕ} (hden : 0 < den) :
    roundQuotient (k * den) den = k := by
  unfold roundQuotient
  rw [Nat.mul_mod_left, Nat.mul_div_cancel _ hden, if_pos (by omega)]

namespace Binary64

/-! ## The order of the codes -/

/-- A larger quotient lies in the same binade or a higher one. -/
theorem binadeShift_mono {num den num' den' : ℕ} (hden : 0 < den) (hden' : 0 < den')
    (h : num * den' ≤ num' * den) : binadeShift num den ≤ binadeShift num' den' := by
  have hquot : num / den ≤ num' / den' := by
    rw [Nat.le_div_iff_mul_le hden']
    refine Nat.le_of_mul_le_mul_right (?_ : _ * den ≤ _ * den) hden
    calc num / den * den' * den = num / den * den * den' := Nat.mul_right_comm ..
      _ ≤ num * den' := Nat.mul_le_mul_right _ (Nat.div_mul_le_self num den)
      _ ≤ num' * den := h
  have hlog : (num / den).log2 ≤ (num' / den').log2 := by
    simpa only [Nat.log2_eq_log_two] using Nat.log_mono_right hquot
  unfold binadeShift
  omega

/-- Scaled into its binade a quotient is below 2 ^ 53, and at least 2 ^ 52 unless it lies in the
lowest binade. -/
theorem scaled_quotient_bounds (num : ℕ) {den : ℕ} (hden : 0 < den) :
    num < 2 ^ 53 * (den <<< binadeShift num den) ∧
      (binadeShift num den = 0 ∨ 2 ^ 52 * (den <<< binadeShift num den) ≤ num) := by
  have hlt : num / den < 2 ^ ((num / den).log2 + 1) := Nat.lt_log2_self
  have hscale (e : ℕ) :
      2 ^ e * (den <<< binadeShift num den) = 2 ^ (e + binadeShift num den) * den := by
    rw [Nat.shiftLeft_eq, pow_add]
    ring
  constructor
  · rw [hscale, ← Nat.div_lt_iff_lt_mul hden]
    refine hlt.trans_le (Nat.pow_le_pow_right (by decide) ?_)
    unfold binadeShift
    omega
  · rw [or_iff_not_imp_left]
    intro hne
    have hlog : 52 + binadeShift num den = (num / den).log2 := by
      unfold binadeShift at hne ⊢
      omega
    have hpos : num / den ≠ 0 := by
      intro hzero
      simp [hzero] at hlog
    rw [hscale, hlog, ← Nat.le_div_iff_mul_le hden]
    exact Nat.log2_self_le hpos

private theorem shifted_pos {den : ℕ} (hden : 0 < den) (shift : ℕ) : 0 < den <<< shift := by
  rw [Nat.shiftLeft_eq]
  exact Nat.mul_pos hden (Nat.two_pow_pos _)

/-- The rounded significand keeps the bounds of the scaled quotient, of which the upper one can
be reached. -/
theorem roundQuotient_bounds (num : ℕ) {den : ℕ} (hden : 0 < den) :
    roundQuotient num (den <<< binadeShift num den) ≤ 2 ^ 53 ∧
      (binadeShift num den = 0 ∨
        2 ^ 52 ≤ roundQuotient num (den <<< binadeShift num den)) := by
  obtain ⟨hlt, hge⟩ := scaled_quotient_bounds num hden
  have hpos := shifted_pos hden (binadeShift num den)
  generalize den <<< binadeShift num den = d at *
  constructor
  · rw [← roundQuotient_mul_self (2 ^ 53) hpos]
    exact roundQuotient_mono hpos hpos (Nat.mul_le_mul_right _ hlt.le)
  · apply hge.imp_right
    intro hge
    rw [← roundQuotient_mul_self (2 ^ 52) hpos]
    exact roundQuotient_mono hpos hpos (Nat.mul_le_mul_right _ hge)

/-- Rounding is monotone: a larger quotient gets the same code or a larger one. -/
theorem codeOfRatio_mono {num den num' den' : ℕ} (hden : 0 < den) (hden' : 0 < den')
    (h : num * den' ≤ num' * den) : codeOfRatio num den ≤ codeOfRatio num' den' := by
  have hshift := binadeShift_mono hden hden' h
  obtain ⟨hle, -⟩ := roundQuotient_bounds num hden
  obtain ⟨-, hge⟩ := roundQuotient_bounds num' hden'
  unfold codeOfRatio
  apply min_le_min_right
  rcases hshift.lt_or_eq with hlt | heq
  · have hge := hge.resolve_left (by omega)
    omega
  · rw [heq]
    refine Nat.add_le_add_left (roundQuotient_mono (shifted_pos hden _) (shifted_pos hden' _) ?_) _
    rw [Nat.shiftLeft_eq, Nat.shiftLeft_eq, ← Nat.mul_assoc, ← Nat.mul_assoc]
    exact Nat.mul_le_mul_right _ h

/-! ## Codes and units -/

/-- Every code is a significand of at most 53 bits above the start of a binade. -/
theorem exists_binade (code : ℕ) :
    ∃ shift m, code = shift * 0x10000000000000 + m ∧ m < 2 ^ 53 ∧ (shift = 0 ∨ 2 ^ 52 ≤ m) := by
  refine ⟨code / 0x10000000000000 - 1,
    code - (code / 0x10000000000000 - 1) * 0x10000000000000, ?_⟩
  omega

/-- The value of a significand in a binade. The first significand after the binade is the first
one of the next binade, so both descriptions of it have the same value. -/
theorem unitsOfCode_binade {shift m : ℕ} (hle : m ≤ 2 ^ 53) (hge : shift = 0 ∨ 2 ^ 52 ≤ m) :
    unitsOfCode (shift * 0x10000000000000 + m) = m * 2 ^ shift := by
  unfold unitsOfCode
  split
  case isTrue hsmall =>
    have hshift : shift = 0 := by omega
    simp [hshift]
  case isFalse hlarge =>
    rw [Nat.shiftLeft_eq]
    rcases hle.lt_or_eq with hlt | heq
    · have hdiv : (shift * 0x10000000000000 + m) / 0x10000000000000 - 1 = shift := by omega
      have hmod : 0x10000000000000 + (shift * 0x10000000000000 + m) % 0x10000000000000 = m := by
        omega
      rw [hdiv, hmod]
    · have hdiv : (shift * 0x10000000000000 + m) / 0x10000000000000 - 1 = shift + 1 := by omega
      have hmod :
          0x10000000000000 + (shift * 0x10000000000000 + m) % 0x10000000000000 = 2 ^ 52 := by
        omega
      rw [hdiv, hmod, heq, pow_succ]
      ring

/-- A larger code has a larger value. -/
theorem unitsOfCode_strictMono : StrictMono unitsOfCode := by
  apply strictMono_nat_of_lt_succ
  intro code
  obtain ⟨shift, m, rfl, hlt, hge⟩ := exists_binade code
  rw [Nat.add_assoc, unitsOfCode_binade hlt.le hge, unitsOfCode_binade hlt (by omega)]
  exact Nat.mul_lt_mul_of_pos_right m.lt_succ_self (Nat.two_pow_pos shift)

/-- A quotient whose value is that of a code rounds to this code, or to infinity. -/
theorem codeOfRatio_unitsOfCode_mul {code den : ℕ} (hden : 0 < den) :
    codeOfRatio (unitsOfCode code * den) den = min code infinityCode := by
  obtain ⟨shift, m, rfl, hlt, hge⟩ := exists_binade code
  rw [unitsOfCode_binade hlt.le hge]
  have hshift : binadeShift (m * 2 ^ shift * den) den = shift := by
    unfold binadeShift
    rw [Nat.mul_div_cancel _ hden]
    rcases hge with rfl | hge
    · rcases Nat.eq_zero_or_pos m with rfl | hpos
      · rfl
      · have hlog : (m * 2 ^ 0).log2 < 53 := (Nat.log2_lt (by omega)).2 (by omega)
        omega
    · have hlog : (m * 2 ^ shift).log2 = 52 + shift := by
        refine (Nat.log2_eq_iff (Nat.mul_pos (by omega) (Nat.two_pow_pos _)).ne').2 ⟨?_, ?_⟩
        · rw [pow_add]
          exact Nat.mul_le_mul_right _ hge
        · rw [show 52 + shift + 1 = 53 + shift by omega, pow_add]
          exact Nat.mul_lt_mul_of_pos_right hlt (Nat.two_pow_pos _)
      omega
  have hround : roundQuotient (m * 2 ^ shift * den) (den <<< shift) = m := by
    rw [Nat.shiftLeft_eq, Nat.mul_assoc, Nat.mul_comm (2 ^ shift) den]
    exact roundQuotient_mul_self m (Nat.mul_pos hden (Nat.two_pow_pos _))
  rw [codeOfRatio, hshift, hround]

/-- A number of units that the step of its binade divides is rounded without a loss, unless it is
too large. -/
theorem unitsOfCode_codeOfRatio {num : ℕ} (hdvd : 2 ^ binadeShift num 1 ∣ num)
    (hlt : num < unitsOfCode infinityCode) : unitsOfCode (codeOfRatio num 1) = num := by
  obtain ⟨m, hm⟩ := hdvd
  have hm' : m * 2 ^ binadeShift num 1 = num := by rw [Nat.mul_comm, ← hm]
  obtain ⟨hle, hge⟩ := roundQuotient_bounds num Nat.one_pos
  have hround : roundQuotient num (1 <<< binadeShift num 1) = m := by
    have h := roundQuotient_mul_self m (Nat.two_pow_pos (binadeShift num 1))
    rwa [hm', ← Nat.one_shiftLeft] at h
  rw [hround] at hle hge
  have hunits := unitsOfCode_binade hle hge
  rw [hm'] at hunits
  have hfinite : binadeShift num 1 * 0x10000000000000 + m < infinityCode := by
    rwa [← unitsOfCode_strictMono.lt_iff_lt, hunits]
  rw [codeOfRatio, hround, min_eq_left hfinite.le, hunits]

/-- The step of its binade divides every multiple of a power of two by at most 2 ^ 53. -/
theorem two_pow_binadeShift_dvd {k : ℕ} (hk : k ≤ 2 ^ 53) (e : ℕ) :
    2 ^ binadeShift (k * 2 ^ e) 1 ∣ k * 2 ^ e := by
  rcases Nat.eq_zero_or_pos k with rfl | hpos
  · simp
  · have hne : k * 2 ^ e ≠ 0 := (Nat.mul_pos hpos (Nat.two_pow_pos e)).ne'
    rcases hk.lt_or_eq with hlt | rfl
    · refine (Nat.pow_dvd_pow 2 ?_).trans (Dvd.intro_left k rfl)
      have hlog : (k * 2 ^ e).log2 < 53 + e := by
        rw [Nat.log2_lt hne, pow_add]
        exact Nat.mul_lt_mul_of_pos_right hlt (Nat.two_pow_pos e)
      rw [binadeShift, Nat.div_one]
      omega
    · rw [← pow_add, binadeShift, Nat.div_one, Nat.log2_two_pow]
      exact Nat.pow_dvd_pow 2 (by omega)

/-- A multiple of a power of two by at most 2 ^ 53 is rounded without a loss, unless it is too
large. -/
theorem unitsOfCode_codeOfRatio_of_dvd {num e : ℕ} (hdvd : 2 ^ e ∣ num)
    (hle : num ≤ 2 ^ 53 * 2 ^ e) (hlt : num < unitsOfCode infinityCode) :
    unitsOfCode (codeOfRatio num 1) = num := by
  obtain ⟨k, rfl⟩ := hdvd
  rw [Nat.mul_comm] at hle hlt ⊢
  have hk : k ≤ 2 ^ 53 := Nat.le_of_mul_le_mul_right hle (Nat.two_pow_pos e)
  exact unitsOfCode_codeOfRatio (two_pow_binadeShift_dvd hk e) hlt

/-- Rounding such a multiple never makes it larger. -/
theorem unitsOfCode_codeOfRatio_le_of_dvd {num e : ℕ} (hdvd : 2 ^ e ∣ num)
    (hle : num ≤ 2 ^ 53 * 2 ^ e) : unitsOfCode (codeOfRatio num 1) ≤ num := by
  by_cases hlt : num < unitsOfCode infinityCode
  · exact (unitsOfCode_codeOfRatio_of_dvd hdvd hle hlt).le
  · exact (unitsOfCode_strictMono.monotone (codeOfRatio_le num 1)).trans (Nat.le_of_not_lt hlt)

end Binary64

end GoalPlanning
