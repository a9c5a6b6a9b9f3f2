import GoalPlanning.Proofs.Binary64.Sums

/-!
# Adding numbers of either sign to costs

An estimate may be below zero, infinite or NaN. Unless it is negative infinity, adding it to costs
keeps their total order. A finite sum is the exact one, rounded, and rounding is monotone on both
sides of zero. A cost that is infinite stays so, and no other sum comes after it. A NaN is passed
on, so all sums are the same. Negative infinity is different: the sum with an infinite cost has no
value, and the NaN that stands for it comes before all numbers.
-/

namespace GoalPlanning.Binary64

/-- The place in the total order of the number nearest to a whole number of units. Zero is not
negative here. -/
def roundedRank (sum : ℤ) : ℤ :=
  if sum < 0 then -1 - (codeOfRatio sum.natAbs 1 : ℤ) else codeOfRatio sum.natAbs 1

/-- A sum, rounded, is at most infinity. -/
theorem roundedRank_le_infinity (sum : ℤ) : roundedRank sum ≤ infinityCode := by
  have hle := codeOfRatio_le sum.natAbs 1
  unfold roundedRank
  split <;> omega

/-- Rounding is monotone on both sides of zero. -/
theorem roundedRank_mono {sum sum' : ℤ} (h : sum ≤ sum') : roundedRank sum ≤ roundedRank sum' := by
  have hcode {num num' : ℕ} (h : num ≤ num') : codeOfRatio num 1 ≤ codeOfRatio num' 1 :=
    codeOfRatio_mono Nat.one_pos Nat.one_pos (by omega)
  unfold roundedRank
  rcases lt_or_ge sum' 0 with hneg' | hpos'
  · have hcode := hcode (show sum'.natAbs ≤ sum.natAbs by omega)
    rw [if_pos (show sum < 0 by omega), if_pos hneg']
    omega
  · rw [if_neg (not_lt.2 hpos')]
    rcases lt_or_ge sum 0 with hneg | hpos
    · rw [if_pos hneg]
      omega
    · rw [if_neg (not_lt.2 hpos), Nat.cast_le]
      exact hcode (by omega)

/-- A finite unsigned number plus a finite one is the exact sum, rounded. A sum of zero is never
negative. -/
theorem IsUnsigned.rank_add_of_finite {x y : Binary64} (hx : x.IsUnsigned)
    (hxfin : x.magnitude < infinityCode) (hyfin : y.magnitude < infinityCode) :
    (x + y).rank = roundedRank (x.units + y.units) := by
  rw [add_of_finite hxfin hyfin, hx.sign, Bool.false_and]
  generalize x.units + y.units = sum
  by_cases hzero : sum = 0
  · rw [if_pos hzero, hzero]
    decide
  · rw [if_neg hzero]
    simp [rank, nearest, roundedRank]

/-- Infinity plus a finite number is infinity. -/
theorem add_of_infinite_of_finite {x y : Binary64} (hinf : x.magnitude = infinityCode)
    (hyfin : y.magnitude < infinityCode) : x + y = x := by
  change add x y = x
  simp [add, isNaN_eq_false hinf.le, isNaN_eq_false hyfin.le, isInfinite, hinf, hyfin.ne]

/-- A NaN is passed on. -/
theorem IsUnsigned.add_of_right_isNaN {x y : Binary64} (hx : x.IsUnsigned) (hnan : y.isNaN = true) :
    x + y = y.quiet := by
  change Binary64.add x y = y.quiet
  simp [Binary64.add, isNaN_eq_false hx.le_infinity, hnan]

/-- A number that is below zero, but neither NaN nor negative infinity, is finite. -/
theorem isNonneg_or_finite {y : Binary64} (hnan : y.isNaN = false) (hinf : y ≠ infinity true) :
    y.IsNonneg ∨ y.magnitude < infinityCode := by
  have hle : y.magnitude ≤ infinityCode := by simpa [isNaN] using hnan
  rcases hle.lt_or_eq with hlt | heq
  · exact Or.inr hlt
  · refine Or.inl ⟨fun hneg => absurd (rank_inj.1 ?_) hinf, hle⟩
    simp [rank, infinity, hneg, heq]

/-- Adding a number other than negative infinity keeps the order of unsigned numbers. -/
theorem IsUnsigned.rank_add_mono {x x' y : Binary64} (hx : x.IsUnsigned) (hx' : x'.IsUnsigned)
    (hinf : y ≠ infinity true) (h : x.magnitude ≤ x'.magnitude) :
    (x + y).rank ≤ (x' + y).rank := by
  rcases Bool.eq_false_or_eq_true y.isNaN with hnan | hnan
  · rw [hx.add_of_right_isNaN hnan, hx'.add_of_right_isNaN hnan]
  rcases isNonneg_or_finite hnan hinf with hnonneg | hyfin
  · rw [(hx.add hnonneg).rank_eq, (hx'.add hnonneg).rank_eq, Nat.cast_le]
    exact hx.magnitude_add_mono hx' hnonneg h
  rcases hx'.le_infinity.lt_or_eq with hx'fin | hx'inf
  · rw [hx.rank_add_of_finite (h.trans_lt hx'fin) hyfin, hx'.rank_add_of_finite hx'fin hyfin]
    apply roundedRank_mono
    have hunits := unitsOfCode_strictMono.monotone h
    rw [hx.isNonneg.units_eq, hx'.isNonneg.units_eq]
    omega
  · -- The second sum is infinite, and no sum comes after it.
    rw [add_of_infinite_of_finite hx'inf hyfin, hx'.rank_eq, hx'inf]
    rcases hx.le_infinity.lt_or_eq with hxfin | hxinf
    · rw [hx.rank_add_of_finite hxfin hyfin]
      exact roundedRank_le_infinity _
    · rw [add_of_infinite_of_finite hxinf hyfin, hx.rank_eq, hxinf]

/-- Negative infinity does not keep the order. -/
example : (infinity false + infinity true).rank < (zero + infinity true).rank := by decide

end GoalPlanning.Binary64
