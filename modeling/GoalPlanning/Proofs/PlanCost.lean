import GoalPlanning.Proofs.Binary64.WholeNumbers
import GoalPlanning.Proofs.Solutions
import Mathlib.Algebra.BigOperators.Group.List.Basic

/-!
# What a plan costs

A search sums the costs of a plan from its last action to its first, rounding at every step. The
exact total is a fraction. When all costs are whole numbers, both agree as long as either of them
is below 2 ^ 53; a rounded sum never falls behind a whole number that the exact total reaches.
-/

namespace GoalPlanning

/-- The cost of a sequence of actions as a search sums it: from the last action to the first. -/
def summedCost : List Action → Binary64
  | [] => Binary64.zero
  | a :: rest => summedCost rest + a.cost

/-- The exact total of the costs of a sequence of actions. -/
def totalCost (run : List Action) : ℚ := (run.map fun a => a.cost.toRat).sum

/-- The exact total in units. -/
def totalUnits (run : List Action) : ℕ :=
  (run.map fun a => Binary64.unitsOfCode a.cost.magnitude).sum

/-- The exact totals of the solutions of a problem. -/
def Problem.totals (p : Problem) : Set ℚ :=
  {total | ∃ run, p.IsSolution run ∧ totalCost run = total}

/-- All costs of a problem are multiples of a power of two, counted in units. -/
def Problem.OnGrid (p : Problem) (e : ℕ) : Prop :=
  ∀ a ∈ p.actions, 2 ^ e ∣ Binary64.unitsOfCode a.cost.magnitude

namespace Action

/-- The cost of an action is at least zero. -/
theorem cost_isNonneg (a : Action) : a.cost.IsNonneg :=
  (Binary64.isNonneg_of_isCost a.cost_isCost).1

/-- The cost of an action is finite. -/
theorem cost_lt_infinity (a : Action) : a.cost.magnitude < Binary64.infinityCode :=
  (Binary64.isNonneg_of_isCost a.cost_isCost).2

/-- Interchangeable actions agree in everything but the sign of a cost of zero. -/
theorem sameAs_iff {a b : Action} :
    a.sameAs b = true ↔ a.name = b.name ∧ a.cost.magnitude = b.cost.magnitude ∧
      a.preconditions = b.preconditions ∧ a.effects = b.effects := by
  simp [sameAs, a.cost_isNonneg.numericEq_iff b.cost_isNonneg, and_assoc]

end Action

/-! ## Exact totals -/

/-- Doing nothing costs nothing. -/
@[simp] theorem totalCost_nil : totalCost [] = 0 := rfl

/-- A sequence costs what its first action and the rest cost. -/
@[simp] theorem totalCost_cons (a : Action) (rest : List Action) :
    totalCost (a :: rest) = a.cost.toRat + totalCost rest := by
  simp [totalCost]

/-- A sequence of two parts costs what both of them cost. -/
@[simp] theorem totalCost_append (run run' : List Action) :
    totalCost (run ++ run') = totalCost run + totalCost run' := by
  simp [totalCost]

/-- Doing nothing costs no units. -/
@[simp] theorem totalUnits_nil : totalUnits [] = 0 := rfl

/-- A sequence costs as many units as its first action and the rest. -/
@[simp] theorem totalUnits_cons (a : Action) (rest : List Action) :
    totalUnits (a :: rest) = Binary64.unitsOfCode a.cost.magnitude + totalUnits rest := by
  simp [totalUnits]

/-- A sequence of two parts costs as many units as both of them. -/
@[simp] theorem totalUnits_append (run run' : List Action) :
    totalUnits (run ++ run') = totalUnits run + totalUnits run' := by
  simp [totalUnits]

/-- The exact total is the total in units divided by the units that make one. -/
theorem totalCost_eq (run : List Action) :
    totalCost run = totalUnits run / Binary64.unitsPerOne := by
  induction run with
  | nil => simp
  | cons a rest ih =>
    rw [totalCost_cons, ih, totalUnits_cons, Binary64.toRat, a.cost_isNonneg.units_eq]
    push_cast
    ring

/-- No sequence costs less than nothing. -/
theorem totalCost_nonneg (run : List Action) : 0 ≤ totalCost run := by
  rw [totalCost_eq]
  positivity

/-- Exact totals are compared by comparing units. -/
theorem totalCost_le_iff {run run' : List Action} :
    totalCost run ≤ totalCost run' ↔ totalUnits run ≤ totalUnits run' := by
  have hpos : (0 : ℚ) < Binary64.unitsPerOne := by exact_mod_cast Binary64.unitsPerOne_pos
  rw [totalCost_eq, totalCost_eq, div_le_div_iff_of_pos_right hpos]
  exact_mod_cast Iff.rfl

/-- What divides all costs divides their total. -/
theorem dvd_totalUnits {run : List Action} {d : ℕ}
    (h : ∀ a ∈ run, d ∣ Binary64.unitsOfCode a.cost.magnitude) : d ∣ totalUnits run := by
  induction run with
  | nil => exact Nat.dvd_zero d
  | cons a rest ih =>
    obtain ⟨ha, hrest⟩ := List.forall_mem_cons.1 h
    rw [totalUnits_cons]
    exact Nat.dvd_add ha (ih hrest)

/-- A whole cost is a multiple of the units that make one. -/
theorem Action.unitsPerOne_dvd {a : Action} (h : a.cost.IsWhole) :
    Binary64.unitsPerOne ∣ Binary64.unitsOfCode a.cost.magnitude := by
  obtain ⟨n, hn⟩ := a.cost_isNonneg.isWhole_iff.1 h
  exact hn ▸ Nat.dvd_mul_left _ n

/-- Whole costs are multiples of a power of two, namely of the units that make one. -/
theorem Problem.exists_onGrid_of_isWhole {p : Problem} (h : ∀ a ∈ p.actions, a.cost.IsWhole) :
    ∃ e, Binary64.unitsPerOne = 2 ^ e ∧ p.OnGrid e := by
  obtain ⟨e, he⟩ := Binary64.exists_unitsPerOne_eq
  exact ⟨e, he, fun a ha => he ▸ Action.unitsPerOne_dvd (h a ha)⟩

/-- The total of whole costs is a whole number. -/
theorem exists_totalUnits_eq {run : List Action} (hwhole : ∀ a ∈ run, a.cost.IsWhole) :
    ∃ n, totalUnits run = n * Binary64.unitsPerOne := by
  obtain ⟨n, hn⟩ := dvd_totalUnits fun a ha => Action.unitsPerOne_dvd (hwhole a ha)
  exact ⟨n, hn.trans (Nat.mul_comm _ n)⟩

/-! ## Rounded sums -/

/-- Costs are summed from zero, so the sum is unsigned. -/
theorem summedCost_isUnsigned (run : List Action) : (summedCost run).IsUnsigned := by
  induction run with
  | nil => exact Binary64.zero_isUnsigned
  | cons a rest ih => exact ih.add a.cost_isNonneg

/-- One more action in front never makes a sequence cheaper. -/
theorem summedCost_le_cons (a : Action) (rest : List Action) :
    (summedCost rest).magnitude ≤ (summedCost (a :: rest)).magnitude :=
  (summedCost_isUnsigned rest).magnitude_le_add a.cost_isNonneg

/-- More actions in front never make a sequence cheaper. -/
theorem summedCost_le_append (earlier later : List Action) :
    (summedCost later).magnitude ≤ (summedCost (earlier ++ later)).magnitude := by
  induction earlier with
  | nil => exact le_rfl
  | cons a earlier ih => exact ih.trans (summedCost_le_cons a (earlier ++ later))

/-- If all costs are multiples of a power of two, then rounding at every step is the same as
rounding once, as long as the total is at most 2 ^ 53 times the power. -/
theorem magnitude_summedCost {run : List Action} {e : ℕ}
    (hgrid : ∀ a ∈ run, 2 ^ e ∣ Binary64.unitsOfCode a.cost.magnitude)
    (hle : totalUnits run ≤ 2 ^ 53 * 2 ^ e) :
    (summedCost run).magnitude = Binary64.codeOfRatio (totalUnits run) 1 := by
  induction run with
  | nil => decide
  | cons a rest ih =>
    obtain ⟨-, hgrid_rest⟩ := List.forall_mem_cons.1 hgrid
    rw [totalUnits_cons] at hle ⊢
    rw [summedCost, (summedCost_isUnsigned rest).magnitude_add a.cost_isNonneg,
      ih hgrid_rest (by omega), Nat.add_comm]
    by_cases hlt : totalUnits rest < Binary64.unitsOfCode Binary64.infinityCode
    · rw [Binary64.unitsOfCode_codeOfRatio_of_dvd (dvd_totalUnits hgrid_rest) (by omega) hlt]
    · -- The rest has overflowed already, and so does the whole.
      have hrest := Nat.le_of_not_lt hlt
      rw [Binary64.codeOfRatio_of_infinity_le hrest,
        Binary64.codeOfRatio_of_infinity_le (Nat.le_add_left _ _),
        Binary64.codeOfRatio_of_infinity_le (by omega)]

/-- So far the rounded sum never exceeds the exact total. -/
theorem unitsOfCode_summedCost_le {run : List Action} {e : ℕ}
    (hgrid : ∀ a ∈ run, 2 ^ e ∣ Binary64.unitsOfCode a.cost.magnitude)
    (hle : totalUnits run ≤ 2 ^ 53 * 2 ^ e) :
    Binary64.unitsOfCode (summedCost run).magnitude ≤ totalUnits run := by
  rw [magnitude_summedCost hgrid hle]
  exact Binary64.unitsOfCode_codeOfRatio_le_of_dvd (dvd_totalUnits hgrid) hle

/-- Up to 2 ^ 53 sums of whole costs are exact. -/
theorem unitsOfCode_summedCost {run : List Action} (hwhole : ∀ a ∈ run, a.cost.IsWhole)
    (hle : totalUnits run ≤ 2 ^ 53 * Binary64.unitsPerOne) :
    Binary64.unitsOfCode (summedCost run).magnitude = totalUnits run := by
  obtain ⟨n, hn⟩ := exists_totalUnits_eq hwhole
  have hn53 : n ≤ 2 ^ 53 := by
    rw [hn] at hle
    exact Nat.le_of_mul_le_mul_right hle Binary64.unitsPerOne_pos
  have hgrid := fun a ha => Action.unitsPerOne_dvd (hwhole a ha)
  obtain ⟨e, he⟩ := Binary64.exists_unitsPerOne_eq
  rw [he] at hgrid hle
  rw [magnitude_summedCost hgrid hle, hn, Binary64.unitsOfCode_codeOfRatio_whole hn53]

/-- A whole number up to 2 ^ 53 that the exact total reaches is reached by the rounded sum. -/
theorem le_magnitude_summedCost {run : List Action} (hwhole : ∀ a ∈ run, a.cost.IsWhole) {n : ℕ}
    (hn : n ≤ 2 ^ 53) (hle : n * Binary64.unitsPerOne ≤ totalUnits run) :
    Binary64.codeOfRatio (n * Binary64.unitsPerOne) 1 ≤ (summedCost run).magnitude := by
  induction run with
  | nil =>
    have hzero : n * Binary64.unitsPerOne = 0 := Nat.le_zero.1 hle
    rw [hzero]
    exact Nat.zero_le _
  | cons a rest ih =>
    have hrest := (List.forall_mem_cons.1 hwhole).2
    by_cases hreached : n * Binary64.unitsPerOne ≤ totalUnits rest
    · exact (ih hrest hreached).trans (summedCost_le_cons a rest)
    · -- Without the first action the total is still below 2 ^ 53, so the sum so far is exact.
      have hsmall : totalUnits rest ≤ 2 ^ 53 * Binary64.unitsPerOne :=
        (Nat.le_of_not_le hreached).trans (Nat.mul_le_mul_right _ hn)
      refine (summedCost_isUnsigned rest).le_magnitude_add a.cost_isNonneg
        (Binary64.codeOfRatio_le _ _) ?_
      rw [Binary64.unitsOfCode_codeOfRatio_whole hn, unitsOfCode_summedCost hrest hsmall]
      rw [totalUnits_cons] at hle
      omega

/-- A rounded sum of whole costs that is below 2 ^ 53 is exact. -/
theorem unitsOfCode_summedCost_of_lt {run : List Action} (hwhole : ∀ a ∈ run, a.cost.IsWhole)
    (hlt : Binary64.unitsOfCode (summedCost run).magnitude < 2 ^ 53 * Binary64.unitsPerOne) :
    Binary64.unitsOfCode (summedCost run).magnitude = totalUnits run := by
  apply unitsOfCode_summedCost hwhole
  by_contra hlarge
  have hreached := Binary64.unitsOfCode_strictMono.monotone
    (le_magnitude_summedCost hwhole le_rfl (Nat.le_of_not_le hlarge))
  rw [Binary64.unitsOfCode_codeOfRatio_whole le_rfl] at hreached
  exact absurd hlt (not_lt.2 hreached)

/-- A sequence whose rounded sum does not exceed a whole number below 2 ^ 53 does not exceed it
in exact total either. -/
theorem totalUnits_le_of_summedCost_le {run : List Action} (hwhole : ∀ a ∈ run, a.cost.IsWhole)
    {n : ℕ} (hn : n < 2 ^ 53)
    (hle : (summedCost run).magnitude ≤ Binary64.codeOfRatio (n * Binary64.unitsPerOne) 1) :
    totalUnits run ≤ n * Binary64.unitsPerOne := by
  by_contra hlt
  obtain ⟨m, hm⟩ := exists_totalUnits_eq hwhole
  have hnm : n < m := by
    rw [hm, not_le] at hlt
    exact Nat.lt_of_mul_lt_mul_right hlt
  have hreached := le_magnitude_summedCost hwhole (n := n + 1) hn
    (by rw [hm]; exact Nat.mul_le_mul_right _ hnm)
  have hunits := Binary64.unitsOfCode_le_of_le_whole hn.le (hreached.trans hle)
  rw [Binary64.unitsOfCode_codeOfRatio_whole hn, Nat.succ_mul] at hunits
  have hpos := Binary64.unitsPerOne_pos
  omega

end GoalPlanning
