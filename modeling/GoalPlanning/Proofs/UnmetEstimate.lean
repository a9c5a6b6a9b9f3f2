import GoalPlanning.Planner
import GoalPlanning.Proofs.Binary64.Ceilings
import GoalPlanning.Proofs.Optimality
import GoalPlanning.Proofs.UnmetConditions

/-!
# Planning with the number of unmet conditions

The usual estimate takes the number of unmet conditions, how many of them one action can meet,
and the least cost. Its quotient, its ceiling and its product are rounded, and still it is the
exact result rounded once: what is rounded on the way are whole numbers, or does not get past one.
The exact result is never more than what remains to be paid, so planning without a limit finds
plans of least cost.

A count of conditions is converted to a binary64 number, which is exact up to 2 ^ 53 conditions.
No memory holds more, but states are not bounded here, so this is an assumption.
-/

namespace GoalPlanning

/-! ## The estimate -/

/-- The number by which the estimate divides. A largest number of effects that is too large for a
binary64 number is converted to infinity; then every quotient is zero, as if one divided by zero
here. -/
def Bounds.divisor (bounds : Bounds) : ℕ :=
  if (Binary64.ofNat bounds.maxEffects).isFinite then bounds.maxEffects else 0

/-- Unmet conditions are divided by nothing or by the largest number of effects. -/
theorem Bounds.divisor_eq_or (bounds : Bounds) :
    bounds.divisor = 0 ∨ bounds.divisor = bounds.maxEffects := by
  unfold divisor
  split
  · exact Or.inr rfl
  · exact Or.inl rfl

/-- So many actions are enough if together they can meet all conditions. -/
theorem Bounds.ceilDiv_divisor_le {bounds : Bounds} {count k : ℕ}
    (h : 0 < bounds.divisor → count ≤ k * bounds.divisor) : count ⌈/⌉ bounds.divisor ≤ k := by
  rcases Nat.eq_zero_or_pos bounds.divisor with hzero | hpos
  · rw [hzero, ceilDiv_zero]
    exact Nat.zero_le k
  · rw [ceilDiv_le_iff_le_mul hpos, Nat.mul_comm]
    exact h hpos

/-- The ceiling in the estimate is that of the exact quotient. -/
theorem Bounds.ceil_div_maxEffects {bounds : Bounds} {count : ℕ} (hcount : count ≤ 2 ^ 53)
    (hpos : 0 < bounds.maxEffects) :
    (Binary64.ofNat count / Binary64.ofNat bounds.maxEffects).ceil =
      Binary64.ofNat (count ⌈/⌉ bounds.divisor) := by
  have hunsigned := Binary64.ofNat_isUnsigned bounds.maxEffects
  by_cases hfinite : (Binary64.ofNat bounds.maxEffects).magnitude < Binary64.infinityCode
  · have hdivisor : bounds.divisor = bounds.maxEffects := if_pos (decide_eq_true hfinite)
    rw [hdivisor, Binary64.ceil_ofNat_div hcount hpos hfinite]
  · have hdivisor : bounds.divisor = 0 := if_neg fun h => hfinite (of_decide_eq_true h)
    rw [hdivisor, ceilDiv_zero, (Binary64.ofNat_isUnsigned count).div_of_right_infinite
      (Binary64.codeOfRatio_whole_lt_infinity hcount) hunsigned
      (le_antisymm hunsigned.le_infinity (not_lt.1 hfinite))]
    decide

/-- The estimate is the least cost for each of the actions that are needed at least, rounded
once. -/
theorem Heuristic.unmet_spec {residual current : State} {bounds : Bounds}
    (hcost : bounds.minCost.IsNonneg) (hfinite : bounds.minCost.magnitude < Binary64.infinityCode)
    (hcount : (residual.without current).size ≤ 2 ^ 53) :
    (unmet residual current bounds).IsNonneg ∧
      (unmet residual current bounds).magnitude =
        Binary64.codeOfRatio (((residual.without current).size ⌈/⌉ bounds.divisor) *
          Binary64.unitsOfCode bounds.minCost.magnitude) 1 := by
  unfold unmet
  dsimp only
  generalize (residual.without current).size = count at *
  split
  case isTrue hzero =>
    refine ⟨Binary64.zero_isUnsigned.isNonneg, ?_⟩
    have hceil : count ⌈/⌉ bounds.divisor = 0 := by
      simp only [Bool.or_eq_true, decide_eq_true_eq] at hzero
      rcases hzero with rfl | hnone
      · exact zero_ceilDiv _
      · rw [show bounds.divisor = 0 by simpa [hnone] using bounds.divisor_eq_or, ceilDiv_zero]
    rw [hceil, Nat.zero_mul]
    decide
  case isFalse hne =>
    simp only [Bool.or_eq_true, decide_eq_true_eq, not_or] at hne
    rw [Bounds.ceil_div_maxEffects hcount (Nat.pos_of_ne_zero hne.2)]
    have hceil : count ⌈/⌉ bounds.divisor ≤ 2 ^ 53 :=
      Bounds.ceilDiv_divisor_le fun hpos => hcount.trans (Nat.le_mul_of_pos_right _ hpos)
    exact Binary64.ofNat_mul hceil hcost hfinite

/-- Beyond 2 ^ 53 conditions the quotient can be too large: so many can be met by one action
fewer, with three effects each. -/
example : 9 * 2 ^ 50 + 3 ≤ (3 * 2 ^ 50 + 1) * 3 ∧
    (Binary64.ofNat (9 * 2 ^ 50 + 3) / Binary64.ofNat 3).ceil =
      Binary64.ofNat (3 * 2 ^ 50 + 2) := by
  decide +kernel

/-! ## Admissibility -/

/-- The keys that the goal and the preconditions mention. -/
def Problem.keys (p : Problem) : Finset String := (p.vocabulary.map Prod.fst).toFinset

/-- No more conditions of a residual goal are unmet than there are keys. -/
theorem Problem.Mentions.size_without_le {p : Problem} {residual : State}
    (h : p.Mentions residual) (s : State) : (residual.without s).size ≤ p.keys.card := by
  rw [← State.card_keys]
  apply Finset.card_le_card
  intro key hkey
  obtain ⟨value, hvalue⟩ := State.mem_keys_iff.1 (State.mem_keys_without_iff.1 hkey).1
  rw [Problem.keys, List.mem_toFinset]
  exact List.mem_map_of_mem (f := Prod.fst) (h (key, value) (State.mem_entries_iff.2 hvalue))

/-- What the usual estimate comes to if nothing is rounded, in units. -/
def Problem.unmetUnits (p : Problem) (residual : State) : ℕ :=
  ((residual.without p.current).size ⌈/⌉ (Bounds.ofActions p.actions).divisor) *
    Binary64.unitsOfCode (Bounds.ofActions p.actions).minCost.magnitude

/-- The usual estimate is at least zero, and the exact result rounded once. -/
theorem Problem.Mentions.unmet_spec {p : Problem} {residual : State} (h : p.Mentions residual)
    (hkeys : p.keys.card ≤ 2 ^ 53) (limit : Option ℕ) :
    ((Strategy.aStar limit).estimate p residual).IsNonneg ∧
      ((Strategy.aStar limit).estimate p residual).magnitude =
        Binary64.codeOfRatio (p.unmetUnits residual) 1 := by
  obtain ⟨hcost, hfinite⟩ := Bounds.minCost_isNonneg p.actions
  exact Heuristic.unmet_spec hcost hfinite ((h.size_without_le p.current).trans hkeys)

/-- The usual estimate is at least zero. -/
theorem Problem.unmet_isNonneg {p : Problem} (hkeys : p.keys.card ≤ 2 ^ 53) (limit : Option ℕ)
    {residual : State} (hmentions : p.Mentions residual) :
    ((Strategy.aStar limit).estimate p residual).IsNonneg :=
  (hmentions.unmet_spec hkeys limit).1

/-- The exact estimate is at most what remains to be paid. -/
theorem Problem.unmetUnits_le {p : Problem} {residual : State} {run : List Action}
    (hrun : (p.withGoal residual).IsSolution run) : p.unmetUnits residual ≤ totalUnits run := by
  obtain ⟨hactions, t, ht⟩ := hrun
  obtain ⟨hperform, hsatisfies⟩ := simulate_eq_ok_iff.1 ht
  have hlength := size_without_le_length_mul hactions hperform hsatisfies
  refine (Nat.mul_le_mul_right _ ?_).trans (length_mul_minCost_le hactions)
  refine Bounds.ceilDiv_divisor_le fun hpos => ?_
  rw [(Bounds.divisor_eq_or _).resolve_left hpos.ne']
  exact hlength

/-- The exact estimate is consistent: one action lowers it by no more than the action costs. -/
theorem Problem.unmetUnits_le_of_regress? {p : Problem} {a : Action} {residual before : State}
    (ha : a ∈ p.actions) (h : a.regress? residual = some before) :
    p.unmetUnits residual ≤ Binary64.unitsOfCode a.cost.magnitude + p.unmetUnits before := by
  have hcost := Bounds.units_minCost_le ha
  have heffects := Bounds.size_effects_le ha
  have hcount := Action.size_without_le_of_regress? h p.current
  unfold unmetUnits
  generalize Bounds.ofActions p.actions = bounds at *
  generalize (residual.without p.current).size = count at *
  generalize (before.without p.current).size = count' at *
  have hceil : count ⌈/⌉ bounds.divisor ≤ 1 + count' ⌈/⌉ bounds.divisor := by
    refine Bounds.ceilDiv_divisor_le fun hpos => ?_
    have hreach : count' ≤ bounds.divisor * (count' ⌈/⌉ bounds.divisor) :=
      (ceilDiv_le_iff_le_mul hpos).1 le_rfl
    rw [← bounds.divisor_eq_or.resolve_left hpos.ne'] at heffects
    rw [Nat.add_mul, Nat.one_mul, Nat.mul_comm (_ ⌈/⌉ _)]
    omega
  calc (count ⌈/⌉ bounds.divisor) * Binary64.unitsOfCode bounds.minCost.magnitude
      ≤ (1 + count' ⌈/⌉ bounds.divisor) * Binary64.unitsOfCode bounds.minCost.magnitude :=
        Nat.mul_le_mul_right _ hceil
    _ = Binary64.unitsOfCode bounds.minCost.magnitude +
          (count' ⌈/⌉ bounds.divisor) * Binary64.unitsOfCode bounds.minCost.magnitude := by
        rw [Nat.add_mul, Nat.one_mul]
    _ ≤ _ := Nat.add_le_add_right hcost _

/-- Either the exact estimate is zero everywhere, or it is zero only where the current state
satisfies the residual goal. -/
theorem Problem.unmetUnits_eq_zero_or_pos (p : Problem) :
    (∀ residual, p.unmetUnits residual = 0) ∨
      ∀ residual, p.current.satisfies residual = false → 0 < p.unmetUnits residual := by
  unfold unmetUnits
  generalize Bounds.ofActions p.actions = bounds
  rcases Nat.eq_zero_or_pos bounds.divisor with hzero | hdivisor
  · exact Or.inl fun residual => by rw [hzero, ceilDiv_zero, Nat.zero_mul]
  rcases Nat.eq_zero_or_pos (Binary64.unitsOfCode bounds.minCost.magnitude) with hzero | hcost
  · exact Or.inl fun residual => by rw [hzero, Nat.mul_zero]
  right
  intro residual hunsatisfied
  refine Nat.mul_pos (Nat.pos_of_ne_zero fun hzero => ?_) hcost
  have hnone : (residual.without p.current).size ≤ bounds.divisor * 0 :=
    (ceilDiv_le_iff_le_mul hdivisor).1 hzero.le
  rw [Nat.mul_zero, Nat.le_zero, State.size_without_eq_zero_iff, hunsatisfied] at hnone
  cases hnone

/-- If all costs are whole numbers, then so is the exact estimate. -/
theorem Problem.unitsPerOne_dvd_unmetUnits {p : Problem}
    (hwhole : ∀ a ∈ p.actions, a.cost.IsWhole) (residual : State) :
    Binary64.unitsPerOne ∣ p.unmetUnits residual :=
  Dvd.dvd.mul_left (Bounds.unitsPerOne_dvd_minCost hwhole) _

/-- If all costs are multiples of a power of two, then the usual estimate is at most what remains
to be paid, as long as this is at most 2 ^ 53 times the power. -/
theorem Problem.units_unmet_le {p : Problem} {e : ℕ} (hgrid : p.OnGrid e)
    (hkeys : p.keys.card ≤ 2 ^ 53) (limit : Option ℕ) {residual : State} {run : List Action}
    (hmentions : p.Mentions residual) (hrun : (p.withGoal residual).IsSolution run)
    (hle : totalUnits run ≤ 2 ^ 53 * 2 ^ e) :
    Binary64.unitsOfCode ((Strategy.aStar limit).estimate p residual).magnitude ≤
      totalUnits run := by
  have hdvd := dvd_totalUnits fun a ha => hgrid a (hrun.1 a ha)
  rw [(hmentions.unmet_spec hkeys limit).2]
  have hunits := Nat.mul_le_mul_right 1 (Problem.unmetUnits_le hrun)
  exact (Binary64.unitsOfCode_strictMono.monotone
    (Binary64.codeOfRatio_mono Nat.one_pos Nat.one_pos hunits)).trans
    (Binary64.unitsOfCode_codeOfRatio_le_of_dvd hdvd hle)

/-- The usual estimate is admissible. -/
theorem Problem.admissible_unmet {p : Problem} (hwhole : ∀ a ∈ p.actions, a.cost.IsWhole)
    (hkeys : p.keys.card ≤ 2 ^ 53) (limit : Option ℕ) :
    p.Admissible ((Strategy.aStar limit).estimate p) := by
  obtain ⟨e, hone, hgrid⟩ := Problem.exists_onGrid_of_isWhole hwhole
  constructor
  · exact fun residual hmentions => Problem.unmet_isNonneg hkeys limit hmentions
  · intro residual run hmentions hrun hle
    exact Problem.units_unmet_le hgrid hkeys limit hmentions hrun (hone ▸ hle)

/-- **Optimality.** If all costs are whole numbers and there is a solution of a total below
2 ^ 53, then planning succeeds, and the costs of the plan add up to the least total of all
solutions. -/
theorem exists_plan_isLeast {actions : List Action} {current goal : State}
    (hwhole : ∀ a ∈ actions, a.cost.IsWhole)
    (hkeys : (Problem.keys ⟨actions, current, goal⟩).card ≤ 2 ^ 53) {run : List Action}
    (hrun : Problem.IsSolution ⟨actions, current, goal⟩ run) (hlt : totalCost run < 2 ^ 53) :
    ∃ steps, plan actions current goal = .ok steps ∧
      IsLeast (Problem.totals ⟨actions, current, goal⟩) (totalCost steps) :=
  Strategy.exists_least_plan (Problem.admissible_unmet hwhole hkeys none) hwhole hrun hlt

/-- The usual estimate finds the way over the bridge too. -/
theorem WaysHome.exists_plan_home :
    ∃ steps, plan problem.actions problem.current problem.goal = .ok steps ∧
      IsLeast problem.totals (totalCost steps) :=
  exists_plan_isLeast isWhole_cost (by decide +kernel) isSolution
    (by rw [totalCost_solution]; norm_num)

end GoalPlanning
