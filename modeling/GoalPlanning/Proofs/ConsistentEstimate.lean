import GoalPlanning.Proofs.UnmetEstimate

/-!
# The usual estimate is consistent

One action meets no more conditions than it has effects, and what it asks for itself only adds to
those that are unmet. So regression through an action lowers the usual estimate by no more than the
action costs. Where the current state satisfies a residual goal, nothing remains to be paid and the
estimate is zero. Together this keeps the estimate below the cost of every sequence of actions that
makes the residual goal hold.

Costs are whole numbers here. An estimate below 2 ^ 53 is then exact, and it does not matter how
large the other estimates and the sums get: whatever is rounded is not rounded to below 2 ^ 53.
-/

namespace GoalPlanning

namespace Heuristic

variable {actions : List Action} {current residual before : State} {a : Action}

/-- The usual estimate, with the bounds of the actions, is at least zero, and the exact result
rounded once. -/
theorem unmet_ofActions_spec (actions : List Action)
    (hcount : (residual.without current).size ≤ 2 ^ 53) (goal : State) :
    (unmet residual current (Bounds.ofActions actions)).IsNonneg ∧
      (unmet residual current (Bounds.ofActions actions)).magnitude =
        Binary64.codeOfRatio (Problem.unmetUnits ⟨actions, current, goal⟩ residual) 1 := by
  obtain ⟨hcost, hfinite⟩ := Bounds.minCost_isNonneg actions
  exact unmet_spec hcost hfinite hcount

/-- A usual estimate below 2 ^ 53 is exact if all costs are whole numbers. -/
theorem units_unmet_of_lt (hwhole : ∀ a ∈ actions, a.cost.IsWhole)
    (hcount : (residual.without current).size ≤ 2 ^ 53)
    (hlt : (unmet residual current (Bounds.ofActions actions)).toRat < 2 ^ 53) (goal : State) :
    Binary64.unitsOfCode (unmet residual current (Bounds.ofActions actions)).magnitude =
      Problem.unmetUnits ⟨actions, current, goal⟩ residual := by
  obtain ⟨hnonneg, hmagnitude⟩ := unmet_ofActions_spec actions hcount goal
  have hunits := hnonneg.units_lt_of_toRat_lt hlt
  rw [hmagnitude] at hunits ⊢
  exact Binary64.unitsOfCode_codeOfRatio_of_lt
    (Problem.unitsPerOne_dvd_unmetUnits (p := ⟨actions, current, goal⟩) hwhole residual) hunits

/-- Regression through an action lowers the usual estimate by no more than the action costs. The
estimate after it may be too large to be exact; then it is larger than the one before anyway. -/
theorem units_unmet_le_of_regress? (hwhole : ∀ a ∈ actions, a.cost.IsWhole)
    (hcount : (residual.without current).size ≤ 2 ^ 53)
    (hlt : (unmet residual current (Bounds.ofActions actions)).toRat < 2 ^ 53)
    (ha : a ∈ actions) (h : a.regress? residual = some before)
    (hcount' : (before.without current).size ≤ 2 ^ 53) :
    Binary64.unitsOfCode (unmet residual current (Bounds.ofActions actions)).magnitude ≤
      Binary64.unitsOfCode a.cost.magnitude +
        Binary64.unitsOfCode (unmet before current (Bounds.ofActions actions)).magnitude := by
  obtain ⟨hnonneg, -⟩ := unmet_ofActions_spec actions hcount residual
  obtain ⟨hnonneg', -⟩ := unmet_ofActions_spec actions hcount' residual
  by_cases hlt' : (unmet before current (Bounds.ofActions actions)).toRat < 2 ^ 53
  · rw [units_unmet_of_lt hwhole hcount hlt residual,
      units_unmet_of_lt hwhole hcount' hlt' residual]
    exact Problem.unmetUnits_le_of_regress? (p := ⟨actions, current, residual⟩) ha h
  · have hle := hlt.le.trans (not_lt.1 hlt')
    rw [hnonneg'.toRat_eq, hnonneg.toRat_le_iff] at hle
    exact hle.trans (Nat.le_add_left _ _)

/-- **The usual estimate is consistent and admissible.** Let all costs be whole numbers, and let the
estimate of a residual goal be below 2 ^ 53. Then it is at most the cost of any action plus the
estimate of what must hold before this action, summed exactly or rounded. It is zero if the current
state satisfies the residual goal, and at most the total cost of every sequence of actions that
leads from the current state to the residual goal. -/
theorem unmet_consistent_admissible (hwhole : ∀ a ∈ actions, a.cost.IsWhole)
    (hcount : (residual.without current).size ≤ 2 ^ 53)
    (hlt : (unmet residual current (Bounds.ofActions actions)).toRat < 2 ^ 53) :
    let estimate := fun residual => unmet residual current (Bounds.ofActions actions)
    (∀ a ∈ actions, ∀ before, a.regress? residual = some before →
        (before.without current).size ≤ 2 ^ 53 →
          (estimate residual).numericLe (a.cost + estimate before) = true ∧
            (estimate residual).toRat ≤ a.cost.toRat + (estimate before).toRat) ∧
      (current.satisfies residual = true → estimate residual = Binary64.zero) ∧
      ∀ run, Problem.IsSolution ⟨actions, current, residual⟩ run →
        (estimate residual).toRat ≤ totalCost run := by
  intro estimate
  obtain ⟨hnonneg, -⟩ := unmet_ofActions_spec actions hcount residual
  refine ⟨fun a ha before h hcount' => ?_, fun hsatisfies => ?_, fun run hrun => ?_⟩
  · obtain ⟨hnonneg', -⟩ := unmet_ofActions_spec actions hcount' residual
    have hunits := units_unmet_le_of_regress? hwhole hcount hlt ha h hcount'
    obtain ⟨hsum, hsum_magnitude⟩ := a.cost_isNonneg.add_spec hnonneg'
    constructor
    · rw [hnonneg.numericLe_iff hsum, hsum_magnitude, ← hnonneg.codeOfRatio_units]
      exact Binary64.codeOfRatio_mono Nat.one_pos Nat.one_pos (by omega)
    · rw [a.cost_isNonneg.toRat_eq, hnonneg'.toRat_eq, ← add_div, ← Nat.cast_add]
      exact hnonneg.toRat_le_iff.2 hunits
  · have hnone := State.size_without_eq_zero_iff.2 hsatisfies
    simp [estimate, unmet, hnone]
  · rw [totalCost_eq]
    refine hnonneg.toRat_le_iff.2 ?_
    rw [units_unmet_of_lt hwhole hcount hlt residual]
    exact Problem.unmetUnits_le (p := ⟨actions, current, residual⟩) hrun

end Heuristic

/-! Breakfast is coffee, bread and a warm kitchen. Brewing coffee warms the kitchen too, so two
actions are enough for three conditions. Costs are minutes. -/

namespace Breakfast

/-- The state that has the given things. -/
def having (things : List String) : State :=
  State.ofList (things.map fun thing => (thing, .bool true))

/-- Brews coffee, which warms the kitchen. -/
def brew : Action :=
  ⟨"brew", Binary64.ofNat 20, having [], having ["coffee", "warmth"], by decide +kernel, by decide⟩

/-- Bakes bread. -/
def bake : Action :=
  ⟨"bake", Binary64.ofNat 30, having ["flour"], having ["bread"], by decide +kernel, by decide⟩

/-- What there should be in the end. -/
def table : State := having ["bread", "coffee", "warmth"]

/-- The estimate is forty, the least cost for two actions. What must hold before baking is estimated
at twenty, which is less by no more than baking costs, and breakfast costs fifty. -/
theorem estimate_table :
    let estimate := fun residual =>
      Heuristic.unmet residual (having ["flour"]) (Bounds.ofActions [brew, bake])
    estimate table = Binary64.ofNat 40 ∧
      estimate (having ["coffee", "flour", "warmth"]) = Binary64.ofNat 20 ∧
      (Binary64.ofNat 40).numericLe (Binary64.ofNat 30 + Binary64.ofNat 20) = true ∧
      (Binary64.ofNat 40).toRat ≤ totalCost [brew, bake] := by
  intro estimate
  have hwhole : ∀ a ∈ [brew, bake], a.cost.IsWhole := by
    simp only [List.forall_mem_cons]
    refine ⟨?_, ?_, nofun⟩ <;> exact Binary64.isWhole_ofNat (by norm_num)
  have htable : estimate table = Binary64.ofNat 40 := by decide +kernel
  have hbefore : estimate (having ["coffee", "flour", "warmth"]) = Binary64.ofNat 20 := by
    decide +kernel
  have hrun : Problem.IsSolution ⟨[brew, bake], having ["flour"], table⟩ [brew, bake] :=
    ⟨by simp, _, rfl⟩
  have hcount : (table.without (having ["flour"])).size ≤ 2 ^ 53 := by decide
  obtain ⟨hconsistent, -, hadmissible⟩ :=
    Heuristic.unmet_consistent_admissible hwhole hcount (by decide +kernel)
  have hle := (hconsistent bake (by simp) (having ["coffee", "flour", "warmth"]) (by decide)
    (by decide)).1
  have hle' := hadmissible _ hrun
  change (estimate table).numericLe (Binary64.ofNat 30 + estimate _) = true at hle
  change (estimate table).toRat ≤ _ at hle'
  rw [htable, hbefore] at hle
  rw [htable] at hle'
  exact ⟨htable, hbefore, hle, hle'⟩

end Breakfast

end GoalPlanning
