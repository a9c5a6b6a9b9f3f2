import GoalPlanning.Proofs.Soundness
import GoalPlanning.Proofs.UnmetEstimate

/-!
# Planning again on the way

Someone who follows a plan may stop after any number of actions and plan again from there. The new
plan need not be the rest of the old one, but it costs the same: the rest of a cheapest solution is
a cheapest solution from where it starts, and a search finds one of them.
-/

namespace GoalPlanning

/-- The rest of a cheapest solution is a cheapest solution from where it starts. -/
theorem Problem.isLeast_totals_of_append {p : Problem} {run run' : List Action}
    (hsolution : p.IsSolution (run ++ run'))
    (hleast : totalCost (run ++ run') ∈ lowerBounds p.totals) :
    ∃ u, perform run p.current = .ok u ∧ { p with current := u }.IsSolution run' ∧
      IsLeast { p with current := u }.totals (totalCost run') := by
  obtain ⟨hrun, u, hu, hrun'⟩ := isSolution_append_iff.1 hsolution
  refine ⟨u, hu, hrun', ⟨run', hrun', rfl⟩, ?_⟩
  rintro total ⟨other, hother, rfl⟩
  have hcheaper : totalCost (run ++ run') ≤ totalCost (run ++ other) :=
    hleast ⟨run ++ other, isSolution_append_iff.2 ⟨hrun, u, hu, hother⟩, rfl⟩
  rwa [totalCost_append, totalCost_append, add_le_add_iff_left] at hcheaper

/-- **Planning again never changes the bill.** Let all costs be whole numbers, and let a plan have
a total below 2 ^ 53. Then the first actions of the plan, however many, can be performed, and
planning again from there gives a plan of the same total as the actions that are left. -/
theorem exists_plan_after_take {actions : List Action} {current goal : State}
    (hwhole : ∀ a ∈ actions, a.cost.IsWhole)
    (hkeys : (Problem.keys ⟨actions, current, goal⟩).card ≤ 2 ^ 53) {steps : List Action}
    (hplan : plan actions current goal = .ok steps) (hlt : totalCost steps < 2 ^ 53) (k : ℕ) :
    ∃ s rest, perform (steps.take k) current = .ok s ∧ plan actions s goal = .ok rest ∧
      totalCost rest = totalCost (steps.drop k) := by
  have hsolution := Planner.isSolution_of_plan_eq_ok hplan
  obtain ⟨steps', hplan', -, hleast⟩ :=
    Strategy.exists_least_plan (Problem.admissible_unmet hwhole hkeys none) hwhole hsolution hlt
  obtain rfl : steps = steps' := Except.ok.inj (hplan.symm.trans hplan')
  have hparts := List.take_append_drop k steps
  rw [← hparts] at hsolution hleast hlt
  obtain ⟨s, hs, hrest, hrest_least⟩ := Problem.isLeast_totals_of_append hsolution hleast
  have hrest_lt : totalCost (steps.drop k) < 2 ^ 53 := by
    have hnonneg := totalCost_nonneg (steps.take k)
    rw [totalCost_append] at hlt
    linarith
  -- What is mentioned does not depend on the current state.
  have hkeys_rest : (Problem.keys ⟨actions, s, goal⟩).card ≤ 2 ^ 53 := hkeys
  obtain ⟨rest, hplan_rest, hleast_rest⟩ := Strategy.exists_least_plan
    (Problem.admissible_unmet hwhole hkeys_rest none) hwhole hrest hrest_lt
  exact ⟨s, rest, hs, hplan_rest, hleast_rest.unique hrest_least⟩

namespace WaysHome

/-- A search finds the way across the bridge. -/
theorem plan_eq : plan problem.actions problem.current problem.goal = .ok [walk, turn, cross] := by
  decide +kernel

/-- From the stop on, the way home costs as much as planned. -/
theorem exists_plan_from_stop :
    plan problem.actions problem.current problem.goal = .ok [walk, turn, cross] ∧
      ∃ s rest, perform [walk] problem.current = .ok s ∧
        plan problem.actions s problem.goal = .ok rest ∧
        totalCost rest = totalCost [turn, cross] :=
  ⟨plan_eq, exists_plan_after_take isWhole_cost (by decide +kernel) plan_eq
    (by rw [totalCost_solution]; norm_num) 1⟩

end WaysHome

end GoalPlanning
