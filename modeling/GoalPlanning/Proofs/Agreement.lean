import GoalPlanning.Proofs.UnmetEstimate
import GoalPlanning.Search.Trace

/-!
# Where A* and Dijkstra's search agree

A* search follows a single rounded product, while the cost of a plan is a sum that is rounded at
every step. So the estimate can exceed what remains to be paid in rounded sums, and A* search then
misses a plan that Dijkstra's search finds. It never finds a cheaper one, and the two agree on
whether there is a plan. They also agree on its cost if rounding does not matter: if all costs are
multiples of a power of two, and 2 ^ 53 of them are enough for the cheapest plan.
-/

namespace GoalPlanning

/-- The cost that a search reports for its plan, if it finds one. -/
def Report.planCost (r : Report) : Option Binary64 :=
  match r.ending with
  | .found node => some (r.costOf node)
  | _ => none

/-- What a search reports is the cost of its plan, summed from the last action to the first. -/
theorem Strategy.planCost_eq {strategy : Strategy} {p : Problem} {steps : List Action}
    (h : (strategy.search p).plan = .ok steps) :
    (strategy.search p).planCost = some (summedCost steps) := by
  obtain ⟨s, hs, hstops, -⟩ :=
    Report.exists_stopsAt p (strategy.estimate p) (strategy.budget p)
  rw [← strategy.search_eq] at hstops
  have hnodes := hstops.eq.1
  unfold Report.planCost
  unfold Report.plan Report.steps at h
  cases hending : (strategy.search p).ending with
  | noPlan => simp [hending, Except.map] at h
  | overBudget => simp [hending, Except.map] at h
  | found number =>
    rw [hending] at hstops h
    obtain ⟨n, hnext, -⟩ := hstops
    obtain ⟨e, rfl, htakes⟩ := Search.takes_of_next? hnext
    change Except.ok (actionsFrom p (strategy.search p).final.nodes e.node) = .ok steps at h
    rw [Except.ok.injEq, hnodes] at h
    change some (((strategy.search p).final.nodes[e.node]?.map Node.cost).getD Binary64.zero) = _
    rw [hnodes, htakes.node, Option.map_some, Option.getD_some, hs.arena.cost_eq htakes.node, h]

/-- Let all costs be multiples of a power of two. A plan that A* search finds costs at most as much
as any solution whose total is at most 2 ^ 53 times this power. -/
theorem Strategy.summedCost_aStar_le {limit : Option ℕ} {p : Problem} {k : ℕ}
    {steps run : List Action} (hplan : ((Strategy.aStar limit).search p).plan = .ok steps)
    (hkeys : p.keys.card ≤ 2 ^ 53) (hgrid : p.OnGrid k) (hrun : p.IsSolution run)
    (hle : totalUnits run ≤ 2 ^ 53 * 2 ^ k) :
    (summedCost steps).magnitude ≤ (summedCost run).magnitude := by
  obtain ⟨s, hs, houtcome⟩ := (Strategy.aStar limit).exists_outcome p
  rw [hplan] at houtcome
  cases houtcome with
  | found hnext hcovered =>
    obtain ⟨e, rfl, htakes⟩ := Search.takes_of_next? hnext
    have hnonneg residual (hmentions : p.Mentions residual) :=
      Problem.unmet_isNonneg hkeys limit hmentions
    have hcost := hs.cost_le_total hnonneg htakes.node
    rw [hs.arena.cost_eq htakes.node] at hcost
    have htotal := hs.total_le hnonneg hgrid
      (fun _ _ hmentions => Problem.units_unmet_le hgrid hkeys limit hmentions) htakes hrun hle
    rw [← magnitude_summedCost (fun a ha => hgrid a (hrun.1 a ha)) hle] at htotal
    exact hcost.trans htotal

/-- A* search and Dijkstra's search, both without a limit, agree on whether there is a plan. The
plan of Dijkstra's search never costs more. Both cost the same if all costs are multiples of a
power of two and the total of the cheaper plan is at most 2 ^ 53 times this power. -/
theorem Strategy.aStar_dijkstra_cost (p : Problem) :
    let astar := (Strategy.aStar none).search p
    let dijkstra := (Strategy.dijkstra none).search p
    (astar.plan = .error .noPlan ∧ dijkstra.plan = .error .noPlan) ∨
      ∃ steps steps', astar.plan = .ok steps ∧ astar.planCost = some (summedCost steps) ∧
        dijkstra.plan = .ok steps' ∧ dijkstra.planCost = some (summedCost steps') ∧
        (summedCost steps').numericLe (summedCost steps) = true ∧
        (p.keys.card ≤ 2 ^ 53 →
          (∃ k, p.OnGrid k ∧ totalUnits steps' ≤ 2 ^ 53 * 2 ^ k) →
          astar.planCost = dijkstra.planCost) := by
  intro astar dijkstra
  rcases Strategy.exists_solution_or_noPlan Heuristic.unmet p with
      ⟨steps, hplan, hsteps⟩ | ⟨hplan, hno⟩ <;>
    rcases Strategy.exists_solution_or_noPlan Heuristic.zero p with
      ⟨steps', hplan', hsteps'⟩ | ⟨hplan', hno'⟩
  · have hcost : astar.planCost = some (summedCost steps) := Strategy.planCost_eq hplan
    have hcost' : dijkstra.planCost = some (summedCost steps') := Strategy.planCost_eq hplan'
    have hle := Strategy.magnitude_dijkstra_le hplan' hsteps
    refine Or.inr ⟨steps, steps', hplan, hcost, hplan', hcost', ?_, ?_⟩
    · exact ((summedCost_isUnsigned steps').numericLe_iff (summedCost_isUnsigned steps)).2 hle
    · rintro hkeys ⟨k, hgrid, htotal⟩
      have hge := Strategy.summedCost_aStar_le hplan hkeys hgrid hsteps' htotal
      rw [hcost, hcost', (summedCost_isUnsigned steps).ext (summedCost_isUnsigned steps')
        (le_antisymm hge hle)]
  · exact absurd ⟨steps, hsteps⟩ hno'
  · exact absurd ⟨steps', hsteps'⟩ hno
  · exact Or.inl ⟨hplan, hplan'⟩

namespace Table

/-- A* search buys the table. It thinks that the three parts will cost more than they do, because
three times their cost is rounded up. -/
theorem planCost_ne :
    ((Strategy.aStar none).search problem).planCost ≠
      ((Strategy.dijkstra none).search problem).planCost := by
  have hbuy : ((Strategy.aStar none).search problem).plan = .ok [buy] := by decide +kernel
  have hmake : ((Strategy.dijkstra none).search problem).plan =
      .ok [makeFrame, makeLegs, makeTop, assemble] := by decide +kernel
  rw [Strategy.planCost_eq hbuy, Strategy.planCost_eq hmake]
  decide +kernel

end Table

end GoalPlanning
