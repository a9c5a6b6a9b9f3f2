import GoalPlanning.Planner
import GoalPlanning.Proofs.Search.Arena

/-!
# Plans are solutions

A search never performs an action, not even in thought. Its plans are right all the same: it
accepts a node only if the current state satisfies the residual goal of the node, which is exactly
the condition under which the path of the node can be performed and reaches the goal. Neither the
estimates nor the budget matter for this.
-/

namespace GoalPlanning

/-- How a search for a plan may end at the search `s`. -/
inductive Search.Outcome (p : Problem) (budget : ℕ) (s : Search) :
    Except Failure (List Action) → Prop
  /-- The current state satisfies the residual goal of the node that is taken. -/
  | found {number : ℕ} {n : Node} {rest : Search} : s.next? = some ((number, n), rest) →
      p.current.satisfies n.residual = true →
      Outcome p budget s (.ok (actionsFrom p s.nodes number))
  /-- No node can be taken. -/
  | noPlan : s.next? = none → Outcome p budget s (.error .noPlan)
  /-- The node that is taken would have to be expanded, but the budget is used up. -/
  | overBudget {number : ℕ} {n : Node} {rest : Search} : s.next? = some ((number, n), rest) →
      p.current.satisfies n.residual = false → s.expanded.size = budget →
      Outcome p budget s (.error (.budgetExhausted budget))

/-- Every search for a plan ends in one of these ways, at a search that its run goes through. -/
theorem Report.exists_outcome (p : Problem) (estimate : State → Binary64) (budget : ℕ) :
    ∃ s, Search.Reachable p estimate s ∧
      Search.Outcome p budget s (ofSearch p estimate budget).plan := by
  obtain ⟨s, hs, hstops, hbudget⟩ := Report.exists_stopsAt p estimate budget
  refine ⟨s, hs, ?_⟩
  have hnodes := hstops.eq.1
  unfold plan steps
  cases hending : (ofSearch p estimate budget).ending with
  | found number =>
    obtain ⟨n, hnext, hcovered⟩ := hending ▸ hstops
    change Search.Outcome p budget s
      (.ok (actionsFrom p (ofSearch p estimate budget).final.nodes number))
    rw [hnodes]
    exact .found hnext hcovered
  | noPlan => exact .noPlan (hending ▸ hstops).1
  | overBudget =>
    obtain ⟨number, n, hnext, hcovered⟩ := hending ▸ hstops
    exact .overBudget hnext hcovered (hbudget hending)

/-- A strategy searches along its own estimate and within its own budget. -/
theorem Strategy.exists_outcome (strategy : Strategy) (p : Problem) :
    ∃ s, Search.Reachable p (strategy.estimate p) s ∧
      Search.Outcome p (strategy.budget p) s (strategy.search p).plan := by
  rw [strategy.search_eq]
  exact Report.exists_outcome p _ _

namespace Search

variable {p : Problem} {estimate : State → Binary64} {s : Search}

/-- The path of a node whose residual goal the current state satisfies is a solution. -/
theorem Reachable.isSolution (hs : Reachable p estimate s) {i : ℕ} {n : Node}
    (hn : s.nodes[i]? = some n) (hcovered : p.current.satisfies n.residual = true) :
    p.IsSolution (actionsFrom p s.nodes i) :=
  ⟨hs.arena.mem_actions hn, (hs.arena.satisfies_iff hn p.current).1 hcovered⟩

/-- What a search finds is a solution. -/
theorem Reachable.isSolution_of_outcome (hs : Reachable p estimate s) {budget : ℕ}
    {plan : List Action} (h : Outcome p budget s (.ok plan)) : p.IsSolution plan := by
  cases h with
  | found hnext hcovered =>
    obtain ⟨e, rfl, htakes⟩ := takes_of_next? hnext
    exact hs.isSolution htakes.node hcovered

end Search

/-- If a planner finds a plan, then it is a solution. -/
theorem Planner.isSolution_of_plan_eq_ok {planner : Planner} {current goal : State}
    {steps : List Action} (h : planner.plan current goal = .ok steps) :
    Problem.IsSolution ⟨planner.actions, current, goal⟩ steps := by
  obtain ⟨s, hs, houtcome⟩ :=
    planner.strategy.exists_outcome ⟨planner.actions, current, goal⟩
  change Search.Outcome _ _ s (planner.plan current goal) at houtcome
  rw [h] at houtcome
  exact hs.isSolution_of_outcome houtcome

/-- **Soundness.** If a planner finds a plan, with whatever estimate and budget, then the plan
consists of its actions, and performing the plan in thought succeeds and reaches the goal. -/
theorem Planner.simulate_of_plan_eq_ok {planner : Planner} {current goal : State}
    {steps : List Action} (h : planner.plan current goal = .ok steps) :
    (∀ a ∈ steps, a ∈ planner.actions) ∧
      ∃ s, simulate steps current goal = .ok s ∧ s.satisfies goal = true := by
  obtain ⟨hactions, t, ht⟩ := isSolution_of_plan_eq_ok h
  exact ⟨hactions, t, ht, (simulate_eq_ok_iff.1 ht).2⟩

/-! A chest that keeps the key it is opened with: a plan has to undo a condition of its goal and
to restore it later. The estimates are no numbers at all. -/

namespace Chest

/-- Opens the chest and loses the key. -/
def openChest : Action where
  name := "open chest"
  cost := Binary64.one
  preconditions := State.empty.insert "hasKey" (.bool true)
  effects := (State.empty.insert "chestOpen" (.bool true)).insert "hasKey" (.bool false)
  cost_isCost := by decide
  effects_nonempty := by decide

/-- Forges a new key from what is in the chest. -/
def forgeKey : Action where
  name := "forge key"
  cost := Binary64.one
  preconditions := State.empty.insert "chestOpen" (.bool true)
  effects := State.empty.insert "hasKey" (.bool true)
  cost_isCost := by decide
  effects_nonempty := by decide

/-- A planner that is led by NaN and may make four expansions. -/
def planner : Planner := ⟨[forgeKey, openChest], ⟨Heuristic.table [] Binary64.invalid, some 4⟩⟩

/-- The key is there, and the chest is still closed. -/
def current : State := State.empty.insert "hasKey" (.bool true)

/-- The chest is to be open and the key to be there. -/
def goal : State := current.insert "chestOpen" (.bool true)

set_option maxRecDepth 100000 in
/-- The plan undoes a condition and restores it, and is right. -/
theorem simulate_plan : planner.plan current goal = .ok [openChest, forgeKey] ∧
    (∀ a ∈ [openChest, forgeKey], a ∈ planner.actions) ∧
      ∃ s, simulate [openChest, forgeKey] current goal = .ok s ∧ s.satisfies goal = true :=
  have hplan : planner.plan current goal = .ok [openChest, forgeKey] := rfl
  ⟨hplan, Planner.simulate_of_plan_eq_ok hplan⟩

end Chest

end GoalPlanning
