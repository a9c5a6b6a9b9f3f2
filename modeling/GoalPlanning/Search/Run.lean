import GoalPlanning.Estimate
import GoalPlanning.Failure
import GoalPlanning.Search.Basic

/-!
# Running a search

A search takes the most promising open node, again and again. If the current state satisfies its
residual goal, then the path from the node to the root is a plan. Otherwise the node is expanded.
A search may have a budget of expansions. One without a limit gets a budget that no search uses
up, so every search ends.
-/

namespace GoalPlanning

/-- How a search ends. -/
inductive Ending where
  /-- The current state satisfies the residual goal of the node with this number. -/
  | found (node : Nat)
  /-- No open node is left. -/
  | noPlan
  /-- An open node is left, but nothing of the budget. -/
  | overBudget
  deriving DecidableEq

/-- Goes on with a search that may make `budget` more expansions. -/
def Search.run (p : Problem) (estimate : State → Binary64) (budget : Nat) (s : Search) :
    Ending × Search :=
  match s.next? with
  | none => (.noPlan, s)
  | some ((number, n), rest) =>
    if p.current.satisfies n.residual then (.found number, rest)
    else
      match budget with
      | 0 => (.overBudget, rest)
      | budget + 1 => run p estimate budget (rest.expand estimate p.actions number n)

/-- How to search: which estimate to follow and how many expansions to make at most. -/
structure Strategy where
  /-- The estimate that is added to the cost of a node. -/
  heuristic : Heuristic
  /-- The largest number of expansions, if there is one. -/
  limit : Option Nat

namespace Strategy

/-- A* search: follows the number of conditions that do not hold yet. -/
def aStar (limit : Option Nat) : Strategy := ⟨Heuristic.unmet, limit⟩

/-- Dijkstra's search: follows the cost alone. -/
def dijkstra (limit : Option Nat) : Strategy := ⟨Heuristic.zero, limit⟩

/-- The estimate of a residual goal in a problem. -/
def estimate (strategy : Strategy) (p : Problem) (residual : State) : Binary64 :=
  strategy.heuristic residual p.current (Bounds.ofActions p.actions)

/-- The number of expansions that a search may make. -/
def budget (strategy : Strategy) (p : Problem) : Nat := strategy.limit.getD p.expansionBound

end Strategy

/-- The account of a search that has ended. -/
structure Report where
  /-- What was searched for. -/
  problem : Problem
  /-- How many expansions were allowed. -/
  budget : Nat
  /-- How it ended. -/
  ending : Ending
  /-- What was known at the end. -/
  final : Search

/-- Searches for a plan, following an estimate of residual goals. -/
def Report.ofSearch (p : Problem) (estimate : State → Binary64) (budget : Nat) : Report :=
  let (ending, final) := Search.run p estimate budget (Search.start estimate p.goal)
  ⟨p, budget, ending, final⟩

/-- Searches for a plan. The bounds of the actions are worked out once. -/
def Strategy.search (strategy : Strategy) (p : Problem) : Report :=
  let bounds := Bounds.ofActions p.actions
  Report.ofSearch p (fun residual => strategy.heuristic residual p.current bounds)
    (strategy.budget p)

/-- A strategy follows its own estimate and keeps to its own budget. -/
theorem Strategy.search_eq (strategy : Strategy) (p : Problem) :
    strategy.search p = Report.ofSearch p (strategy.estimate p) (strategy.budget p) := rfl

namespace Report

/-- The numbers of the actions of the plan, if one was found. -/
def steps (r : Report) : Except Failure (List Nat) :=
  match r.ending with
  | .found node => .ok (Node.path r.final.nodes node)
  | .noPlan => .error .noPlan
  | .overBudget => .error (.budgetExhausted r.budget)

/-- The plan, if one was found. -/
def plan (r : Report) : Except Failure (List Action) :=
  r.steps.map fun steps => steps.filterMap fun i => r.problem.actions[i]?

end Report

end GoalPlanning
