import GoalPlanning.Search.Run
import GoalPlanning.Simulation

/-!
# Planners

A planner has its actions and its way to search once and for all, and is asked for plans for one
current state and one goal after another.
-/

namespace GoalPlanning

/-- Actions to plan with, and how to search for plans. -/
structure Planner where
  /-- The actions that plans are made of. -/
  actions : List Action
  /-- How to search. -/
  strategy : Strategy := Strategy.aStar none

namespace Planner

/-- The account of the search for a plan that leads from a current state to a goal. -/
def report (planner : Planner) (current goal : State) : Report :=
  planner.strategy.search ⟨planner.actions, current, goal⟩

/-- A plan that leads from a current state to a goal. -/
def plan (planner : Planner) (current goal : State) : Except Failure (List Action) :=
  (planner.report current goal).plan

/-- The numbers of the actions that can be performed in a state. -/
def available (planner : Planner) (s : State) : List Nat :=
  (planner.actions.zipIdx.filter fun a => a.1.canPerform s).map Prod.snd

end Planner

/-- A plan of least cost that leads from a current state to a goal: A* search without a limit. -/
def plan (actions : List Action) (current goal : State) : Except Failure (List Action) :=
  Planner.plan ⟨actions, Strategy.aStar none⟩ current goal

end GoalPlanning
