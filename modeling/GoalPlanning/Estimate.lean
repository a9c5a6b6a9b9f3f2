import GoalPlanning.Action.Basic

/-!
# Estimates of the remaining cost

A heuristic estimates what it costs to make a residual goal hold, from the current state on. The
usual one counts the conditions that do not hold yet: one action resolves at most as many of
them as it has effects, and no action is cheaper than the cheapest.
-/

namespace GoalPlanning

/-- What limits how fast a chain of actions can resolve conditions, and how cheaply. -/
structure Bounds where
  /-- The largest number of effects of one action. -/
  maxEffects : Nat
  /-- The least cost of one action. -/
  minCost : Binary64
  deriving DecidableEq

/-- The lesser of two numbers in the total order. Of equal ones it is the first. -/
def Binary64.leastOf (x y : Binary64) : Binary64 := if y.rank < x.rank then y else x

/-- The bounds of a list of actions. Both are zero if there is no action. -/
def Bounds.ofActions (actions : List Action) : Bounds where
  maxEffects := (actions.map fun a => a.effects.size).foldl max 0
  minCost :=
    match actions.map Action.cost with
    | [] => Binary64.zero
    | cost :: costs => costs.foldl Binary64.leastOf cost

/-- Estimates the cost of making a residual goal hold, from a current state on. -/
abbrev Heuristic := (residual current : State) → Bounds → Binary64

namespace Heuristic

/-- Counts the conditions that the current state does not satisfy and takes the number of actions
that resolve so many at best, at the least cost each. -/
def unmet : Heuristic := fun residual current bounds =>
  let count := (residual.without current).size
  if count = 0 || bounds.maxEffects = 0 then Binary64.zero
  else (Binary64.ofNat count / Binary64.ofNat bounds.maxEffects).ceil * bounds.minCost

/-- Knows nothing: every estimate is zero. -/
def zero : Heuristic := fun _ _ _ => Binary64.zero

/-- Looks a residual goal up in a list of estimates, of which the first one for it counts. -/
def table (entries : List (State × Binary64)) (otherwise : Binary64) : Heuristic :=
  fun residual _ _ => (entries.lookup residual).getD otherwise

end Heuristic

end GoalPlanning
