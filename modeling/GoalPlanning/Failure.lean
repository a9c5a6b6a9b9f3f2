/-!
# Failures

What can go wrong when actions are made, plans are searched and checked, and drawings are
written. That no plan exists is an ordinary answer and is reported like every other failure.
-/

namespace GoalPlanning

/-- The cause of a failure. -/
inductive Failure where
  /-- No sequence of the actions leads to the goal. -/
  | noPlan
  /-- The search wanted to expand more residual goals than it was allowed to. -/
  | budgetExhausted (limit : Nat)
  /-- An action's cost is negative, infinite or NaN. -/
  | invalidCost
  /-- The named action changes nothing. -/
  | noEffects (action : String)
  /-- A plan reaches the named action in a state in which it cannot be performed. -/
  | preconditionNotMet (action : String)
  /-- All actions of a plan are performed, but the goal does not hold afterwards. -/
  | goalNotReached
  /-- A byte writer did not take all bytes, for the given reason. -/
  | writing (reason : String)
  /-- A text sink did not take all text. -/
  | rendering
  deriving DecidableEq, Repr

namespace Failure

/-- What is known about the cause below a failure. A text sink gives no reason of its own. -/
def reason? : Failure → Option String
  | writing reason => some reason
  | rendering => some "an error occurred when formatting an argument"
  | _ => none

/-- The message that reports a failure. -/
def message : Failure → String
  | noPlan => "No valid plan found to achieve the goal"
  | budgetExhausted limit => "Search budget of " ++ toString limit ++ " node expansions exhausted"
  | invalidCost => "Action cost must be finite and non-negative"
  | noEffects action => "Action has no effects: " ++ action
  | preconditionNotMet action => "Action precondition not met: " ++ action
  | goalNotReached => "Plan does not reach the goal"
  | writing reason => "IO error: " ++ reason
  | rendering =>
    "Failed to render plan: an error occurred when formatting an argument"

instance : ToString Failure := ⟨message⟩

end Failure

end GoalPlanning
