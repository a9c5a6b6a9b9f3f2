import GoalPlanning.Action.Basic
import GoalPlanning.Failure

/-!
# Simulation

Performing a plan in thought: every action must be performable in the state that the actions
before it leave, and the goal must hold at the end.
-/

namespace GoalPlanning

/-- The state after a list of actions. It fails at the first one that cannot be performed. -/
def perform : List Action → State → Except Failure State
  | [], s => .ok s
  | a :: rest, s =>
    if a.canPerform s then perform rest (a.apply s) else .error (.preconditionNotMet a.name)

/-- The state after a plan, if every action can be performed in turn and the goal holds then. -/
def simulate (plan : List Action) (current goal : State) : Except Failure State :=
  match perform plan current with
  | .ok s => if s.satisfies goal then .ok s else .error .goalNotReached
  | .error f => .error f

end GoalPlanning
