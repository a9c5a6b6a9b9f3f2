import GoalPlanning.Action.Basic

/-!
# Regression

A residual goal is what must hold before the rest of a plan starts. Regression answers what must
hold before an action, so that the residual goal holds after it. Conditions that hold already
stay in the residual goal: an action that would undo one of them is not admitted, and a plan that
undoes one and restores it later can still be found.
-/

namespace GoalPlanning

namespace Action

/-- Whether an effect of the action is among the conditions of a residual goal. -/
def isRelevantTo (a : Action) (residual : State) : Bool :=
  residual.entries.any fun e => a.effects.get? e.1 == some e.2

/-- What must hold before an action so that a residual goal holds after it. There is nothing to
gain from an action that resolves no condition. There is no such state if an effect undoes a
condition, or if a precondition contradicts a condition that the action leaves as it is. -/
def regress? (a : Action) (residual : State) : Option State :=
  if !a.isRelevantTo residual || a.effects.conflictsWith residual then none
  else
    let unresolved := residual.without a.effects
    if a.preconditions.conflictsWith unresolved then none
    else some (unresolved.merge a.preconditions)

end Action

end GoalPlanning
