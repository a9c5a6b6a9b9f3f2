import GoalPlanning.Action.Basic

/-!
# Planning problems

A problem is what a plan is searched for: actions, a current state and a goal. Searching runs
backward from the goal, so all that it ever asks for are facts that the goal or the preconditions
of an action mention. Their number bounds the search, whatever the actions cost.
-/

namespace GoalPlanning

/-- A goal to reach from a current state with some actions. -/
structure Problem where
  /-- The actions that a plan may use, each as often as it likes. -/
  actions : List Action
  /-- The state in which a plan starts. -/
  current : State
  /-- What must hold after a plan. -/
  goal : State

namespace Problem

/-- The facts that the goal and the preconditions mention. -/
def vocabulary (p : Problem) : List Fact :=
  p.goal.entries ++ p.actions.flatMap fun a => a.preconditions.entries

/-- More expansions than any search of the problem makes. A residual goal is made of facts of
the vocabulary, and whenever one is reached again it is at a lower cost, of which there are fewer
than 2 ^ 63. -/
def expansionBound (p : Problem) : Nat := 1 <<< (p.vocabulary.length + 63)

/-- The conditions of the goal that do not hold yet. -/
def outstanding (p : Problem) : State := p.goal.without p.current

end Problem

end GoalPlanning
