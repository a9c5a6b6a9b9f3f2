import GoalPlanning.State.Basic

/-!
# Actions

An action can be performed where its preconditions hold, and then makes its effects hold and
leaves all other facts as they are. It has a cost that is finite and not below zero, and at
least one effect.
-/

namespace GoalPlanning

/-- The numbers that are allowed as costs: finite and not below zero. Negative zero is among
them. -/
def Binary64.isCost (x : Binary64) : Bool := x.isFinite && !x.isBelowZero

/-- What can be done, when, to what effect and at which cost. -/
structure Action where
  /-- The name shown to people. Several actions may have the same one. -/
  name : String
  /-- What performing the action once adds to the cost of a plan. -/
  cost : Binary64
  /-- What must hold immediately before the action. -/
  preconditions : State
  /-- What holds immediately after the action. -/
  effects : State
  /-- Costs are finite and not below zero. -/
  cost_isCost : cost.isCost = true
  /-- An action changes something. -/
  effects_nonempty : effects.isEmpty = false
  deriving DecidableEq

namespace Action

instance : ToString Action := ⟨name⟩

/-- Whether an action can be performed in a state. -/
def canPerform (a : Action) (s : State) : Bool := s.satisfies a.preconditions

/-- The state after an action, whether or not its preconditions held before. -/
def apply (a : Action) (s : State) : State := s.merge a.effects

/-- Whether two actions are interchangeable: they agree in everything, costs being compared as
numbers, so that the two zeros count as one. -/
def sameAs (a b : Action) : Bool :=
  a.name == b.name && a.cost.numericEq b.cost &&
    a.preconditions == b.preconditions && a.effects == b.effects

/-- The place of the first action of a list that is interchangeable with the given one. -/
def indexIn? (a : Action) (actions : List Action) : Option Nat := actions.findIdx? (·.sameAs a)

end Action

end GoalPlanning
