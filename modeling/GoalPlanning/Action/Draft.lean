import GoalPlanning.Action.Basic
import GoalPlanning.Failure

/-!
# Drafts of actions

An action is put together step by step. A draft takes every step; only when it is finished is
it checked that it is an action.
-/

namespace GoalPlanning

/-- An action in the making. -/
structure Draft where
  /-- The name of the action. -/
  name : String
  /-- Its cost. It is one unless it is set. -/
  cost : Binary64 := Binary64.one
  /-- What must hold before the action. -/
  preconditions : State := State.empty
  /-- What the action makes hold. -/
  effects : State := State.empty

/-- A step in the making of an action. -/
inductive Draft.Edit where
  /-- Requires a value for a key, in place of an earlier one. -/
  | addPrecondition (key : String) (value : Value)
  /-- Requires nothing for a key any more. -/
  | removePrecondition (key : String)
  /-- Sets a key to a value, in place of an earlier one. -/
  | addEffect (key : String) (value : Value)
  /-- Leaves a key alone. -/
  | removeEffect (key : String)
  /-- Sets the cost. -/
  | setCost (cost : Binary64)

namespace Draft

/-- The draft after one step. -/
def edit (d : Draft) : Edit → Draft
  | .addPrecondition key value => { d with preconditions := d.preconditions.insert key value }
  | .removePrecondition key => { d with preconditions := d.preconditions.erase key }
  | .addEffect key value => { d with effects := d.effects.insert key value }
  | .removeEffect key => { d with effects := d.effects.erase key }
  | .setCost cost => { d with cost := cost }

/-- The draft after several steps, first to last. -/
def editAll (d : Draft) (edits : List Edit) : Draft := edits.foldl edit d

/-- Finishes a draft. The cost is checked before the effects. -/
def build (d : Draft) : Except Failure Action :=
  if hcost : d.cost.isCost = true then
    if heffects : d.effects.isEmpty = false then
      .ok ⟨d.name, d.cost, d.preconditions, d.effects, hcost, heffects⟩
    else .error (.noEffects d.name)
  else .error .invalidCost

end Draft

end GoalPlanning
