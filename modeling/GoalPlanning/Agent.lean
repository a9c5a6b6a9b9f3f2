import GoalPlanning.Drawing
import GoalPlanning.Planner

/-!
# Agents

The parts of the library are used together, one call after another: facts are noticed, a planner is
asked for a plan, the plan is tried out in thought, carried out and drawn. An agent stands for such
a use of them. It knows the current state, has a planner and keeps the plan that it made last, so
what one call leaves behind is what the next one works on. It can carry the plan out at once or step
by step, or do something else, and plan again.
-/

namespace GoalPlanning

/-- A planner together with what it is currently about. -/
structure Agent where
  /-- How the agent plans. -/
  planner : Planner
  /-- What holds at the moment. -/
  current : State
  /-- What is left of the plan made last. -/
  intention : List Action := []

namespace Agent

/-- Notices that a key has a value. -/
def learn (agent : Agent) (key : String) (value : Value) : Agent :=
  { agent with current := agent.current.insert key value }

/-- Forgets the value of a key. -/
def forget (agent : Agent) (key : String) : Agent :=
  { agent with current := agent.current.erase key }

/-- Plans for a goal. A plan that is found becomes the intention. If there is none, the agent
keeps the intention that it has. -/
def planFor (agent : Agent) (goal : State) : Report × Agent :=
  let report := agent.planner.report agent.current goal
  match report.plan with
  | .ok plan => (report, { agent with intention := plan })
  | .error _ => (report, agent)

/-- The state in which the intention would end, if it leads to a goal. -/
def foresee (agent : Agent) (goal : State) : Except Failure State :=
  simulate agent.intention agent.current goal

/-- Carries the intention out, if it leads to a goal. The intention stays. -/
def execute (agent : Agent) (goal : State) : Except Failure State × Agent :=
  match agent.foresee goal with
  | .ok s => (.ok s, { agent with current := s })
  | .error f => (.error f, agent)

/-- Performs the first action of the intention, if it can be performed, and drops it. The answer
says whether it was performed, if there was one. -/
def step (agent : Agent) : Option Bool × Agent :=
  match agent.intention with
  | [] => (none, agent)
  | a :: rest =>
    if a.canPerform agent.current then
      (some true, { agent with current := a.apply agent.current, intention := rest })
    else (some false, agent)

/-- Makes the effects of an action hold, whether or not it can be performed. The answer says
whether it could. -/
def act (agent : Agent) (a : Action) : Bool × Agent :=
  (a.canPerform agent.current, { agent with current := a.apply agent.current })

/-- The numbers of the actions that can be performed at the moment. -/
def available (agent : Agent) : List Nat := agent.planner.available agent.current

/-- The drawing of the intention as a plan for a goal. -/
def draw (agent : Agent) (goal : State) : String :=
  Drawing.text agent.planner.actions agent.current goal agent.intention

end Agent

end GoalPlanning
