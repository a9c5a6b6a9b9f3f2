import GoalPlanning.Search.Run

/-!
# The trace of a search

A search can be followed event by event: what is searched for, every expansion, and how it ended.
The events are read off its report. Each has a level, and a reader keeps the events from some
level on, as lines of text.
-/

namespace GoalPlanning

/-- How much an event matters. -/
inductive Level where
  /-- Single steps. -/
  | trace
  /-- Beginnings and endings. -/
  | debug
  /-- Endings that call for attention. -/
  | warn
  deriving DecidableEq

namespace Level

/-- The name of a level in a line. -/
def name : Level → String
  | trace => "TRACE"
  | debug => "DEBUG"
  | warn => "WARN"

/-- The place of a level, from single steps on. -/
def weight : Level → Nat
  | trace => 0
  | debug => 1
  | warn => 2

end Level

/-- Something that happens in a search. -/
inductive Event where
  /-- The goal holds already. -/
  | satisfied (goal : State)
  /-- The search begins. -/
  | planning (goal : State) (actions outstanding : Nat)
  /-- A residual goal, reached at this cost, is expanded. -/
  | expanding (residual : State) (cost : Binary64)
  /-- A plan is found. -/
  | found (length : Nat) (cost : Binary64) (expansions nodes : Nat)
  /-- There is no plan. -/
  | noPlan (expansions nodes : Nat)
  /-- The budget is used up. -/
  | overBudget (limit : Nat)
  deriving DecidableEq

namespace Event

/-- How much an event matters. -/
def level : Event → Level
  | expanding .. => .trace
  | overBudget _ => .warn
  | _ => .debug

/-- How many expansions have been made and how many nodes there are, as text. -/
def effortText (expansions nodes : Nat) : String :=
  toString expansions ++ " expansions, " ++ toString nodes ++ " nodes"

/-- What an event is reported as. -/
def message : Event → String
  | satisfied goal => "Goal " ++ goal.text ++ " already satisfied, nothing to plan"
  | planning goal actions outstanding =>
    "Planning for " ++ goal.text ++ " with " ++ toString actions ++ " actions, " ++
      toString outstanding ++ " outstanding conditions"
  | expanding residual cost => "Expanding " ++ residual.text ++ " at cost " ++ cost.text
  | found length cost expansions nodes =>
    "Found plan of " ++ toString length ++ " actions (cost " ++ cost.text ++ ") after " ++
      effortText expansions nodes
  | noPlan expansions nodes => "No plan found after " ++ effortText expansions nodes
  | overBudget limit => "Search budget of " ++ toString limit ++ " expansions exhausted"

/-- The line for an event, with the name of its level in front. -/
def line (e : Event) : String := e.level.name ++ " " ++ e.message

end Event

namespace Report

/-- The cost at which a node was reached. -/
def costOf (r : Report) (node : Nat) : Binary64 :=
  (r.final.nodes[node]?.map Node.cost).getD Binary64.zero

/-- The event that ends a search. -/
def lastEvent (r : Report) : Event :=
  let expansions := r.final.expanded.size
  let nodes := r.final.nodes.size
  match r.ending with
  | .found node => .found (Node.path r.final.nodes node).length (r.costOf node) expansions nodes
  | .noPlan => .noPlan expansions nodes
  | .overBudget => .overBudget r.budget

/-- The events of a search. If the goal holds already, nothing else happens. -/
def events (r : Report) : List Event :=
  if r.problem.current.satisfies r.problem.goal then [.satisfied r.problem.goal]
  else
    .planning r.problem.goal r.problem.actions.length r.problem.outstanding.size ::
      r.final.expanded.toList.map (fun n => .expanding n.residual n.cost) ++ [r.lastEvent]

/-- The lines for the events of a search from some level on. -/
def trace (r : Report) (level : Level) : List String :=
  (r.events.filter fun e => level.weight ≤ e.level.weight).map Event.line

end Report

end GoalPlanning
