import GoalPlanning.State.Basic

/-!
# Nodes of a search

Searching backward from the goal makes a tree. Its root is the goal, and a step from a node to
one of its children regresses the node's residual goal through an action. The path from a node
to the root therefore lists actions in the order in which they are performed.
-/

namespace GoalPlanning

/-- Where a node other than the root comes from. -/
structure Origin where
  /-- The number of the node that was expanded. -/
  parent : Nat
  /-- The number of the action that its residual goal was regressed through. -/
  action : Nat
  deriving DecidableEq

/-- A residual goal that a search has reached, and how. -/
structure Node where
  /-- What must hold before the actions from here to the goal. -/
  residual : State
  /-- What the actions from here to the goal cost, summed from the goal on. -/
  cost : Binary64
  /-- The estimated cost of making the residual goal hold. -/
  estimate : Binary64
  /-- Where the node comes from. The root has no origin. -/
  origin : Option Origin
  deriving DecidableEq

namespace Node

/-- Cost and estimate together. -/
def total (n : Node) : Binary64 := n.cost + n.estimate

/-- The numbers of the actions on at most `steps` steps from a node towards the root. -/
def walk (nodes : Array Node) : (steps node : Nat) → List Nat
  | 0, _ => []
  | steps + 1, node =>
    match nodes[node]?.bind origin with
    | none => []
    | some o => o.action :: walk nodes steps o.parent

/-- The numbers of the actions from a node to the root, in the order in which they are performed.
A parent has a smaller number than its children, so there are no more steps than the number of
the node says. -/
def path (nodes : Array Node) (node : Nat) : List Nat := walk nodes node node

end Node

end GoalPlanning
