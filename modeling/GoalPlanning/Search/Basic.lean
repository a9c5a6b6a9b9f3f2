import GoalPlanning.Problem
import GoalPlanning.Regression
import GoalPlanning.Search.Frontier
import GoalPlanning.Search.Node
import GoalPlanning.State.Order
import Std.Data.TreeMap

/-!
# The state of a search

A search remembers every node it has made, the frontier, the residual goals that are closed
because they have been expanded, and the least cost at which each residual goal has been reached.
A residual goal that is reached again at a lower cost is opened again.
-/

namespace GoalPlanning

/-- What a search knows at some moment. -/
structure Search where
  /-- All nodes, in the order in which they were made. -/
  nodes : Array Node := #[]
  /-- The nodes still to be looked at, and some that have become stale. -/
  frontier : Frontier := ∅
  /-- The residual goals that have been expanded and not been reached at a lower cost since. -/
  closed : Std.TreeSet State := ∅
  /-- The least cost at which each residual goal has been reached. -/
  best : Std.TreeMap State Binary64 := ∅
  /-- The nodes that have been expanded, first to last. -/
  expanded : Array Node := #[]

namespace Search

/-- Adds a node. Its cost becomes the best one of its residual goal, which is open from now on. -/
def push (s : Search) (n : Node) : Search where
  nodes := s.nodes.push n
  frontier := s.frontier.insert ⟨n.total, n.cost, s.nodes.size⟩
  closed := s.closed.erase n.residual
  best := s.best.insert n.residual n.cost
  expanded := s.expanded

/-- A search that has only reached the goal itself, at no cost. -/
def start (estimate : State → Binary64) (goal : State) : Search :=
  push {} ⟨goal, Binary64.zero, estimate goal, none⟩

/-- The node behind an entry of the frontier, unless its residual goal is closed. -/
def openNode? (s : Search) (e : Entry) : Option (Nat × Node) :=
  s.nodes[e.node]?.bind fun n => if s.closed.contains n.residual then none else some (e.node, n)

/-- The most promising open node with its number, and the search without it in its frontier. -/
def next? (s : Search) : Option ((Nat × Node) × Search) :=
  (s.frontier.next? s.openNode?).map fun (found, frontier) => (found, { s with frontier })

/-- Whether a residual goal has been reached at this cost or a lower one before. -/
def isKnown (s : Search) (residual : State) (cost : Binary64) : Bool :=
  s.best[residual]?.any (·.numericLe cost)

/-- Reaches a residual goal. It only counts if no route to it is known that is as cheap. -/
def reach (s : Search) (estimate : State → Binary64) (residual : State) (cost : Binary64)
    (origin : Origin) : Search :=
  if s.isKnown residual cost then s
  else s.push ⟨residual, cost, estimate residual, some origin⟩

/-- Reaches what must hold before one action, so that the residual goal of a node holds after
it. -/
def reachThrough (s : Search) (estimate : State → Binary64) (number : Nat) (n : Node)
    (a : Action) (action : Nat) : Search :=
  match a.regress? n.residual with
  | none => s
  | some residual => s.reach estimate residual (n.cost + a.cost) ⟨number, action⟩

/-- Closes the residual goal of a node. -/
def close (s : Search) (n : Node) : Search :=
  { s with closed := s.closed.insert n.residual, expanded := s.expanded.push n }

/-- Expands a node: closes its residual goal and tries all actions in their order. -/
def expand (s : Search) (estimate : State → Binary64) (actions : List Action) (number : Nat)
    (n : Node) : Search :=
  actions.zipIdx.foldl (fun s a => s.reachThrough estimate number n a.1 a.2) (s.close n)

end Search

end GoalPlanning
