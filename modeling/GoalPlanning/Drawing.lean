import GoalPlanning.Action.Basic
import GoalPlanning.Dot.Graph
import GoalPlanning.Output.ByteWriter
import GoalPlanning.Output.TextSink

/-!
# Drawings of plans

A drawing shows why a plan is what it is. The current state, the goal and every action are nodes;
an edge leads from the current state to each action that can be performed in it; and the plan is a
red chain from the current state to the goal. A step of a plan belongs to the first action that is
interchangeable with it, so actions that share a name are told apart.
-/

namespace GoalPlanning

/-- A node of a drawing. -/
inductive Vertex where
  /-- The current state. -/
  | current
  /-- The goal. -/
  | goal
  /-- The action with this number. -/
  | action (number : Nat)
  deriving DecidableEq

/-- The name of a node. -/
def Vertex.name : Vertex → String
  | current => "current"
  | goal => "goal"
  | action number => "action_" ++ toString number

instance : ToString Vertex := ⟨Vertex.name⟩

namespace Drawing

open Dot

/-- The lines that describe a state: one for each fact, or an empty one if there is none. -/
def stateLines (s : State) : List String :=
  if s.isEmpty then [""] else s.entries.map State.factText

/-- Lines with a heading in front of the first one. -/
def headed (heading : String) : List String → List String
  | [] => [heading]
  | line :: rest => (heading ++ line) :: rest

/-- The lines that describe an action. -/
def actionLines (a : Action) : List String :=
  [a.name, "Cost: " ++ a.cost.text] ++ headed "Pre: " (stateLines a.preconditions) ++
    headed "Eff: " (stateLines a.effects)

/-- The properties of the graph, of all nodes and of all edges. -/
def settings : List (Statement Vertex) :=
  [.setting (.word "rankdir" "LR"),
    .defaults .node [.word "shape" "box", .word "style" "filled", .fill "lightblue"],
    .defaults .edge [.word "fontsize" "10"]]

/-- The node of an action. It stands out if the action occurs in the plan. -/
def actionNode (plan : List Action) (a : Action) (number : Nat) : Statement Vertex :=
  .node (.action number) (.label (actionLines a) ::
    if plan.any (·.sameAs a) then [.fill "lightcoral"] else [])

/-- The edge to an action that can be performed in the current state. -/
def possibleEdge (number : Nat) : Statement Vertex :=
  .edge .current (.action number) [.label ["possible"]]

/-- A red edge. -/
def chainEdge (source target : Vertex) (caption : String) : Statement Vertex :=
  .edge source target [.label [caption], .word "color" "red", .word "penwidth" "2.0"]

/-- The red chain from a node through the rest of a plan to the goal. Steps that are none of the
actions have no node; they are counted and passed over. -/
def chainFrom (actions : List Action) (previous : Vertex) (step : Nat) :
    List Action → List (Statement Vertex)
  | [] => [chainEdge previous .goal "achieves"]
  | a :: rest =>
    match a.indexIn? actions with
    | none => chainFrom actions previous (step + 1) rest
    | some number =>
      chainEdge previous (.action number) ("step " ++ toString step) ::
        chainFrom actions (.action number) (step + 1) rest

/-- The red chain of a plan. An empty plan has none. -/
def chain (actions plan : List Action) : List (Statement Vertex) :=
  if plan.isEmpty then [] else chainFrom actions .current 1 plan

/-- The drawing of a plan for a goal from a current state. -/
def graph (actions : List Action) (current goal : State) (plan : List Action) : Graph Vertex where
  name := "GOAP"
  statements :=
    settings ++
    [.node .current [.label ("Current State" :: stateLines current), .fill "lightgreen"],
      .node .goal [.label ("Goal State" :: stateLines goal), .fill "lightpink"]] ++
    actions.zipIdx.map (fun a => actionNode plan a.1 a.2) ++
    (actions.zipIdx.filter fun a => a.1.canPerform current).map (fun a => possibleEdge a.2) ++
    chain actions plan

/-- The text of a drawing. -/
def text (actions : List Action) (current goal : State) (plan : List Action) : String :=
  (graph actions current goal plan).text

/-- Writes a drawing into a text sink, line by line. -/
def writeText {σ : Type} [TextSink σ] (actions : List Action) (current goal : State)
    (plan : List Action) (sink : σ) : Except Failure Unit × σ :=
  TextSink.writeAll (graph actions current goal plan).lines sink

/-- Writes the UTF-8 bytes of a drawing to a byte writer. -/
def writeBytes {ω : Type} [ByteWriter ω] (actions : List Action) (current goal : State)
    (plan : List Action) (writer : ω) : Except Failure Unit × ω :=
  ByteWriter.writeAll (text actions current goal plan).toUTF8.data.toList writer

end Drawing

end GoalPlanning
