import GoalPlanning.Drawing
import GoalPlanning.Proofs.Dot.BlankLabels

/-!
# Text in drawings

Names, keys and texts may be anything, quotation marks, backslashes and line breaks included. They
are only drawn inside labels, and a label is one string whatever its lines are. So the text outside
strings depends on nothing but an outline of the drawing, and everyone who reads a string in the
usual way gets the lines that were meant.
-/

namespace GoalPlanning

namespace Drawing

open Dot

/-! ## Outlines -/

/-- What a drawing shows apart from its labels. -/
structure Outline where
  /-- Of each action whether it occurs in the plan. -/
  planned : List Bool
  /-- Of each action whether it can be performed in the current state. -/
  performable : List Bool
  /-- The numbers of the actions that the steps of the plan belong to, as far as they do. -/
  steps : List ℕ
  /-- Whether there is a step at all. -/
  hasSteps : Bool
  deriving DecidableEq

/-- The outline of a drawing. -/
def outline (actions : List Action) (current : State) (plan : List Action) : Outline where
  planned := actions.map fun a => plan.any (·.sameAs a)
  performable := actions.map (·.canPerform current)
  steps := plan.filterMap (·.indexIn? actions)
  hasSteps := !plan.isEmpty

namespace Outline

/-- A red edge with a blank label. -/
def chainEdge (source target : Vertex) : Statement Vertex :=
  .edge source target [.label [], .word "color" "red", .word "penwidth" "2.0"]

/-- The red chain from a node through the actions with these numbers to the goal. -/
def chainFrom (previous : Vertex) : List ℕ → List (Statement Vertex)
  | [] => [chainEdge previous .goal]
  | number :: rest => chainEdge previous (.action number) :: chainFrom (.action number) rest

/-- The drawing of an outline, with blank labels. -/
def graph (o : Outline) : Graph Vertex where
  name := "GOAP"
  statements :=
    settings ++
    [.node .current [.label [], .fill "lightgreen"], .node .goal [.label [], .fill "lightpink"]] ++
    o.planned.zipIdx.map (fun b => .node (.action b.2)
      (.label [] :: if b.1 then [.fill "lightcoral"] else [])) ++
    (o.performable.zipIdx.filter fun b => b.1).map
      (fun b => .edge .current (.action b.2) [.label []]) ++
    if o.hasSteps then chainFrom .current o.steps else []

end Outline

variable (actions : List Action) (current goal : State) (plan : List Action)

/-- With blank labels the chain from a node on depends on the numbers of its steps alone. -/
theorem map_blank_chainFrom (previous : Vertex) (step : ℕ) :
    (chainFrom actions previous step plan).map Statement.blank =
      Outline.chainFrom previous (plan.filterMap (·.indexIn? actions)) := by
  induction plan generalizing previous step with
  | nil => rfl
  | cons a plan ih =>
    unfold chainFrom
    simp only [List.filterMap_cons]
    cases a.indexIn? actions with
    | none => exact ih previous (step + 1)
    | some number => exact congrArg (List.cons _) (ih (.action number) (step + 1))

/-- With a blank label the node of an action shows nothing but whether the action occurs in the
plan. -/
theorem blank_actionNode (a : Action) (number : ℕ) :
    (actionNode plan a number).blank = .node (.action number)
      (.label [] :: if plan.any (·.sameAs a) then [.fill "lightcoral"] else []) := by
  unfold actionNode
  split <;> rfl

/-- With blank labels a drawing is the drawing of its outline. -/
theorem blank_graph :
    (graph actions current goal plan).blank = (outline actions current plan).graph := by
  have hsettings : settings.map Statement.blank = settings := rfl
  have hnodes : (actions.zipIdx.map fun a => actionNode plan a.1 a.2).map Statement.blank =
      (outline actions current plan).planned.zipIdx.map fun b => .node (.action b.2)
        (.label [] :: if b.1 then [.fill "lightcoral"] else []) := by
    simp only [outline, List.zipIdx_map, List.map_map]
    exact List.map_congr_left fun a _ => blank_actionNode plan a.1 a.2
  have hedges : ((actions.zipIdx.filter fun a => a.1.canPerform current).map
      fun a => possibleEdge a.2).map Statement.blank =
      ((outline actions current plan).performable.zipIdx.filter fun b => b.1).map
        fun b => .edge .current (.action b.2) [.label []] := by
    simp only [outline, List.zipIdx_map, List.filter_map, List.map_map]
    rfl
  have hchain : (chain actions plan).map Statement.blank =
      if (outline actions current plan).hasSteps then
        Outline.chainFrom .current (outline actions current plan).steps else [] := by
    unfold chain outline
    cases plan.isEmpty with
    | true => rfl
    | false => exact map_blank_chainFrom actions plan .current 1
  unfold Graph.blank graph Outline.graph
  simp only [List.map_append, hsettings, hnodes, hedges, hchain]
  rfl

/-! ## Labels -/

/-- One line for each entry of a state, in the order of the keys. -/
def entryLines (s : State) : List String := s.entries.map fun e => e.1 ++ ": " ++ e.2.text

/-- What the node of a state is meant to say: which state it is, and its entries. A state without
entries leaves a line empty. -/
def stateNodeLines (heading : String) (s : State) : List String :=
  heading :: if s.entries = [] then [""] else entryLines s

/-- What the node of an action is meant to say about its preconditions or its effects. The heading
is on the line of the first entry. -/
def conditionLines (heading : String) (s : State) : List String :=
  match entryLines s with
  | [] => [heading]
  | line :: rest => (heading ++ line) :: rest

/-- What the node of an action is meant to say. -/
def actionNodeLines (a : Action) : List String :=
  a.name :: ("Cost: " ++ a.cost.text) ::
    (conditionLines "Pre: " a.preconditions ++ conditionLines "Eff: " a.effects)

/-- What the nodes of a drawing are meant to say, in the order in which they are written. -/
def nodeLines : List (List String) :=
  stateNodeLines "Current State" current :: stateNodeLines "Goal State" goal ::
    actions.map actionNodeLines

/-- What is written beside the edges of a drawing. -/
def captions : List (List String) :=
  (actions.filter (·.canPerform current)).map (fun _ => ["possible"]) ++
    if plan.isEmpty then []
    else ((plan.zipIdx 1).filter fun a => (a.1.indexIn? actions).isSome).map
      (fun a => ["step " ++ toString a.2]) ++ [["achieves"]]

/-- A state is drawn with the lines that are meant. -/
theorem cons_stateLines (heading : String) (s : State) :
    heading :: stateLines s = stateNodeLines heading s := by
  simp only [stateLines, stateNodeLines, State.isEmpty, List.isEmpty_iff]
  rfl

/-- Preconditions and effects are drawn with the lines that are meant. -/
theorem headed_stateLines (heading : String) (s : State) :
    headed heading (stateLines s) = conditionLines heading s := by
  obtain ⟨entries, hordered⟩ := s
  cases entries with
  | nil => exact congrArg (fun line => [line]) String.append_empty
  | cons e rest => rfl

/-- An action is drawn with the lines that are meant. -/
theorem actionLines_eq (a : Action) : actionLines a = actionNodeLines a := by
  rw [actionLines, headed_stateLines, headed_stateLines, List.append_assoc]
  rfl

/-- The edges of a chain are labelled with the positions of their steps, and the last one leads to
the goal. -/
theorem flatMap_labels_chainFrom (previous : Vertex) (step : ℕ) :
    (chainFrom actions previous step plan).flatMap Statement.labels =
      ((plan.zipIdx step).filter fun a => (a.1.indexIn? actions).isSome).map
        (fun a => ["step " ++ toString a.2]) ++ [["achieves"]] := by
  induction plan generalizing previous step with
  | nil => rfl
  | cons a plan ih =>
    unfold chainFrom
    rw [List.zipIdx_cons, List.filter_cons]
    cases a.indexIn? actions with
    | none => exact ih previous (step + 1)
    | some number => exact congrArg (List.cons _) (ih (.action number) (step + 1))

/-- The node of an action has one label. -/
theorem labels_actionNode (a : Action) (number : ℕ) :
    (actionNode plan a number).labels = [actionNodeLines a] := by
  unfold actionNode
  rw [actionLines_eq]
  split <;> rfl

/-- The labels of a drawing are those of its nodes and then those of its edges. -/
theorem labels_graph :
    (graph actions current goal plan).labels =
      nodeLines actions current goal ++ captions actions current plan := by
  have hfirst : actions.zipIdx.map Prod.fst = actions := List.zipIdx_map_fst 0 actions
  have hsettings : settings.flatMap Statement.labels = [] := rfl
  have hnodes : (actions.zipIdx.map fun a => actionNode plan a.1 a.2).flatMap Statement.labels =
      actions.map actionNodeLines := by
    simp only [List.flatMap_map, labels_actionNode]
    rw [← List.map_eq_flatMap]
    conv_rhs => rw [← hfirst, List.map_map]
    rfl
  have hedges : ((actions.zipIdx.filter fun a => a.1.canPerform current).map
      fun a => possibleEdge a.2).flatMap Statement.labels =
      (actions.filter (·.canPerform current)).map fun _ => ["possible"] := by
    rw [List.flatMap_map]
    conv_rhs => rw [← hfirst, List.filter_map, List.map_map, List.map_eq_flatMap]
    rfl
  have hchain : (chain actions plan).flatMap Statement.labels = if plan.isEmpty then []
      else ((plan.zipIdx 1).filter fun a => (a.1.indexIn? actions).isSome).map
        (fun a => ["step " ++ toString a.2]) ++ [["achieves"]] := by
    unfold chain
    split
    · rfl
    · exact flatMap_labels_chainFrom actions plan .current 1
  unfold Graph.labels graph captions nodeLines
  simp only [List.flatMap_append, hsettings, hnodes, hedges, hchain, List.append_assoc,
    cons_stateLines]
  rfl

/-- No label lacks a first line. -/
theorem ne_nil_of_mem_labels {lines : List String}
    (h : lines ∈ nodeLines actions current goal ++ captions actions current plan) :
    lines ≠ [] := by
  rintro rfl
  simp [nodeLines, captions, stateNodeLines, actionNodeLines] at h

/-- Nodes have plain names. -/
theorem plain_vertex (v : Vertex) : Plain (toString v) := by
  cases v with
  | current => decide
  | goal => decide
  | action number => exact Plain.append (by decide) (plain_toString number)

/-- A node with a label and plain properties is plain. -/
theorem isPlain_node (v : Vertex) (lines : List String) {attributes : List Attribute}
    (h : ∀ a ∈ attributes, a.IsPlain) :
    (Statement.node v (.label lines :: attributes)).IsPlain :=
  List.forall_mem_cons.2 ⟨Attribute.isPlain_label lines, h⟩

/-- Apart from its label the node of an action gives at most a colour. -/
theorem isPlain_actionNode (a : Action) (number : ℕ) : (actionNode plan a number).IsPlain := by
  refine isPlain_node _ _ ?_
  split <;> decide

/-- The edge to an action that can be performed gives nothing but a label. -/
theorem isPlain_possibleEdge (number : ℕ) : (possibleEdge number).IsPlain :=
  List.forall_mem_singleton.2 (Attribute.isPlain_label _)

/-- Apart from its label a red edge gives a colour and a width. -/
theorem isPlain_chainEdge (source target : Vertex) (caption : String) :
    (chainEdge source target caption).IsPlain :=
  List.forall_mem_cons.2 ⟨Attribute.isPlain_label [caption], by decide⟩

/-- The chain from a node on consists of red edges. -/
theorem exists_eq_chainEdge_of_mem_chainFrom {previous : Vertex} {step : ℕ} {s : Statement Vertex}
    (h : s ∈ chainFrom actions previous step plan) :
    ∃ source target caption, s = chainEdge source target caption := by
  induction plan generalizing previous step with
  | nil => exact ⟨previous, .goal, "achieves", List.mem_singleton.1 h⟩
  | cons a plan ih =>
    unfold chainFrom at h
    cases hnumber : a.indexIn? actions with
    | none =>
      rw [hnumber] at h
      exact ih h
    | some number =>
      rw [hnumber] at h
      rcases List.mem_cons.1 h with rfl | h
      · exact ⟨previous, .action number, "step " ++ toString step, rfl⟩
      · exact ih h

/-- The chain of a plan consists of red edges. -/
theorem exists_eq_chainEdge_of_mem_chain {s : Statement Vertex} (h : s ∈ chain actions plan) :
    ∃ source target caption, s = chainEdge source target caption := by
  unfold chain at h
  split at h
  · cases h
  · exact exists_eq_chainEdge_of_mem_chainFrom actions plan h

/-- Only labels have text that is not known beforehand. -/
theorem isPlain_graph : (graph actions current goal plan).IsPlain := by
  have hsettings : ∀ s ∈ settings, s.IsPlain := by decide
  have hstates : ∀ s ∈ [Statement.node Vertex.current
        [.label ("Current State" :: stateLines current), .fill "lightgreen"],
      .node .goal [.label ("Goal State" :: stateLines goal), .fill "lightpink"]], s.IsPlain :=
    List.forall_mem_cons.2 ⟨isPlain_node _ _ (by decide),
      List.forall_mem_singleton.2 (isPlain_node _ _ (by decide))⟩
  have hactions : ∀ s ∈ actions.zipIdx.map fun a => actionNode plan a.1 a.2, s.IsPlain :=
    List.forall_mem_map.2 fun a _ => isPlain_actionNode plan a.1 a.2
  have hedges : ∀ s ∈ (actions.zipIdx.filter fun a => a.1.canPerform current).map
      fun a => possibleEdge a.2, s.IsPlain :=
    List.forall_mem_map.2 fun a _ => isPlain_possibleEdge a.2
  have hchain : ∀ s ∈ chain actions plan, s.IsPlain := by
    intro s hs
    obtain ⟨source, target, caption, rfl⟩ := exists_eq_chainEdge_of_mem_chain actions plan hs
    exact isPlain_chainEdge source target caption
  have hstatements : ∀ s ∈ (graph actions current goal plan).statements, s.IsPlain := by
    simp only [graph, List.forall_mem_append]
    exact ⟨⟨⟨⟨hsettings, hstates⟩, hactions⟩, hedges⟩, hchain⟩
  have hname : Plain (graph actions current goal plan).name := show Plain "GOAP" by decide
  exact ⟨hname, plain_vertex, hstatements⟩

/-- **No text escapes its label.** A scanner that reads the text of a drawing ends outside strings.
What it finds there is the text of the outline of the drawing: how many actions there are, which of
them occur in the plan and which can be performed, which of them the steps belong to, and whether
there are any. The strings are read as the lines of the nodes and then those of the edges, whatever
characters names, keys and values consist of. -/
theorem scan_place_frame_strings :
    (scan (text actions current goal plan)).place = .outside ∧
      (scan (text actions current goal plan)).frame =
        (outline actions current plan).graph.text.toList ∧
      (scan (text actions current goal plan)).strings.map readLines =
        (nodeLines actions current goal ++ captions actions current plan).map
          (fun lines => some (lines.map String.toList)) := by
  have hscan := (Graph.readsRows_text (isPlain_graph actions current goal plan)).scan_eq
  rw [blank_graph, labels_graph] at hscan
  rw [text, hscan]
  refine ⟨rfl, rfl, ?_⟩
  rw [List.map_map]
  refine List.map_congr_left fun lines hlines => ?_
  exact readLines_labelBody (ne_nil_of_mem_labels actions current goal plan hlines)

end Drawing

/-! A name, a key and values that would end their labels and draw nodes of their own, if they were
written as they are. -/

namespace Graffiti

open Drawing Dot

/-- The name ends in a backslash. The effects are given out of their order. -/
def spray : Action where
  name := "say \"hi\\"
  cost := Binary64.ofBits 0x4004000000000000
  preconditions := State.empty.insert "a\\name" (.string "\"]; goal -> current;\n")
  effects := (State.empty.insert "wall" (.bool true)).insert "cans" (.int (-3))
  cost_isCost := by decide
  effects_nonempty := by decide

/-- The action can be performed. -/
def current : State := spray.preconditions.insert "\\" (.string "\\\\n\"")

/-- Outside strings nothing of it is seen, and inside it is read as it was meant. -/
theorem scan_text :
    (scan (text [spray] current .empty [spray])).place = .outside ∧
      (scan (text [spray] current .empty [spray])).frame = String.toList
        ("digraph GOAP \x7b\n" ++
          "    rankdir=LR;\n" ++
          "    node [shape=box, style=filled, fillcolor=lightblue];\n" ++
          "    edge [fontsize=10];\n" ++
          "    current [label=\"\", fillcolor=lightgreen];\n" ++
          "    goal [label=\"\", fillcolor=lightpink];\n" ++
          "    action_0 [label=\"\", fillcolor=lightcoral];\n" ++
          "    current -> action_0 [label=\"\"];\n" ++
          "    current -> action_0 [label=\"\", color=red, penwidth=2.0];\n" ++
          "    action_0 -> goal [label=\"\", color=red, penwidth=2.0];\n" ++
          "\x7d\n") ∧
      (scan (text [spray] current .empty [spray])).strings.map readLines =
        [["Current State", "\\: \\\\n\"", "a\\name: \"]; goal -> current;\n"],
          ["Goal State", ""],
          ["say \"hi\\", "Cost: 2.5", "Pre: a\\name: \"]; goal -> current;\n",
            "Eff: cans: -3", "wall: true"],
          ["possible"], ["step 1"], ["achieves"]].map
            fun lines => some (lines.map String.toList) := by
  obtain ⟨hplace, hframe, hstrings⟩ :=
    scan_place_frame_strings [spray] current .empty [spray]
  exact ⟨hplace, hframe.trans (congrArg String.toList (by decide +kernel)),
    hstrings.trans (by decide +kernel)⟩

end Graffiti

end GoalPlanning
