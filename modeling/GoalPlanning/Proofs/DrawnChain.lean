import GoalPlanning.Proofs.DrawnText
import GoalPlanning.Proofs.Soundness

/-!
# The red chain of a plan

A drawing shows a plan as one red walk from the current state to the goal. It stops at the actions
of the steps, one after another, and passes over steps that are none of the drawn actions, without
losing count of them. A plan that was found for the drawn actions and the drawn current state has no
such steps, and the walk sets out to an action that can be performed. All of this is read off the
rows of the text: what a row is about, which properties it gives, and the row as a whole.
-/

namespace GoalPlanning

namespace Drawing

open Dot

/-! ## Walks -/

/-- Whether a row gives the colour red, outside of its label. -/
def isRed (row : String) : Bool := decide ("color=red".toList <:+: properties row)

/-- The row of a red edge between two nodes, with what is written beside it. -/
def redRow (source target caption : String) : String :=
  "    " ++ source ++ " -> " ++ target ++
    " [label=\"" ++ caption ++ "\", color=red, penwidth=2.0];\n"

/-- A red walk from a node through some stops, each with what is written beside the edge that
enters it. Every edge leaves the node that the one before it has entered. -/
def walk (start : String) (stops : List (String × String)) : List String :=
  List.zipWith (fun source stop => redRow source stop.1 stop.2)
    (start :: stops.map Prod.fst) stops

/-- Where the steps of a plan stop: each at the first action that equals it, if there is one, with
its number, counted from `first` on. -/
def stepStops (actions plan : List Action) (first : ℕ) : List (String × String) :=
  (plan.zipIdx first).filterMap fun a =>
    (actions.findIdx? (·.sameAs a.1)).map fun number =>
      ("action_" ++ toString number, "step " ++ toString a.2)

/-- Where the chain of a plan stops: at its steps and, if it has any, at the goal. -/
def stops (actions plan : List Action) : List (String × String) :=
  stepStops actions plan 1 ++ if plan = [] then [] else [("goal", "achieves")]

/-- Whether the text has a row for the node of an action that fills it with the colour of the
actions that occur in the plan. -/
def IsHighlighted (text : String) (number : ℕ) : Prop :=
  ∃ row ∈ rowsOf text, subject row = ("    action_" ++ toString number ++ " ").toList ∧
    "fillcolor=lightcoral".toList <:+: properties row

variable {actions plan : List Action} {current goal : State} {number : ℕ}

/-- A red edge is written as its row if its caption can be written as it is. -/
theorem row_chainEdge (source target : Vertex) {caption : String}
    (hbackslash : '\\' ∉ caption.toList) (hquote : '"' ∉ caption.toList) :
    (chainEdge source target caption).row = redRow (toString source) (toString target) caption := by
  have hlist : Attribute.listText
      [.label [caption], .word "color" "red", .word "penwidth" "2.0"] =
        "[label=\"" ++ caption ++ "\", color=red, penwidth=2.0]" := by
    simp [← String.toList_inj, Attribute.listText, Attribute.text, Attribute.label, Attribute.word,
      AttributeValue.text, quoteLines, escape_eq_self hbackslash hquote]
  rw [Statement.row, chainEdge, Statement.text, hlist]
  simp [← String.toList_inj, redRow]

/-- The edge to an action that can be performed is written with its caption as it is. -/
theorem row_possibleEdge (number : ℕ) :
    (possibleEdge number).row =
      "    current -> " ++ ("action_" ++ toString number) ++ " [label=\"possible\"];\n" := by
  have hlist : Attribute.listText [.label ["possible"]] = "[label=\"possible\"]" := by decide
  have hcurrent : toString Vertex.current = "current" := rfl
  have haction : toString (Vertex.action number) = "action_" ++ toString number := rfl
  rw [Statement.row, possibleEdge, Statement.text, hlist, hcurrent, haction]
  simp [← String.toList_inj]

/-- The chain from a node on is a walk through the stops of the steps to the goal. -/
theorem map_row_chainFrom (actions plan : List Action) (previous : Vertex) (step : ℕ) :
    (chainFrom actions previous step plan).map Statement.row =
      walk (toString previous) (stepStops actions plan step ++ [("goal", "achieves")]) := by
  induction plan generalizing previous step with
  | nil => exact congrArg (fun row => [row]) (row_chainEdge _ _ (by decide) (by decide))
  | cons a plan ih =>
    simp only [chainFrom, stepStops, List.zipIdx_cons, List.filterMap_cons, Action.indexIn?]
    -- A step that is passed over leaves the node as it is, but it is counted.
    cases actions.findIdx? (·.sameAs a) with
    | none => exact ih previous (step + 1)
    | some number =>
      have hrow := row_chainEdge previous (.action number)
        (notMem_append_toString (s := "step ") (n := step) (by decide) (by decide))
        (notMem_append_toString (by decide) (by decide))
      exact congrArg₂ List.cons hrow (ih (.action number) (step + 1))

/-- The chain of a plan is a walk through its stops. -/
theorem map_row_chain (actions plan : List Action) :
    (chain actions plan).map Statement.row = walk "current" (stops actions plan) := by
  cases plan with
  | nil => rfl
  | cons a plan => exact map_row_chainFrom actions (a :: plan) .current 1

/-! ## Rows of a drawing -/

/-- The rows of a drawing are a first one, the rows of its statements and a last one. -/
theorem rowsOf_text (actions : List Action) (current goal : State) (plan : List Action) :
    rowsOf (text actions current goal plan) = ["digraph GOAP \x7b\n"] ++
      ((graph actions current goal plan).statements.map Statement.row ++ ["\x7d\n"]) := by
  rw [text, (Graph.readsRows_text (isPlain_graph actions current goal plan)).rowsOf_eq,
    Graph.lines_eq]
  rfl

/-- Apart from the first and the last one, rows are those of statements. -/
theorem mem_rowsOf_text_iff {row : String} :
    row ∈ rowsOf (text actions current goal plan) ↔ row ∈ ["digraph GOAP \x7b\n", "\x7d\n"] ∨
      ∃ s ∈ (graph actions current goal plan).statements, s.row = row := by
  rw [rowsOf_text]
  simp only [List.mem_append, List.mem_map, List.mem_pair, List.mem_singleton]
  exact (or_congr_right or_comm).trans or_assoc.symm

/-- No opening bracket occurs in the name of a node. -/
theorem bracket_notMem_vertex (v : Vertex) : '[' ∉ (toString v).toList := by
  cases v with
  | current => decide
  | goal => decide
  | action number => exact notMem_append_toString (s := "action_") (by decide) (by decide)

/-- The row of an action's node is about that action, and fills it if it occurs in the plan. -/
theorem subject_properties_actionNode (plan : List Action) (a : Action) (number : ℕ) :
    subject (actionNode plan a number).row = ("    action_" ++ toString number ++ " ").toList ∧
      properties (actionNode plan a number).row =
        (Attribute.listText (.label [] ::
          if plan.any (·.sameAs a) then [.fill "lightcoral"] else []) ++ ";\n").toList := by
  obtain ⟨hsubject, hproperties⟩ := Statement.subject_properties_row plain_vertex
    (isPlain_actionNode plan a number) (congrArg Statement.text (blank_actionNode plan a number))
    (bracket_notMem_vertex (.action number))
  refine ⟨hsubject.trans ?_, hproperties⟩
  simp [toString, Vertex.name]

/-- The rows of other nodes are about those nodes. -/
theorem subject_properties_node {v : Vertex} {attributes : List Attribute}
    (h : (Statement.node v attributes).IsPlain) :
    subject (Statement.node v attributes).row = ("    " ++ toString v ++ " ").toList ∧
      properties (Statement.node v attributes).row =
        (Attribute.listText (attributes.map Attribute.blank) ++ ";\n").toList :=
  Statement.subject_properties_row plain_vertex h rfl (bracket_notMem_vertex v)

/-- The rows of edges are about two nodes. -/
theorem subject_properties_edge {source target : Vertex} {attributes : List Attribute}
    (h : (Statement.edge source target attributes).IsPlain) :
    subject (Statement.edge source target attributes).row =
        ("    " ++ (toString source ++ " -> " ++ toString target) ++ " ").toList ∧
      properties (Statement.edge source target attributes).row =
        (Attribute.listText (attributes.map Attribute.blank) ++ ";\n").toList := by
  refine Statement.subject_properties_row plain_vertex h rfl ?_
  simp [bracket_notMem_vertex]

/-- A row is red if the colour is among its properties. -/
theorem isRed_iff {row : String} : isRed row = true ↔ "color=red".toList <:+: properties row :=
  decide_eq_true_iff

/-- The node of a state is red only if it is filled with red. -/
theorem isRed_stateNode_iff {v : Vertex} {lines : List String} {colour : String}
    (hcolour : Plain colour) : isRed (Statement.node v [.label lines, .fill colour]).row = true ↔
      "color=red".toList <:+: (Attribute.listText [.label [], .fill colour] ++ ";\n").toList := by
  have hfill : (Attribute.fill colour).IsPlain := ⟨show Plain "fillcolor" by decide, hcolour⟩
  have hnode := isPlain_node v lines (List.forall_mem_singleton.2 hfill)
  rw [isRed_iff, (subject_properties_node hnode).2]
  rfl

/-- The node of an action is not red. -/
theorem isRed_actionNode (plan : List Action) (a : Action) (number : ℕ) :
    isRed (actionNode plan a number).row ≠ true := by
  rw [ne_eq, isRed_iff, (subject_properties_actionNode plan a number).2]
  cases plan.any (·.sameAs a) <;> decide +kernel

/-- The edge to an action that can be performed is not red. -/
theorem isRed_possibleEdge (number : ℕ) : isRed (possibleEdge number).row ≠ true := by
  rw [ne_eq, isRed_iff, possibleEdge, (subject_properties_edge (isPlain_possibleEdge number)).2]
  decide +kernel

/-- The edges of the chain are red. -/
theorem isRed_chainEdge (source target : Vertex) (caption : String) :
    isRed (chainEdge source target caption).row = true := by
  rw [isRed_iff, chainEdge, (subject_properties_edge (isPlain_chainEdge _ _ caption)).2]
  change _ <:+: (Attribute.listText
    [.label [], .word "color" "red", .word "penwidth" "2.0"] ++ ";\n").toList
  decide +kernel

/-- Nothing is red in a drawing but the chain of the plan. -/
theorem filter_isRed_rowsOf_text (actions : List Action) (current goal : State)
    (plan : List Action) :
    (rowsOf (text actions current goal plan)).filter isRed =
      (chain actions plan).map Statement.row := by
  have hends : isRed "digraph GOAP \x7b\n" = false ∧ isRed "\x7d\n" = false := by decide +kernel
  have hsettings : (settings.map Statement.row).filter isRed = [] := by decide +kernel
  have hstates : ([Statement.node Vertex.current
        [.label ("Current State" :: stateLines current), .fill "lightgreen"],
      .node .goal [.label ("Goal State" :: stateLines goal), .fill "lightpink"]].map
        Statement.row).filter isRed = [] := by
    refine List.filter_eq_nil_iff.2 (List.forall_mem_cons.2 ⟨?_, List.forall_mem_singleton.2 ?_⟩)
    · rw [isRed_stateNode_iff (by decide)]
      decide +kernel
    · rw [isRed_stateNode_iff (by decide)]
      decide +kernel
  have hactions : ((actions.zipIdx.map fun a => actionNode plan a.1 a.2).map
      Statement.row).filter isRed = [] :=
    List.filter_eq_nil_iff.2 (List.forall_mem_map.2 (List.forall_mem_map.2 fun a _ =>
      isRed_actionNode plan a.1 a.2))
  have hedges : (((actions.zipIdx.filter fun a => a.1.canPerform current).map
      fun a => possibleEdge a.2).map Statement.row).filter isRed = [] :=
    List.filter_eq_nil_iff.2 (List.forall_mem_map.2 (List.forall_mem_map.2 fun a _ =>
      isRed_possibleEdge a.2))
  have hchain : ((chain actions plan).map Statement.row).filter isRed =
      (chain actions plan).map Statement.row := by
    refine List.filter_eq_self.2 (List.forall_mem_map.2 fun s hs => ?_)
    obtain ⟨source, target, caption, rfl⟩ := exists_eq_chainEdge_of_mem_chain actions plan hs
    exact isRed_chainEdge source target caption
  rw [rowsOf_text, graph]
  simp only [List.map_append, List.filter_append, hsettings, hstates, hactions, hedges, hchain]
  simp [hends]

/-- What an edge says is not said about an action alone. -/
theorem subject_edge_ne {source target : Vertex} {attributes : List Attribute}
    (h : (Statement.edge source target attributes).IsPlain) :
    subject (Statement.edge source target attributes).row ≠
      ("    action_" ++ toString number ++ " ").toList := by
  have harrow : '>' ∈ subject (Statement.edge source target attributes).row := by
    rw [(subject_properties_edge h).1]
    simp
  have hno_arrow : '>' ∉ ("    action_" ++ toString number ++ " ").toList := by
    rw [String.toList_append, List.mem_append, not_or]
    exact ⟨notMem_append_toString (by decide) (by decide), by decide⟩
  exact fun heq => hno_arrow (heq ▸ harrow)

/-- What is said about an action tells its number. -/
theorem eq_of_subject_eq {m n : ℕ}
    (h : ("    action_" ++ toString m ++ " ").toList =
      ("    action_" ++ toString n ++ " ").toList) : m = n := by
  have hdigits : Nat.toDigits 10 m = Nat.toDigits 10 n := by simpa using h
  calc m = Nat.ofDigitChars 10 (Nat.toDigits 10 m) 0 := Nat.ofDigitChars_ten_toDigits.symm
    _ = Nat.ofDigitChars 10 (Nat.toDigits 10 n) 0 := by rw [hdigits]
    _ = n := Nat.ofDigitChars_ten_toDigits

/-- Only the node of an action has a row that is about the action alone. -/
theorem exists_eq_row_actionNode {row : String}
    (hrow : row ∈ rowsOf (text actions current goal plan))
    (hsubject : subject row = ("    action_" ++ toString number ++ " ").toList) :
    ∃ a, actions[number]? = some a ∧ row = (actionNode plan a number).row := by
  have hbegins : "    action_".toList <+: subject row := by
    rw [hsubject, String.append_assoc, String.toList_append]
    exact List.prefix_append _ _
  have hother : ∀ row ∈ ["digraph GOAP \x7b\n", "\x7d\n"] ++ settings.map Statement.row,
      ¬"    action_".toList <+: subject row := by decide +kernel
  have hstates : ∀ v ∈ [Vertex.current, .goal],
      ¬"    action_".toList <+: ("    " ++ toString v ++ " ").toList := by decide +kernel
  rcases mem_rowsOf_text_iff.1 hrow with hends | ⟨s, hs, rfl⟩
  · exact absurd hbegins (hother row (List.mem_append_left _ hends))
  simp only [graph, List.mem_append] at hs
  rcases hs with (((hsetting | hstate) | haction) | hedge) | hchain
  · exact absurd hbegins (hother _ (List.mem_append_right _ (List.mem_map_of_mem hsetting)))
  · rcases List.mem_pair.1 hstate with rfl | rfl
    · rw [(subject_properties_node (isPlain_node _ _ (by decide))).1] at hbegins
      exact absurd hbegins (hstates .current (by decide))
    · rw [(subject_properties_node (isPlain_node _ _ (by decide))).1] at hbegins
      exact absurd hbegins (hstates .goal (by decide))
  · obtain ⟨⟨a, number'⟩, ha, rfl⟩ := List.mem_map.1 haction
    rw [(subject_properties_actionNode plan a number').1] at hsubject
    obtain rfl := eq_of_subject_eq hsubject
    exact ⟨a, List.mem_zipIdx_iff_getElem?.1 ha, rfl⟩
  · obtain ⟨a, -, rfl⟩ := List.mem_map.1 hedge
    exact absurd hsubject (subject_edge_ne (isPlain_possibleEdge a.2))
  · obtain ⟨source, target, caption, rfl⟩ := exists_eq_chainEdge_of_mem_chain actions plan hchain
    exact absurd hsubject (subject_edge_ne (isPlain_chainEdge source target caption))

/-- An action's node is filled if the action equals a step of the plan. -/
theorem lightcoral_actionNode_iff {a : Action} :
    "fillcolor=lightcoral".toList <:+: properties (actionNode plan a number).row ↔
      ∃ step ∈ plan, step.sameAs a = true := by
  rw [(subject_properties_actionNode plan a number).2, ← List.any_eq_true]
  cases plan.any (·.sameAs a) <;> decide +kernel

/-- Every action has its row. -/
theorem row_actionNode_mem_rowsOf {a : Action} (ha : actions[number]? = some a) :
    (actionNode plan a number).row ∈ rowsOf (text actions current goal plan) := by
  have hmem : (a, number) ∈ actions.zipIdx := List.mem_zipIdx_iff_getElem?.2 ha
  refine mem_rowsOf_text_iff.2 (Or.inr ⟨_, ?_, rfl⟩)
  simp only [graph, List.mem_append]
  exact Or.inl (Or.inl (Or.inr (List.mem_map.2 ⟨(a, number), hmem, rfl⟩)))

/-- An action is highlighted if it equals a step of the plan. -/
theorem isHighlighted_iff :
    IsHighlighted (text actions current goal plan) number ↔
      ∃ a, actions[number]? = some a ∧ ∃ step ∈ plan, step.sameAs a = true := by
  constructor
  · rintro ⟨row, hrow, hsubject, hfill⟩
    obtain ⟨a, ha, rfl⟩ := exists_eq_row_actionNode hrow hsubject
    exact ⟨a, ha, lightcoral_actionNode_iff.1 hfill⟩
  · rintro ⟨a, ha, hstep⟩
    exact ⟨_, row_actionNode_mem_rowsOf ha, (subject_properties_actionNode plan a number).1,
      lightcoral_actionNode_iff.2 hstep⟩

/-- There is an edge to every action that can be performed in the current state. -/
theorem possible_mem_rowsOf {a : Action} (ha : actions[number]? = some a)
    (hcan : a.canPerform current = true) :
    "    current -> " ++ ("action_" ++ toString number) ++ " [label=\"possible\"];\n" ∈
      rowsOf (text actions current goal plan) := by
  have hmem : (a, number) ∈ actions.zipIdx.filter fun a => a.1.canPerform current :=
    List.mem_filter.2 ⟨List.mem_zipIdx_iff_getElem?.2 ha, hcan⟩
  refine mem_rowsOf_text_iff.2 (Or.inr ⟨possibleEdge number, ?_, row_possibleEdge number⟩)
  simp only [graph, List.mem_append]
  exact Or.inl (Or.inr (List.mem_map.2 ⟨(a, number), hmem, rfl⟩))

/-! ## Plans that were found -/

section Found

variable {strategy : Strategy} {sought : State}

/-- Every step of a plan that was found for the drawn actions is one of them. -/
theorem findIdx?_isSome_of_plan_eq_ok
    (h : Planner.plan ⟨actions, strategy⟩ current sought = .ok plan) {step : Action}
    (hstep : step ∈ plan) : (actions.findIdx? (·.sameAs step)).isSome = true := by
  have haction : step ∈ actions := (Planner.isSolution_of_plan_eq_ok h).1 step hstep
  rw [List.findIdx?_isSome, List.any_eq_true]
  exact ⟨step, haction, Action.sameAs_iff.2 ⟨rfl, rfl, rfl, rfl⟩⟩

/-- The first step of a plan that was found for the drawn state can be performed in it, and so can
the action to which the step belongs. -/
theorem canPerform_of_plan_eq_ok {step : Action} {rest : List Action}
    (h : Planner.plan ⟨actions, strategy⟩ current sought = .ok (step :: rest))
    {a : Action} (hsame : a.sameAs step = true) : a.canPerform current = true := by
  obtain ⟨-, t, ht⟩ := Planner.isSolution_of_plan_eq_ok h
  obtain ⟨hcan, -⟩ := perform_cons_eq_ok_iff.1 (simulate_eq_ok_iff.1 ht).1
  rw [Action.canPerform, (Action.sameAs_iff.1 hsame).2.2.1]
  exact hcan

end Found

/-- **A plan is drawn as one connected chain.** The rows of the text that are red are one walk from
the current state, through the first actions that equal the steps of the plan, as far as there are
such actions, to the goal, and there are none if the plan is empty. The row of an action highlights
it exactly if it equals some step. If the plan was found for the same actions and the same current
state, with whatever strategy and for whatever goal, then none of its steps is passed over, and
there is an edge from the current state, apart from the chain, to the action at which the chain
stops first. -/
theorem redEdges_eq_walk (actions : List Action) (current goal : State) (plan : List Action) :
    (rowsOf (text actions current goal plan)).filter isRed =
        walk "current" (stops actions plan) ∧
      (∀ number, IsHighlighted (text actions current goal plan) number ↔
        ∃ a, actions[number]? = some a ∧ ∃ step ∈ plan, step.sameAs a = true) ∧
      ∀ (strategy : Strategy) (sought : State),
        Planner.plan ⟨actions, strategy⟩ current sought = .ok plan →
          (∀ step ∈ plan, (actions.findIdx? (·.sameAs step)).isSome = true) ∧
          (plan ≠ [] → ∃ first, (stops actions plan).head? = some (first, "step 1") ∧
            "    current -> " ++ first ++ " [label=\"possible\"];\n" ∈
              rowsOf (text actions current goal plan)) := by
  refine ⟨?_, fun number => isHighlighted_iff, fun strategy sought hfound => ⟨?_, ?_⟩⟩
  · rw [filter_isRed_rowsOf_text, map_row_chain]
  · exact fun step hstep => findIdx?_isSome_of_plan_eq_ok hfound hstep
  · intro hne
    obtain ⟨step, rest, rfl⟩ := List.exists_cons_of_ne_nil hne
    obtain ⟨number, hnumber⟩ := Option.isSome_iff_exists.1
      (findIdx?_isSome_of_plan_eq_ok hfound List.mem_cons_self)
    obtain ⟨hlt, hsame, -⟩ := List.findIdx?_eq_some_iff_getElem.1 hnumber
    refine ⟨"action_" ++ toString number, ?_, possible_mem_rowsOf (List.getElem?_eq_getElem hlt)
      (canPerform_of_plan_eq_ok hfound hsame)⟩
    simp only [stops, stepStops, List.zipIdx_cons, List.filterMap_cons, hnumber]
    rfl

end Drawing

namespace Chest

set_option maxRecDepth 100000 in
/-- The way to the open chest with its key is drawn through both actions, and the chest can be
opened at once. -/
theorem redEdges_plan :
    planner.plan current goal = .ok [openChest, forgeKey] ∧
      (Dot.rowsOf (Drawing.text planner.actions current goal [openChest, forgeKey])).filter
          Drawing.isRed =
        ["    current -> action_1 [label=\"step 1\", color=red, penwidth=2.0];\n",
          "    action_1 -> action_0 [label=\"step 2\", color=red, penwidth=2.0];\n",
          "    action_0 -> goal [label=\"achieves\", color=red, penwidth=2.0];\n"] ∧
      Drawing.IsHighlighted
        (Drawing.text planner.actions current goal [openChest, forgeKey]) 0 ∧
      Drawing.IsHighlighted
        (Drawing.text planner.actions current goal [openChest, forgeKey]) 1 ∧
      "    current -> action_1 [label=\"possible\"];\n" ∈
        Dot.rowsOf (Drawing.text planner.actions current goal [openChest, forgeKey]) := by
  have hplan : planner.plan current goal = .ok [openChest, forgeKey] := rfl
  have hstops : Drawing.stops planner.actions [openChest, forgeKey] =
      [("action_1", "step 1"), ("action_0", "step 2"), ("goal", "achieves")] := by decide
  obtain ⟨hwalk, hhighlighted, hfound⟩ :=
    Drawing.redEdges_eq_walk planner.actions current goal [openChest, forgeKey]
  obtain ⟨-, hfirst⟩ := hfound planner.strategy goal hplan
  obtain ⟨first, hhead, hpossible⟩ := hfirst (List.cons_ne_nil _ _)
  rw [hstops] at hwalk hhead
  obtain rfl : first = "action_1" := (congrArg Prod.fst (Option.some.inj hhead)).symm
  exact ⟨hplan, hwalk, (hhighlighted 0).2 ⟨forgeKey, rfl, forgeKey, by decide, by decide⟩,
    (hhighlighted 1).2 ⟨openChest, rfl, openChest, by decide, by decide⟩, hpossible⟩

end Chest

end GoalPlanning
