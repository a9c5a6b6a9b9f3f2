import GoalPlanning.Proofs.ResidualGoals
import GoalPlanning.Proofs.Search.Exploration
import GoalPlanning.Search.Trace

/-!
# Lines of descent

A node other than the root remembers which node it was made from. That one has a smaller number, so
following a line of descent ends, and it ends at the root. No residual goal comes twice on the way.
Costs never rise towards the root, because a rounded sum is not below its first operand; but a
residual goal that is reached again is reached at a lower cost than ever before, whether or not the
earlier node has been replaced or its residual goal been opened again meanwhile. The cost that is
reported with a plan is the sum along such a line.
-/

namespace GoalPlanning

/-- The nodes from the one with the given number to the root, each followed by the one that it was
made from. -/
inductive Node.Lineage (nodes : Array Node) : ℕ → List Node → Prop
  /-- The line ends at a node without an origin. -/
  | root {i : ℕ} {n : Node} : nodes[i]? = some n → n.origin = none → Lineage nodes i [n]
  /-- From any other node it goes on at the parent. -/
  | child {i : ℕ} {n : Node} {o : Origin} {line : List Node} : nodes[i]? = some n →
      n.origin = some o → Lineage nodes o.parent line → Lineage nodes i (n :: line)

/-- The nodes are a tree, in which every line of descent leads to the root without repeating a
residual goal. -/
structure Node.IsTree (p : Problem) (nodes : Array Node) : Prop where
  /-- The first node is the root: the goal itself, at no cost. -/
  root : ∃ n, nodes[0]? = some n ∧ n.origin = none ∧ n.residual = p.goal ∧ n.cost = Binary64.zero
  /-- Every other node is made from an earlier one by regression through one of the actions, and its
  cost is that of the earlier one and of the action together. -/
  child : ∀ (i : ℕ) (n : Node), 0 < i → nodes[i]? = some n → ∃ o parent a, n.origin = some o ∧
    o.parent < i ∧ nodes[o.parent]? = some parent ∧ p.actions[o.action]? = some a ∧
    a.regress? parent.residual = some n.residual ∧ n.cost = parent.cost + a.cost
  /-- The line of descent of every node ends at the root, never repeats a residual goal, and is what
  the path of the node is read off. -/
  lineage : ∀ (i : ℕ) (n : Node), nodes[i]? = some n → ∃ line, Lineage nodes i line ∧
    line.getLast? = nodes[0]? ∧ (line.map residual).Nodup ∧
    path nodes i = line.filterMap fun m => m.origin.map Origin.action

namespace Arena

variable {p : Problem} {estimate : State → Binary64} {nodes : Array Node} {i : ℕ} {n : Node}
  {line : List Node}

/-- The nodes of a line of descent have no larger numbers and cost no more than the node whose line
it is. -/
theorem le_of_mem_lineage (h : Arena p estimate nodes) (hline : Node.Lineage nodes i line)
    (hn : nodes[i]? = some n) :
    ∀ m ∈ line, ∃ j ≤ i, nodes[j]? = some m ∧ m.cost.magnitude ≤ n.cost.magnitude := by
  induction hline generalizing n with
  | root hroot _ =>
    obtain rfl := Option.some.inj (hroot.symm.trans hn)
    exact List.forall_mem_singleton.2 ⟨_, le_rfl, hn, le_rfl⟩
  | child hchild horigin _ ih =>
    obtain rfl := Option.some.inj (hchild.symm.trans hn)
    obtain ⟨parent, a, hlt, hparent, -⟩ := h.exists_parent hn horigin
    refine List.forall_mem_cons.2 ⟨⟨_, le_rfl, hn, le_rfl⟩, fun m hm => ?_⟩
    obtain ⟨j, hj, hm, hle⟩ := ih hparent m hm
    exact ⟨j, hj.trans hlt.le, hm, hle.trans (h.magnitude_parent_le hn horigin hparent)⟩

/-- If later nodes for a residual goal are cheaper, then no line of descent repeats one. -/
theorem nodup_lineage (h : Arena p estimate nodes)
    (hdecreasing : ∀ (i j : ℕ) (m n : Node), i < j → nodes[i]? = some m → nodes[j]? = some n →
      m.residual = n.residual → n.cost.magnitude < m.cost.magnitude)
    (hline : Node.Lineage nodes i line) : (line.map Node.residual).Nodup := by
  induction hline with
  | root _ _ => exact List.nodup_singleton _
  | @child i n o line hn horigin hline ih =>
    refine List.nodup_cons.2 ⟨fun hmem => ?_, ih⟩
    obtain ⟨m, hm, hsame⟩ := List.mem_map.1 hmem
    obtain ⟨parent, a, hlt, hparent, -⟩ := h.exists_parent hn horigin
    -- The ancestor comes earlier, so it is more expensive, but it costs no more than the parent.
    obtain ⟨j, hj, hm, hle⟩ := h.le_of_mem_lineage hline hparent m hm
    have hcheaper := hdecreasing j i m n (hj.trans_lt hlt) hm hn hsame
    have hparent_le := h.magnitude_parent_le hn horigin hparent
    omega

/-- Following origins from any node ends at the root. -/
theorem exists_lineage (h : Arena p estimate nodes) (hn : nodes[i]? = some n) :
    ∃ line, Node.Lineage nodes i line ∧ line.getLast? = nodes[0]? ∧
      Node.path nodes i = line.filterMap fun m => m.origin.map Origin.action := by
  induction i using Nat.strong_induction_on generalizing n with
  | h i ih =>
    cases h.derived i n hn with
    | root horigin _ _ =>
      exact ⟨[n], .root hn horigin, hn.symm, by simp [Node.path, Node.walk, horigin]⟩
    | @child _ _ _ o _ horigin hlt hparent _ _ _ =>
      obtain ⟨line, hline, hlast, hpath⟩ := ih o.parent hlt hparent
      have hne : line ≠ [] := by
        rintro rfl
        cases hline
      refine ⟨n :: line, .child hn horigin hline, ?_, ?_⟩
      · rw [List.getLast?_cons_of_ne_nil hne, hlast]
      · rw [h.path_eq_cons hn horigin hlt, hpath, List.filterMap_cons, horigin, Option.map_some]

/-- The nodes are a tree if there is one at all and later nodes for a residual goal are cheaper. -/
theorem isTree (h : Arena p estimate nodes) (hpos : 0 < nodes.size)
    (hdecreasing : ∀ (i j : ℕ) (m n : Node), i < j → nodes[i]? = some m → nodes[j]? = some n →
      m.residual = n.residual → n.cost.magnitude < m.cost.magnitude) : Node.IsTree p nodes where
  root := by
    have hn : nodes[0]? = some nodes[0] := Array.getElem?_eq_getElem hpos
    cases h.derived 0 _ hn with
    | root horigin hresidual hcost => exact ⟨_, hn, horigin, hresidual, hcost⟩
    | child _ hlt => omega
  child i n hi hn := by
    cases horigin : n.origin with
    | none =>
      cases h.derived i n hn with
      | root => omega
      | child hchild => simp [hchild] at horigin
    | some o =>
      obtain ⟨parent, a, hchild⟩ := h.exists_parent hn horigin
      exact ⟨o, parent, a, rfl, hchild⟩
  lineage i n hn := by
    obtain ⟨line, hline, hlast, hpath⟩ := h.exists_lineage hn
    exact ⟨line, hline, hlast, h.nodup_lineage hdecreasing hline, hpath⟩

end Arena

namespace Search

variable {p : Problem} {estimate : State → Binary64} {s : Search}

/-- Every search that a run goes through has a node. -/
theorem Reachable.size_nodes_pos (hs : Reachable p estimate s) : 0 < s.nodes.size := by
  obtain ⟨g, hg, -⟩ := hs.exists_best_goal
  obtain ⟨i, n, hn, -⟩ := hs.ledger.reached p.goal g hg
  have hi := (Array.getElem?_eq_some_iff.1 hn).1
  omega

/-- At every moment of a run the nodes are a tree. -/
theorem Moment.isTree (h : Moment p estimate s) : Node.IsTree p s.nodes := by
  rcases h.nodes_eq_or_grows with ⟨s₀, hs, hnodes⟩ | ⟨s₀, e, n, rest, hs, htakes, hgrows⟩
  · exact hnodes ▸ hs.arena.isTree hs.size_nodes_pos hs.ledger.decreasing
  · have hclosed := htakes.arena_close hs.arena
    obtain ⟨harena, hn⟩ := hgrows.arena hclosed htakes.node_close
    have hledger := hgrows.ledger (hs.ledger.close htakes) hclosed htakes.node_close
    have hnumber := (Array.getElem?_eq_some_iff.1 hn).1
    exact harena.isTree (by omega) hledger.decreasing

end Search

namespace Report

/-- A search reports that it has found a plan if the goal does not hold already and the event that
ends it is that a plan is found. -/
theorem found_mem_events_iff {r : Report} {length expansions nodes : ℕ} {cost : Binary64} :
    Event.found length cost expansions nodes ∈ r.events ↔
      r.problem.current.satisfies r.problem.goal = false ∧
        r.lastEvent = .found length cost expansions nodes := by
  unfold events
  cases r.problem.current.satisfies r.problem.goal with
  | true => simp
  | false => simp [eq_comm]

end Report

/-- If a search finds a plan, then the event that ends it tells the length of the plan, and what its
actions cost together. -/
theorem Strategy.exists_plan_of_found {strategy : Strategy} {p : Problem} {number : ℕ}
    (h : (strategy.search p).ending = .found number) :
    ∃ plan, (strategy.search p).plan = .ok plan ∧
      (strategy.search p).lastEvent = .found plan.length (summedCost plan)
        (strategy.search p).final.expanded.size (strategy.search p).final.nodes.size := by
  obtain ⟨s, hs, hstops, -⟩ := Report.exists_stopsAt p (strategy.estimate p) (strategy.budget p)
  rw [← strategy.search_eq] at hstops
  have hnodes := hstops.eq.1
  obtain ⟨n, hnext, -⟩ := h ▸ hstops
  obtain ⟨e, rfl, htakes⟩ := Search.takes_of_next? hnext
  have hn : (strategy.search p).final.nodes[e.node]? = some n := hnodes ▸ htakes.node
  have harena : Arena p (strategy.estimate p) (strategy.search p).final.nodes := hnodes ▸ hs.arena
  have hlength := congrArg List.length (harena.map_path hn)
  rw [List.length_map, List.length_map] at hlength
  have hcost : (strategy.search p).costOf e.node =
      summedCost (actionsFrom p (strategy.search p).final.nodes e.node) := by
    rw [Report.costOf, hn, ← harena.cost_eq hn]
    rfl
  refine ⟨actionsFrom p (strategy.search p).final.nodes e.node, ?_, ?_⟩
  · rw [Report.plan, Report.steps, h]
    rfl
  · rw [Report.lastEvent, h, ← hlength, ← hcost]

/-- The event that ends a search is that a plan is found exactly if there is a plan. -/
theorem Strategy.lastEvent_eq_found_iff {strategy : Strategy} {p : Problem}
    {length expansions nodes : ℕ} {cost : Binary64} :
    (strategy.search p).lastEvent = .found length cost expansions nodes ↔
      ∃ plan, (strategy.search p).plan = .ok plan ∧ length = plan.length ∧
        cost = summedCost plan ∧ expansions = (strategy.search p).final.expanded.size ∧
        nodes = (strategy.search p).final.nodes.size := by
  cases hending : (strategy.search p).ending with
  | found number =>
    obtain ⟨plan, hplan, hevent⟩ := Strategy.exists_plan_of_found hending
    rw [hplan, hevent]
    simp [eq_comm]
  | noPlan | overBudget => simp [Report.lastEvent, Report.plan, Report.steps, hending, Except.map]

/-- **Every line of descent leads to the root.** At every moment of every run, whatever the
estimates and the budget are, the nodes are a tree: the first one is the goal, every other one is
made from an earlier one by regression through one of the actions, and whoever follows origins comes
to the first node without passing a residual goal twice. A search that finds a plan for a goal that
does not hold already reports the cost of the plan, and this is bit for bit the sum of the costs of
its actions from the last one to the first. -/
theorem Strategy.search_isTree (strategy : Strategy) (p : Problem) :
    let estimate := strategy.estimate p
    let report := strategy.search p
    (∀ s, Search.Moment p estimate s → Node.IsTree p s.nodes) ∧
    Search.Moment p estimate report.final ∧
    ∀ length cost expansions nodes, Event.found length cost expansions nodes ∈ report.events ↔
      p.current.satisfies p.goal = false ∧ ∃ plan, report.plan = .ok plan ∧
        length = plan.length ∧ cost = summedCost plan ∧
        expansions = report.final.expanded.size ∧ nodes = report.final.nodes.size := by
  intro estimate report
  refine ⟨fun s hs => hs.isTree, Report.moment_final p estimate (strategy.budget p), ?_⟩
  intro length cost expansions nodes
  rw [Report.found_mem_events_iff, Strategy.lastEvent_eq_found_iff]
  rfl

end GoalPlanning
