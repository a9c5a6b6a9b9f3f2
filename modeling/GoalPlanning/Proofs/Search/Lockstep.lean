import GoalPlanning.Proofs.Search.Arena
import Mathlib.Data.Set.Function

/-!
# Searches in lockstep

A search only asks its problem which residual goals regression gives, whether the current state
satisfies them, and what actions cost. If one problem can be read as another one without changing
the answers, then the two searches go the same way, number by number, whatever the residual goals
are read as. From the estimate a search takes nothing but the totals of its nodes, so the estimates
may differ too, as zeros of either sign do.
-/

namespace GoalPlanning

/-- Two estimates make no difference if they add up to the same totals with all costs. -/
def Problem.SameTotals (p : Problem) (estimate estimate' : State → Binary64) : Prop :=
  ∀ residual, p.Mentions residual → ∀ g : Binary64, g.IsUnsigned →
    g + estimate residual = g + estimate' residual

/-- A reading of one problem as another one. Searching cannot tell the two apart: what regression
gives, whether the current state satisfies it, and what actions cost is read as the same. -/
structure Translation (p q : Problem) where
  /-- What a residual goal is read as. -/
  state : State → State
  /-- What an action is read as. -/
  action : Action → Action
  /-- The goal is read as the goal. -/
  goal_eq : q.goal = state p.goal
  /-- The actions are read as the actions, in their order. -/
  actions_eq : q.actions = p.actions.map action
  /-- Costs stay the same. -/
  cost_action : ∀ a, (action a).cost = a.cost
  /-- Different residual goals are read as different ones. -/
  state_injOn : Set.InjOn state {residual | p.Mentions residual}
  /-- Regression is read as regression. -/
  regress?_action : ∀ a ∈ p.actions, ∀ residual, p.Mentions residual →
    (action a).regress? (state residual) = (a.regress? residual).map state
  /-- The current states satisfy the same residual goals. -/
  satisfies_state : ∀ residual, p.Mentions residual →
    q.current.satisfies (state residual) = p.current.satisfies residual

/-- Taking the first entry that is worth something commutes with a change of what entries are
worth. -/
theorem Frontier.next?_map {α β : Type} (f : α → β) (worth : Entry → Option α)
    (frontier : Frontier) :
    frontier.next? (fun e => (worth e).map f) = (frontier.next? worth).map (Prod.map f id) := by
  unfold next?
  generalize frontier.size = count
  induction count generalizing frontier with
  | zero => rfl
  | succ count ih =>
    unfold takeFirst?
    cases frontier.first? with
    | none => rfl
    | some e =>
      cases hworth : worth e with
      | none => simpa [hworth] using ih (frontier.erase e)
      | some a => simp [hworth]

/-- If nodes are changed and come from the same parents through actions with other numbers, then
their paths list these numbers. -/
theorem Node.path_map {g : Node → Node} {f : ℕ → ℕ}
    (horigin : ∀ n, (g n).origin = n.origin.map fun o => { o with action := f o.action })
    (nodes : Array Node) (node : ℕ) : path (nodes.map g) node = (path nodes node).map f := by
  have hwalk (steps : ℕ) : walk (nodes.map g) steps node = (walk nodes steps node).map f := by
    induction steps generalizing node with
    | zero => rfl
    | succ steps ih =>
      rw [walk, walk, Array.getElem?_map]
      cases nodes[node]? with
      | none => rfl
      | some n =>
        rw [Option.map_some, Option.bind_some, Option.bind_some, horigin]
        cases n.origin with
        | none => rfl
        | some o => exact congrArg (List.cons (f o.action)) (ih o.parent)
  exact hwalk node

namespace Translation

variable {p q : Problem} (T : Translation p q) (estimate' : State → Binary64)

/-- What a node is read as. -/
def node (n : Node) : Node :=
  { n with residual := T.state n.residual, estimate := estimate' (T.state n.residual) }

/-- The search `t` is what the search `s` is read as. -/
structure Mirrors (s t : Search) : Prop where
  /-- The nodes are read one by one. -/
  nodes_eq : t.nodes = s.nodes.map (T.node estimate')
  /-- The same entries wait. -/
  frontier_eq : t.frontier = s.frontier
  /-- The same residual goals are closed. -/
  mem_closed : ∀ residual, p.Mentions residual →
    (T.state residual ∈ t.closed ↔ residual ∈ s.closed)
  /-- The same costs have been reached. -/
  best_eq : ∀ residual, p.Mentions residual → t.best[T.state residual]? = s.best[residual]?
  /-- The nodes that have been expanded are read one by one. -/
  expanded_eq : t.expanded = s.expanded.map (T.node estimate')

variable {T} {estimate estimate' : State → Binary64} {s t : Search}

/-- Both searches have made as many nodes. -/
theorem Mirrors.size_nodes (h : T.Mirrors estimate' s t) : t.nodes.size = s.nodes.size := by
  rw [h.nodes_eq, Array.size_map]

/-- Both searches have expanded as many nodes. -/
theorem Mirrors.size_expanded (h : T.Mirrors estimate' s t) :
    t.expanded.size = s.expanded.size := by
  rw [h.expanded_eq, Array.size_map]

/-- The expanded residual goals are read one by one. -/
theorem Mirrors.map_residual_expanded (h : T.Mirrors estimate' s t) :
    t.expanded.map Node.residual = (s.expanded.map Node.residual).map T.state := by
  rw [h.expanded_eq, Array.map_map, Array.map_map]
  rfl

/-- Both searches push a node and its translation. -/
theorem Mirrors.push (h : T.Mirrors estimate' s t) {m : Node} (hm : p.Mentions m.residual)
    (htotal : (T.node estimate' m).total = m.total) :
    T.Mirrors estimate' (s.push m) (t.push (T.node estimate' m)) := by
  -- The tables have residual goals as keys: what is pushed under one must not show under another.
  have hsame {residual : State} (hresidual : p.Mentions residual) :
      (T.node estimate' m).residual = T.state residual ↔ m.residual = residual :=
    T.state_injOn.eq_iff hm hresidual
  constructor
  · change t.nodes.push _ = (s.nodes.push m).map _
    rw [h.nodes_eq, Array.map_push]
  · change t.frontier.insert _ = s.frontier.insert _
    rw [h.frontier_eq, htotal, h.size_nodes]
    rfl
  · intro residual hresidual
    rw [Search.mem_closed_push, Search.mem_closed_push, ne_eq, hsame hresidual,
      h.mem_closed residual hresidual]
  · intro residual hresidual
    simp only [Search.getElem?_best_push, hsame hresidual, h.best_eq residual hresidual]
    rfl
  · exact h.expanded_eq

/-- Both searches close a node and its translation. -/
theorem Mirrors.close (h : T.Mirrors estimate' s t) {n : Node} (hn : p.Mentions n.residual) :
    T.Mirrors estimate' (s.close n) (t.close (T.node estimate' n)) := by
  constructor
  · exact h.nodes_eq
  · exact h.frontier_eq
  · intro residual hresidual
    rw [Search.mem_closed_close, Search.mem_closed_close, h.mem_closed residual hresidual]
    exact or_congr_left (T.state_injOn.eq_iff hn hresidual)
  · exact h.best_eq
  · change t.expanded.push _ = (s.expanded.push n).map _
    rw [h.expanded_eq, Array.map_push]

/-- A residual goal is known in one search if its translation is known in the other one. -/
theorem Mirrors.isKnown (h : T.Mirrors estimate' s t) {residual : State}
    (hresidual : p.Mentions residual) (cost : Binary64) :
    t.isKnown (T.state residual) cost = s.isKnown residual cost := by
  rw [Search.isKnown, Search.isKnown, h.best_eq residual hresidual]

/-- The same nodes are open. -/
theorem Mirrors.openNode? (h : T.Mirrors estimate' s t) (hs : Search.Reachable p estimate s)
    (e : Entry) : t.openNode? e = (s.openNode? e).map (Prod.map id (T.node estimate')) := by
  unfold Search.openNode?
  rw [h.nodes_eq, Array.getElem?_map]
  cases hn : s.nodes[e.node]? with
  | none => rfl
  | some n =>
    have hclosed : t.closed.contains (T.node estimate' n).residual = s.closed.contains n.residual :=
      Bool.eq_iff_iff.2 (h.mem_closed n.residual (hs.arena.mentions hn))
    simp only [Option.map_some, Option.bind_some, hclosed]
    split <;> rfl

/-- The same node is taken, or none. -/
theorem Mirrors.frontier_next? (h : T.Mirrors estimate' s t) (hs : Search.Reachable p estimate s) :
    t.frontier.next? t.openNode? =
      (s.frontier.next? s.openNode?).map (Prod.map (Prod.map id (T.node estimate')) id) := by
  rw [h.frontier_eq, funext (h.openNode? hs), Frontier.next?_map]

/-- If one search can take no node, then the other one cannot either. -/
theorem Mirrors.next?_eq_none (h : T.Mirrors estimate' s t) (hs : Search.Reachable p estimate s)
    (hnone : s.next? = none) : t.next? = none := by
  unfold Search.next? at hnone ⊢
  rw [h.frontier_next? hs, Option.map_eq_none_iff.1 hnone]
  rfl

/-- The node that is taken makes a plan in both searches or in none. -/
theorem Mirrors.exists_next?_eq_some (h : T.Mirrors estimate' s t)
    (hs : Search.Reachable p estimate s) {number : ℕ} {n : Node} {rest : Search}
    (hsome : s.next? = some ((number, n), rest)) :
    ∃ rest', t.next? = some ((number, T.node estimate' n), rest') ∧
      T.Mirrors estimate' rest rest' ∧
      q.current.satisfies (T.node estimate' n).residual = p.current.satisfies n.residual := by
  obtain ⟨e, -, htakes⟩ := Search.takes_of_next? hsome
  have hsatisfies := T.satisfies_state n.residual (hs.arena.mentions htakes.node)
  unfold Search.next? at hsome ⊢
  obtain ⟨⟨found, frontier⟩, hfound, hrest⟩ := Option.map_eq_some_iff.1 hsome
  simp only [Prod.mk.injEq] at hrest
  obtain ⟨rfl, rfl⟩ := hrest
  rw [h.frontier_next? hs, hfound]
  have hmirrors : T.Mirrors estimate' { s with frontier } { t with frontier } :=
    ⟨h.nodes_eq, rfl, h.mem_closed, h.best_eq, h.expanded_eq⟩
  exact ⟨{ t with frontier }, rfl, hmirrors, hsatisfies⟩

variable (hsame : p.SameTotals estimate fun residual => estimate' (T.state residual))
include hsame

/-- The same node is pushed, if any. -/
theorem Mirrors.reachThrough (h : T.Mirrors estimate' s t) {n : Node}
    (hn : p.Mentions n.residual) (hcost : n.cost.IsUnsigned) {a : Action} (ha : a ∈ p.actions)
    (number action : ℕ) :
    T.Mirrors estimate' (s.reachThrough estimate number n a action)
      (t.reachThrough estimate' number (T.node estimate' n) (T.action a) action) := by
  unfold Search.reachThrough
  rw [show (T.node estimate' n).residual = T.state n.residual from rfl,
    T.regress?_action a ha n.residual hn, T.cost_action]
  cases hregress : a.regress? n.residual with
  | none => exact h
  | some before =>
    have hbefore : p.Mentions before := hn.regress? ha hregress
    have htotal := hsame before hbefore (n.cost + a.cost) (hcost.add a.cost_isNonneg)
    simp only [Option.map_some, Search.reach]
    rw [show (T.node estimate' n).cost = n.cost from rfl, h.isKnown hbefore]
    split
    · exact h
    · exact h.push (m := ⟨before, n.cost + a.cost, estimate before, some ⟨number, action⟩⟩)
        hbefore htotal.symm

/-- The same nodes are pushed. -/
theorem Mirrors.expand (h : T.Mirrors estimate' s t) {n : Node} (hn : p.Mentions n.residual)
    (hcost : n.cost.IsUnsigned) (number : ℕ) :
    T.Mirrors estimate' (s.expand estimate p.actions number n)
      (t.expand estimate' q.actions number (T.node estimate' n)) := by
  have hclose := h.close hn
  have hnumbered : ∀ a ∈ p.actions.zipIdx, a.1 ∈ p.actions := fun a ha =>
    List.mem_of_getElem? (List.mem_zipIdx_iff_getElem?.1 ha)
  unfold Search.expand
  rw [T.actions_eq, List.zipIdx_map, List.foldl_map]
  -- Both sides try the actions in the same order; the induction is on those that are left.
  generalize s.close n = s at hclose
  generalize t.close _ = t at hclose
  generalize p.actions.zipIdx = numbered at hnumbered
  induction numbered generalizing s t with
  | nil => exact hclose
  | cons a numbered ih =>
    obtain ⟨ha, hnumbered⟩ := List.forall_mem_cons.1 hnumbered
    exact ih _ _ (hclose.reachThrough hsame hn hcost ha number a.2) hnumbered

/-- Two runs stay in lockstep: they take the same nodes, and stop for the same reason. -/
theorem Mirrors.run (h : T.Mirrors estimate' s t) (hs : Search.Reachable p estimate s)
    (budget : ℕ) :
    (Search.run q estimate' budget t).1 = (Search.run p estimate budget s).1 ∧
      T.Mirrors estimate' (Search.run p estimate budget s).2
        (Search.run q estimate' budget t).2 := by
  fun_induction Search.run p estimate budget s generalizing t with
  | case1 budget s hnone =>
    rw [Search.run_of_next?_eq_none (h.next?_eq_none hs hnone)]
    exact ⟨rfl, h⟩
  | case2 budget s number n rest hnext hcovered =>
    obtain ⟨rest', hnext', hrest, hsatisfies⟩ := h.exists_next?_eq_some hs hnext
    rw [Search.run_of_satisfies hnext' (hsatisfies.trans hcovered)]
    exact ⟨rfl, hrest⟩
  | case3 s number n rest hnext hopen =>
    obtain ⟨rest', hnext', hrest, hsatisfies⟩ := h.exists_next?_eq_some hs hnext
    rw [Search.run_zero_of_next? hnext' (by rwa [hsatisfies])]
    exact ⟨rfl, hrest⟩
  | case4 s number n rest hnext hopen budget ih =>
    obtain ⟨rest', hnext', hrest, hsatisfies⟩ := h.exists_next?_eq_some hs hnext
    obtain ⟨e, rfl, htakes⟩ := Search.takes_of_next? hnext
    have hexpand := hrest.expand hsame (hs.arena.mentions htakes.node)
      (hs.arena.cost_isUnsigned htakes.node) e.node
    rw [Search.run_succ_of_next? hnext' (by rwa [hsatisfies])]
    exact ih hexpand (hs.expand hnext (Bool.eq_false_iff.2 hopen))

omit hsame

/-- Searches with one budget end alike. -/
theorem mirrors_ofSearch (T : Translation p q) (estimate' : State → Binary64)
    (hsame : p.SameTotals estimate fun residual => estimate' (T.state residual)) (budget : ℕ) :
    (Report.ofSearch q estimate' budget).ending = (Report.ofSearch p estimate budget).ending ∧
      T.Mirrors estimate' (Report.ofSearch p estimate budget).final
        (Report.ofSearch q estimate' budget).final := by
  have htotal := hsame p.goal p.mentions_goal Binary64.zero Binary64.zero_isUnsigned
  have hempty : T.Mirrors estimate' {} {} := by constructor <;> simp
  have hstart : T.Mirrors estimate' (Search.start estimate p.goal)
      (Search.start estimate' q.goal) := by
    rw [T.goal_eq]
    exact hempty.push (m := ⟨p.goal, Binary64.zero, estimate p.goal, none⟩) p.mentions_goal
      htotal.symm
  exact hstart.run hsame .start budget

/-! ## What the searches report -/

/-- The numbers of the actions on a path stay the same. -/
theorem path_map_node (nodes : Array Node) (number : ℕ) :
    Node.path (nodes.map (T.node estimate')) number = Node.path nodes number := by
  have hpath := Node.path_map (g := T.node estimate') (f := id)
    (fun n => (congrFun Option.map_id n.origin).symm) nodes number
  rwa [List.map_id] at hpath

/-- Under a translation that keeps estimates and the budget, a strategy picks the same actions, by
their numbers, or fails in the same way. -/
theorem mirrors_search (T : Translation p q) (strategy : Strategy)
    (hbudget : strategy.budget q = strategy.budget p)
    (hestimate : ∀ residual, p.Mentions residual →
      strategy.estimate q (T.state residual) = strategy.estimate p residual) :
    (strategy.search q).steps = (strategy.search p).steps ∧
      T.Mirrors (strategy.estimate q) (strategy.search p).final (strategy.search q).final := by
  have hsame : p.SameTotals (strategy.estimate p) fun residual =>
      strategy.estimate q (T.state residual) :=
    fun residual hresidual g _ => congrArg (g + ·) (hestimate residual hresidual).symm
  obtain ⟨hending, hfinal⟩ := T.mirrors_ofSearch _ hsame (strategy.budget p)
  simp only [Strategy.search_eq, hbudget]
  refine ⟨?_, hfinal⟩
  unfold Report.steps
  rw [hending, hfinal.nodes_eq]
  cases (Report.ofSearch p (strategy.estimate p) (strategy.budget p)).ending with
  | found number => exact congrArg Except.ok (path_map_node _ number)
  | noPlan | overBudget => rfl

/-- The actions that are picked are read as each other. -/
theorem plan_eq (T : Translation p q) (r r' : Report) (hp : r.problem = p) (hq : r'.problem = q)
    (hsteps : r'.steps = r.steps) : r'.plan = r.plan.map (List.map T.action) := by
  subst hp hq
  have hpick (steps : List ℕ) : (steps.filterMap fun i => r'.problem.actions[i]?) =
      (steps.filterMap fun i => r.problem.actions[i]?).map T.action := by
    simp only [T.actions_eq, List.getElem?_map, List.map_filterMap]
  unfold Report.plan
  rw [hsteps]
  cases r.steps with
  | error f => rfl
  | ok steps => exact congrArg Except.ok (hpick steps)

/-- Another current state that satisfies the same residual goals. -/
def ofCurrent (p : Problem) (current : State)
    (h : ∀ residual, p.Mentions residual →
      current.satisfies residual = p.current.satisfies residual) :
    Translation p { p with current } where
  state := id
  action := id
  goal_eq := rfl
  actions_eq := (List.map_id _).symm
  cost_action _ := rfl
  state_injOn := Set.injOn_id _
  regress?_action _ _ _ _ := (congrFun Option.map_id _).symm
  satisfies_state := h

end Translation

end GoalPlanning
