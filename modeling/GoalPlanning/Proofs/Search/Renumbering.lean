import GoalPlanning.Proofs.Search.Lockstep

/-!
# Other numbers for actions

A search writes down by which action it has come to a node, but never reads it again. If the actions
of two problems are tried in one order and only have other numbers, then the two searches go the
same way, and the paths that they report differ in the numbers alone. An action whose turn never
changes anything may be missing on one side.
-/

namespace GoalPlanning

/-- A node with another number for the action that it comes from. -/
def Node.renumber (f : ℕ → ℕ) (n : Node) : Node :=
  { n with origin := n.origin.map fun o => { o with action := f o.action } }

/-- What a search knows, with other numbers for the actions. -/
def Search.renumber (f : ℕ → ℕ) (s : Search) : Search :=
  { s with
    nodes := s.nodes.map (Node.renumber f)
    expanded := s.expanded.map (Node.renumber f) }

/-- The residual goals of nodes do not depend on numbers. -/
theorem Node.map_residual_renumber (f : ℕ → ℕ) (nodes : Array Node) :
    (nodes.map (renumber f)).map residual = nodes.map residual := by
  rw [Array.map_map]
  rfl

/-- Every number on a path is the number of the action that some node comes from. -/
theorem Node.exists_of_mem_path {nodes : Array Node} {node k : ℕ} (hk : k ∈ path nodes node) :
    ∃ n ∈ nodes, ∃ o, n.origin = some o ∧ o.action = k := by
  suffices hwalk : ∀ steps node, k ∈ walk nodes steps node →
      ∃ n ∈ nodes, ∃ o, n.origin = some o ∧ o.action = k from hwalk node node hk
  intro steps
  induction steps with
  | zero => exact fun node hk => absurd hk List.not_mem_nil
  | succ steps ih =>
    intro node hk
    rw [walk] at hk
    cases horigin : nodes[node]?.bind origin with
    | none => simp [horigin] at hk
    | some o =>
      rw [horigin] at hk
      obtain ⟨n, hn, ho⟩ := Option.bind_eq_some_iff.1 horigin
      rcases List.mem_cons.1 hk with rfl | hk
      · exact ⟨n, Array.mem_of_getElem? hn, o, ho, rfl⟩
      · exact ih o.parent hk

namespace Search

variable {p q : Problem} {estimate : State → Binary64} (f : ℕ → ℕ)

/-- A node may be pushed before or after actions are renumbered. -/
theorem renumber_push (s : Search) (n : Node) :
    (s.push n).renumber f = (s.renumber f).push (n.renumber f) := by
  simp [renumber, push, Node.renumber, Node.total]

/-- The goal comes from no action. -/
theorem renumber_start (estimate : State → Binary64) (goal : State) :
    (start estimate goal).renumber f = start estimate goal := by
  rw [start, renumber_push]
  simp [renumber, Node.renumber]

/-- A node may be closed before or after actions are renumbered. -/
theorem renumber_close (s : Search) (n : Node) :
    (s.close n).renumber f = (s.renumber f).close (n.renumber f) := by
  simp [renumber, close, Node.renumber]

/-- A node may be reached before or after actions are renumbered. -/
theorem renumber_reachThrough (s : Search) (number : ℕ) (n : Node) (a : Action) (action : ℕ) :
    (s.reachThrough estimate number n a action).renumber f =
      (s.renumber f).reachThrough estimate number (n.renumber f) a (f action) := by
  have hknown (before : State) (cost : Binary64) :
      (s.renumber f).isKnown before cost = s.isKnown before cost := rfl
  unfold reachThrough
  rw [show (n.renumber f).residual = n.residual from rfl,
    show (n.renumber f).cost = n.cost from rfl]
  cases a.regress? n.residual with
  | none => rfl
  | some before =>
    dsimp only
    rw [reach, reach, hknown]
    split
    · rfl
    · exact renumber_push f s _

/-- The turns of actions only write the numbers down. -/
theorem renumber_foldl (s : Search) (number : ℕ) (n : Node) (numbered : List (Action × ℕ)) :
    (numbered.foldl (fun s a => s.reachThrough estimate number n a.1 a.2) s).renumber f =
      (numbered.map (Prod.map id f)).foldl
        (fun s a => s.reachThrough estimate number (n.renumber f) a.1 a.2) (s.renumber f) := by
  induction numbered generalizing s with
  | nil => rfl
  | cons a numbered ih =>
    rw [List.foldl_cons, ih, renumber_reachThrough]
    rfl

/-- The same node is taken, or none. -/
theorem next?_renumber (s : Search) :
    (s.renumber f).next? =
      s.next?.map (Prod.map (Prod.map id (Node.renumber f)) (renumber f)) := by
  have hopen (e : Entry) : (s.renumber f).openNode? e =
      (s.openNode? e).map (Prod.map id (Node.renumber f)) := by
    unfold openNode?
    rw [show (s.renumber f).nodes = s.nodes.map (Node.renumber f) from rfl, Array.getElem?_map]
    cases s.nodes[e.node]? with
    | none => rfl
    | some n =>
      simp only [Option.map_some, Option.bind_some]
      rw [show (s.renumber f).closed.contains (n.renumber f).residual =
        s.closed.contains n.residual from rfl]
      split <;> rfl
  unfold next?
  rw [show (s.renumber f).frontier = s.frontier from rfl, funext hopen, Frontier.next?_map]
  cases s.frontier.next? s.openNode? <;> rfl

variable {f}

/-- If the expansions of two problems only differ in numbers, then so do their runs. -/
theorem run_renumber (hcurrent : q.current = p.current)
    (hexpand : ∀ s number n rest, Reachable p estimate s → s.next? = some ((number, n), rest) →
      (rest.renumber f).expand estimate q.actions number (n.renumber f) =
        (rest.expand estimate p.actions number n).renumber f)
    {s : Search} (hs : Reachable p estimate s) (budget : ℕ) :
    run q estimate budget (s.renumber f) =
      ((run p estimate budget s).1, (run p estimate budget s).2.renumber f) := by
  have hnext {s rest : Search} {number : ℕ} {n : Node}
      (hnext : s.next? = some ((number, n), rest)) :
      (s.renumber f).next? = some ((number, n.renumber f), rest.renumber f) := by
    rw [next?_renumber, hnext]
    rfl
  fun_induction run p estimate budget s with
  | case1 budget s hnone =>
    rw [run_of_next?_eq_none (by rw [next?_renumber, hnone, Option.map_none])]
  | case2 budget s number n rest hsome hcovered =>
    rw [run_of_satisfies (hnext hsome) (by rwa [hcurrent])]
  | case3 s number n rest hsome hopen =>
    rw [run_zero_of_next? (hnext hsome) (by rwa [hcurrent])]
  | case4 s number n rest hsome hopen budget ih =>
    rw [run_succ_of_next? (hnext hsome) (by rwa [hcurrent]), hexpand s number n rest hs hsome]
    exact ih (hs.expand hsome (Bool.eq_false_iff.2 hopen))

end Search

/-! ## What the searches report -/

/-- Two searches go the same way, except that actions have other numbers in the second one. -/
structure Report.SameWay (f : ℕ → ℕ) (r r' : Report) : Prop where
  /-- They end alike. -/
  ending_eq : r'.ending = r.ending
  /-- If they end over budget, they had the same one. -/
  budget_eq : r.ending = .overBudget → r'.budget = r.budget
  /-- The paths of nodes list the other numbers. -/
  path_eq : ∀ number, Node.path r'.final.nodes number = (Node.path r.final.nodes number).map f
  /-- They expand the same residual goals in the same order. -/
  expanded_eq : r'.final.expanded.map Node.residual = r.final.expanded.map Node.residual
  /-- They make as many nodes. -/
  size_nodes : r'.final.nodes.size = r.final.nodes.size

/-- Searches that go the same way make the same plan if the other numbers stand for the same
actions. -/
theorem Report.SameWay.plan_eq {f : ℕ → ℕ} {r r' : Report} (h : SameWay f r r')
    (hactions : ∀ number, ∀ k ∈ Node.path r.final.nodes number,
      r'.problem.actions[f k]? = r.problem.actions[k]?) : r'.plan = r.plan := by
  unfold plan steps
  rw [h.ending_eq]
  cases hending : r.ending with
  | found number =>
    have hpick := List.filterMap_congr (hactions number)
    simp only [h.path_eq, Except.map, List.filterMap_map]
    exact congrArg Except.ok hpick
  | noPlan => rfl
  | overBudget => rw [h.budget_eq hending]; rfl

end GoalPlanning
