import GoalPlanning.Proofs.Soundness

/-!
# What residual goals say

A node remembers a residual goal, and the path to the root that lists the actions from it on. That
the two belong together is no matter of the current state: the residual goal holds in exactly those
states in which these actions can be performed one after another and reach the goal. This is true of
every node at every moment, whatever the search is led by and whenever it ends. Conditions that hold
already are kept in residual goals for this reason.
-/

namespace GoalPlanning

namespace Search

/-- What a search knows at the moments of a run: before a node is taken, after that, and while the
node is expanded and some of the actions have had their turn. -/
inductive Moment (p : Problem) (estimate : State → Binary64) : Search → Prop
  /-- Before a node is taken. -/
  | before {s : Search} : Reachable p estimate s → Moment p estimate s
  /-- After a node has been taken. -/
  | taken {s rest : Search} {number : ℕ} {n : Node} : Reachable p estimate s →
      s.next? = some ((number, n), rest) → Moment p estimate rest
  /-- While the node is expanded, after the turns of the actions `earlier`. -/
  | expanding {s rest : Search} {number : ℕ} {n : Node} {earlier : List (Action × ℕ)} :
      Reachable p estimate s → s.next? = some ((number, n), rest) →
      p.current.satisfies n.residual = false → earlier <+: p.actions.zipIdx →
      Moment p estimate
        (earlier.foldl (fun s a => s.reachThrough estimate number n a.1 a.2) (rest.close n))

variable {p : Problem} {estimate : State → Binary64} {s : Search}

/-- At every moment the nodes are those of a search before a node is taken, or have grown from them
in an expansion. -/
theorem Moment.nodes_eq_or_grows (h : Moment p estimate s) :
    (∃ s₀, Reachable p estimate s₀ ∧ s.nodes = s₀.nodes) ∨
      ∃ s₀ e n rest, Reachable p estimate s₀ ∧ s₀.Takes e n rest ∧
        Grows p estimate e.node n (rest.close n) s := by
  cases h with
  | before hs => exact Or.inl ⟨s, hs, rfl⟩
  | taken hs hnext =>
    obtain ⟨e, -, htakes⟩ := takes_of_next? hnext
    exact Or.inl ⟨_, hs, htakes.nodes_eq⟩
  | expanding hs hnext _ hearlier =>
    obtain ⟨e, rfl, htakes⟩ := takes_of_next? hnext
    exact Or.inr ⟨_, e, _, _, hs, htakes, grows_turns _ hearlier⟩

/-- At every moment the nodes form a tree. -/
theorem Moment.arena (h : Moment p estimate s) : Arena p estimate s.nodes := by
  rcases h.nodes_eq_or_grows with ⟨s₀, hs, hnodes⟩ | ⟨s₀, e, n, rest, hs, htakes, hgrows⟩
  · exact hnodes ▸ hs.arena
  · exact (hgrows.arena (htakes.arena_close hs.arena) htakes.node_close).1

end Search

/-- The end of a run, under whatever budget, is one of its moments. -/
theorem Report.moment_final (p : Problem) (estimate : State → Binary64) (budget : ℕ) :
    Search.Moment p estimate (ofSearch p estimate budget).final := by
  obtain ⟨s, hs, hstops, -⟩ := exists_stopsAt p estimate budget
  cases hending : (ofSearch p estimate budget).ending with
  | found number =>
    obtain ⟨n, hnext, -⟩ := hending ▸ hstops
    exact .taken hs hnext
  | noPlan =>
    obtain ⟨-, hfinal⟩ := hending ▸ hstops
    exact hfinal ▸ .before hs
  | overBudget =>
    obtain ⟨number, n, hnext, -⟩ := hending ▸ hstops
    exact .taken hs hnext

/-- **Residual goals are exact.** At every moment of a run, whatever the estimates are, the path of
a node lists actions of the problem, and a state, whether it is the current one or any other,
satisfies the residual goal of the node exactly if these actions can be performed from the state on
and reach the goal. -/
theorem Search.Moment.satisfies_residual_iff {p : Problem} {estimate : State → Binary64}
    {s : Search} (h : Moment p estimate s) {i : ℕ} {n : Node} (hn : s.nodes[i]? = some n) :
    (Node.path s.nodes i).map (fun k => p.actions[k]?) = (actionsFrom p s.nodes i).map some ∧
      ∀ start : State, start.satisfies n.residual = true ↔
        ∃ t, simulate (actionsFrom p s.nodes i) start p.goal = .ok t :=
  ⟨h.arena.map_path hn, h.arena.satisfies_iff hn⟩

namespace Chest

/-- The problem of opening the chest without losing the key. -/
def problem : Problem := ⟨planner.actions, current, goal⟩

/-- The node that is reached when the chest remains to be opened and a new key to be forged. -/
def keyNode : Node where
  residual := current
  cost := Binary64.zero + Binary64.one + Binary64.one
  estimate := Binary64.invalid
  origin := some ⟨1, 1⟩

/-- To have the key is exactly what it takes to open the chest and to forge a new key. It is enough
in the current state, and without it the chest cannot be opened. -/
theorem keyNode_residual_iff :
    let nodes := (planner.strategy.search problem).final.nodes
    nodes[2]? = some keyNode ∧
      (current.satisfies keyNode.residual = true ∧
        ∃ t, simulate [openChest, forgeKey] current goal = .ok t) ∧
      (State.empty.satisfies keyNode.residual = false ∧
        ¬∃ t, simulate [openChest, forgeKey] State.empty goal = .ok t) := by
  intro nodes
  have hnode : nodes[2]? = some keyNode := by decide +kernel
  have hactions : actionsFrom problem nodes 2 = [openChest, forgeKey] := by decide +kernel
  have hmoment : Search.Moment problem (planner.strategy.estimate problem)
      (planner.strategy.search problem).final := by
    rw [Strategy.search_eq]
    exact Report.moment_final problem _ _
  obtain ⟨-, hiff⟩ := hmoment.satisfies_residual_iff hnode
  rw [show actionsFrom problem (planner.strategy.search problem).final.nodes 2 = _ from hactions]
    at hiff
  have hcurrent : current.satisfies keyNode.residual = true := by decide
  have hempty : State.empty.satisfies keyNode.residual = false := by decide
  exact ⟨hnode, ⟨hcurrent, (hiff current).1 hcurrent⟩, hempty,
    fun hsimulate => by simp [(hiff State.empty).2 hsimulate] at hempty⟩

end Chest

end GoalPlanning
