import GoalPlanning.Proofs.Endings
import GoalPlanning.Proofs.Optimality
import GoalPlanning.Proofs.Search.Reopening

/-!
# Balanced books

The nodes, the frontier, the closed residual goals and the best costs are changed at different
moments. An entry stays in the frontier when its residual goal is reached at a lower cost, and a
residual goal that has been closed may become open again. Between two steps of a run all four agree
nevertheless, unless some estimate is negative infinity: what has been reached waits at its best
cost or has been used up at it, and the node that is taken is never one that a cheaper one has
replaced.
Estimates need not have anything to do with costs. All that counts is that the cheaper one of two
nodes for one residual goal has no larger total, and that costs decide between equal totals.
-/

namespace GoalPlanning

namespace Search

variable {p : Problem} {estimate : State → Binary64} {s : Search} {residual : State}

/-- The nodes, the frontier, the closed residual goals and the best costs of a search agree. -/
structure Balanced (p : Problem) (s : Search) : Prop where
  /-- The residual goals that have a best cost are those of nodes. -/
  best_iff : ∀ residual, (∃ g, s.best[residual]? = some g) ↔ ∃ n ∈ s.nodes, n.residual = residual
  /-- Of the nodes for one residual goal each is cheaper than those before it. -/
  decreasing : ∀ residual, (s.costsOf residual).Pairwise fun g g' =>
    g'.numericLe g = true ∧ g.numericLe g' = false
  /-- The best cost is that of the last one of them. -/
  best_last : ∀ residual, s.best[residual]? = (s.costsOf residual).getLast?
  /-- A residual goal that has been reached is closed, or an entry for it waits at its best cost. -/
  closed_or_waits : ∀ residual g, s.best[residual]? = some g →
    residual ∈ s.closed ∨ s.Waits residual g
  /-- Whatever an action leads from to a closed residual goal has been reached, at no higher cost
  than by way of the best cost. -/
  settled : ∀ residual ∈ s.closed, ∀ a ∈ p.actions, ∀ before, a.regress? residual = some before →
    ∃ g g', s.best[residual]? = some g ∧ s.best[before]? = some g' ∧
      g'.numericLe (g + a.cost) = true
  /-- The node that is taken next has the best cost of its residual goal. -/
  fresh : ∀ number n rest, s.next? = some ((number, n), rest) → s.best[n.residual]? = some n.cost

/-- The residual goals that have a best cost are those of nodes. -/
theorem Reachable.exists_best_iff (hs : Reachable p estimate s) :
    (∃ g, s.best[residual]? = some g) ↔ ∃ n ∈ s.nodes, n.residual = residual := by
  constructor
  · rintro ⟨g, hg⟩
    obtain ⟨i, n, hn, hresidual, -⟩ := hs.ledger.reached residual g hg
    exact ⟨n, Array.mem_of_getElem? hn, hresidual⟩
  · rintro ⟨n, hn, rfl⟩
    obtain ⟨i, hi⟩ := Array.mem_iff_getElem?.1 hn
    obtain ⟨g, hg, -⟩ := hs.ledger.best_le i n hi
    exact ⟨g, hg⟩

/-- Closed residual goals have been reached. -/
theorem Reachable.exists_best_of_mem_closed (hs : Reachable p estimate s)
    (hclosed : residual ∈ s.closed) : ∃ g, s.best[residual]? = some g := by
  refine hs.invariant (P := fun s => residual ∈ s.closed → ∃ g, s.best[residual]? = some g)
    ?_ ?_ hclosed
  · intro hmem
    exact absurd (mem_closed_push.1 hmem).2 (by simp)
  · intro s e n rest hs htakes _ ih hmem
    have hbefore : ∃ g, s.best[residual]? = some g := by
      rcases mem_closed_close.1 ((grows_expand rest).mem_closed_of_mem hmem) with rfl | hmem
      · exact hs.exists_best_iff.2 ⟨n, Array.mem_of_getElem? htakes.node, rfl⟩
      · exact ih (htakes.closed_eq ▸ hmem)
    obtain ⟨g, hg⟩ := hbefore
    obtain ⟨g', hg', -⟩ := hs.exists_best_expand_le htakes hg
    exact ⟨g', hg'⟩

/-- If the estimate is steady, then a closed residual goal has been used up at its best cost. -/
theorem Reachable.settled_of_mem_closed (hs : Reachable p estimate s)
    (hsteady : p.Steady estimate) {g : Binary64} (hg : s.best[residual]? = some g)
    (hclosed : residual ∈ s.closed) : s.Settled p.actions residual g := by
  obtain ⟨cost, hcost, haccounted⟩ := hs.explored residual g hg
  obtain rfl := hcost hsteady
  cases haccounted with
  | waiting hopen => exact absurd hclosed hopen
  | settled _ _ hsettled => exact hsettled

/-- If the estimate is steady, then a residual goal that is not closed waits at its best cost. -/
theorem Reachable.mem_closed_or_waits (hs : Reachable p estimate s) (hsteady : p.Steady estimate)
    {g : Binary64} (hg : s.best[residual]? = some g) :
    residual ∈ s.closed ∨ s.Waits residual g := by
  obtain ⟨cost, hcost, haccounted⟩ := hs.explored residual g hg
  obtain rfl := hcost hsteady
  cases haccounted with
  | waiting _ hwaits => exact Or.inr hwaits
  | settled hclosed => exact Or.inl hclosed

/-- **The books are balanced.** If no estimate is negative infinity, then in every search that a
run goes through, before a node is taken, the nodes, the frontier, the closed residual goals and the
best costs agree. A node that a cheaper one has replaced is never taken. -/
theorem Reachable.balanced (hs : Reachable p estimate s)
    (hestimate : ∀ residual, p.Mentions residual → estimate residual ≠ Binary64.infinity true) :
    s.Balanced p := by
  have hsteady := Problem.steady_of_ne hestimate
  refine ⟨fun residual => hs.exists_best_iff, hs.costsOf_pairwise, hs.bestIsLast,
    fun residual g => hs.mem_closed_or_waits hsteady, ?_, ?_⟩
  · intro residual hclosed a ha before hregress
    obtain ⟨g, hg⟩ := hs.exists_best_of_mem_closed hclosed
    obtain ⟨g', hg', hle⟩ := hs.settled_of_mem_closed hsteady hg hclosed a ha before hregress
    have hunsigned := (hs.ledger.unsigned hs.arena).2
    have hsum := (hunsigned residual g hg).add a.cost_isNonneg
    exact ⟨g, g', hg, hg', ((hunsigned before g' hg').numericLe_iff hsum).2 hle⟩
  · intro number n rest hnext
    obtain ⟨e, -, htakes⟩ := takes_of_next? hnext
    exact htakes.cost_eq hs.ledger hs.arena hsteady hs.explored

end Search

/-- A search that finds a plan takes the node of the plan at the end of its run. -/
theorem Strategy.exists_next?_of_found {strategy : Strategy} {p : Problem} {number : ℕ}
    (h : (strategy.search p).ending = .found number) :
    ∃ s n, Search.Reachable p (strategy.estimate p) s ∧
      s.next? = some ((number, n), (strategy.search p).final) := by
  obtain ⟨s, hs, hstops, -⟩ :=
    Report.exists_stopsAt p (strategy.estimate p) (strategy.budget p)
  rw [← strategy.search_eq, h] at hstops
  obtain ⟨n, hnext, -⟩ := hstops
  exact ⟨s, n, hs, hnext⟩

/-! Whoever is wrong about the ways home looks into the way to the stop for its first cost, and then
again for the lower one that it has by way of the bridge. -/

namespace WaysHome

/-- Is wrong everywhere: below zero, too large at the bridge, and infinite where the way begins. -/
def mistaken : Strategy where
  heuristic :=
    Heuristic.table [(place "bridge", Binary64.ofNat 5), (State.empty, Binary64.infinity false)]
      ⟨true, Binary64.one.magnitude, Binary64.one.magnitude_lt⟩
  limit := none

/-- Whatever is looked up, it is not negative infinity. -/
theorem estimate_mistaken_ne (residual : State) :
    mistaken.estimate problem residual ≠ Binary64.infinity true := by
  simp only [Strategy.estimate, mistaken, Heuristic.table, List.lookup_cons, List.lookup_nil]
  split
  · decide +kernel
  · split
    · decide
    · decide

/-- The beginning of the way has been reached twice, each time with an infinite total. The cheaper
one of its two nodes is taken. -/
theorem balanced_mistaken :
    ∃ s n rest, Search.Reachable problem (mistaken.estimate problem) s ∧
      s.costsOf State.empty = [Binary64.ofNat 8, Binary64.ofNat 7] ∧
      s.next? = some ((5, n), rest) ∧ n.residual = State.empty ∧ n.cost = Binary64.ofNat 7 ∧
      s.Balanced problem := by
  have hending : (mistaken.search problem).ending = .found 5 := by decide +kernel
  obtain ⟨s, n, hs, hnext⟩ := Strategy.exists_next?_of_found hending
  obtain ⟨e, he, htakes⟩ := Search.takes_of_next? hnext
  have hcosts : (mistaken.search problem).final.costsOf State.empty =
      [Binary64.ofNat 8, Binary64.ofNat 7] := by
    decide +kernel
  have hnode : (mistaken.search problem).final.nodes[5]?.map (fun n => (n.residual, n.cost)) =
      some (State.empty, Binary64.ofNat 7) := by
    decide +kernel
  rw [Search.costsOf, htakes.nodes_eq] at hcosts
  rw [htakes.nodes_eq, ← he, htakes.node, Option.map_some, Option.some.injEq,
    Prod.mk.injEq] at hnode
  exact ⟨s, n, _, hs, hcosts, hnext, hnode.1, hnode.2,
    hs.balanced fun residual _ => estimate_mistaken_ne residual⟩

end WaysHome

end GoalPlanning
