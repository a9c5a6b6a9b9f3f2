import GoalPlanning.Proofs.Search.Arena

/-!
# The bookkeeping of a search

The frontier, the costs reached and the list of nodes are changed at different moments. These are
the relations between them that hold whatever the estimates are: entries stand for nodes, the best
cost of a residual goal is that of one of its nodes and of no larger cost than any of them, and
whenever a residual goal is reached again it is at a strictly lower cost. Every expansion uses up
an entry, so there are never more expansions than nodes.
-/

namespace GoalPlanning

namespace Search

variable {p : Problem} {estimate : State → Binary64} {number : ℕ} {n : Node} {s : Search}

/-- The books of a search agree with its nodes. -/
structure Ledger (s : Search) : Prop where
  /-- Every entry stands for a node. -/
  entry : ∀ e ∈ s.frontier, ∃ n, s.nodes[e.node]? = some n ∧ e = n.entry e.node
  /-- No node is cheaper than the best cost of its residual goal. -/
  best_le : ∀ (i : ℕ) (n : Node), s.nodes[i]? = some n →
    ∃ g, s.best[n.residual]? = some g ∧ g.magnitude ≤ n.cost.magnitude
  /-- The best cost of a residual goal is that of one of its nodes. -/
  reached : ∀ (residual : State) (g : Binary64), s.best[residual]? = some g →
    ∃ (i : ℕ) (n : Node), s.nodes[i]? = some n ∧ n.residual = residual ∧ n.cost = g
  /-- Later nodes for a residual goal are cheaper. -/
  decreasing : ∀ (i j : ℕ) (m n : Node), i < j → s.nodes[i]? = some m → s.nodes[j]? = some n →
    m.residual = n.residual → n.cost.magnitude < m.cost.magnitude
  /-- Nodes that have been expanded are no longer in the frontier. -/
  size_le : s.expanded.size + s.frontier.size ≤ s.nodes.size

/-- The node that is taken has a smaller total than any other one that waits, or the same total
and no larger cost. -/
theorem Takes.rank_le {e : Entry} {rest : Search} (htakes : s.Takes e n rest) (h : s.Ledger)
    {i : ℕ} {m : Node} (hm : s.nodes[i]? = some m) (hentry : m.entry i ∈ s.frontier)
    (hopen : m.residual ∉ s.closed) :
    n.total.rank < m.total.rank ∨
      (n.total.rank = m.total.rank ∧ n.cost.rank ≤ m.cost.rank) := by
  obtain ⟨n', hn', hentry_eq⟩ := h.entry e htakes.mem
  obtain rfl := Option.some.inj (hn'.symm.trans htakes.node)
  have hle := htakes.least _ hentry m hm hopen
  rw [hentry_eq, Entry.isLE_compare_iff] at hle
  simp only [Node.entry] at hle
  omega

/-- All costs in a search are unsigned. -/
def Unsigned (s : Search) : Prop :=
  (∀ (i : ℕ) (n : Node), s.nodes[i]? = some n → n.cost.IsUnsigned) ∧
    ∀ (residual : State) (g : Binary64), s.best[residual]? = some g → g.IsUnsigned

/-- In a search that keeps its ledger all costs are unsigned. -/
theorem Ledger.unsigned (h : s.Ledger) (harena : Arena p estimate s.nodes) : s.Unsigned := by
  constructor
  · intro i n hn
    exact harena.cost_isUnsigned hn
  · intro residual g hg
    obtain ⟨i, n, hn, -, rfl⟩ := h.reached residual g hg
    exact harena.cost_isUnsigned hn

/-- A residual goal that is not known at a cost has only been reached at higher costs. -/
theorem Unsigned.lt_of_isKnown_eq_false (h : s.Unsigned) {residual : State} {cost g : Binary64}
    (hcost : cost.IsUnsigned) (hknown : s.isKnown residual cost = false)
    (hg : s.best[residual]? = some g) : cost.magnitude < g.magnitude := by
  by_contra hle
  have hle := ((h.2 residual g hg).numericLe_iff hcost).2 (Nat.le_of_not_lt hle)
  rw [isKnown_eq_true_iff.2 ⟨g, hg, hle⟩] at hknown
  cases hknown

/-- Pushing a node for a residual goal that is not known at its cost keeps the books. -/
theorem Ledger.push (h : s.Ledger) (hunsigned : s.Unsigned) {m : Node}
    (hcost : m.cost.IsUnsigned) (hknown : s.isKnown m.residual m.cost = false) :
    (s.push m).Ledger where
  entry e he := by
    rcases mem_frontier_push.1 he with rfl | he
    · exact ⟨m, getElem?_nodes_push_size s m, rfl⟩
    · obtain ⟨n, hn, heq⟩ := h.entry e he
      exact ⟨n, getElem?_nodes_push_of_eq_some hn m, heq⟩
  best_le i n hn := by
    rw [getElem?_best_push]
    split
    case isTrue hsame =>
      refine ⟨m.cost, rfl, ?_⟩
      rcases getElem?_nodes_push hn with hold | ⟨-, rfl⟩
      · obtain ⟨g, hg, hle⟩ := h.best_le i n hold
        have hlt := hunsigned.lt_of_isKnown_eq_false hcost hknown (hsame ▸ hg)
        omega
      · exact le_rfl
    case isFalse hother =>
      rcases getElem?_nodes_push hn with hold | ⟨-, rfl⟩
      · exact h.best_le i n hold
      · exact absurd rfl hother
  reached residual g hg := by
    rw [getElem?_best_push] at hg
    split at hg
    case isTrue hsame =>
      exact ⟨_, m, getElem?_nodes_push_size s m, hsame, Option.some.inj hg⟩
    case isFalse =>
      obtain ⟨i, n, hn, hresidual, hcost⟩ := h.reached residual g hg
      exact ⟨i, n, getElem?_nodes_push_of_eq_some hn m, hresidual, hcost⟩
  decreasing i j n n' hlt hn hn' hsame := by
    rcases getElem?_nodes_push hn' with hn'old | ⟨rfl, rfl⟩
    · rcases getElem?_nodes_push hn with hnold | ⟨rfl, rfl⟩
      · exact h.decreasing i j n n' hlt hnold hn'old hsame
      · have hj := (Array.getElem?_eq_some_iff.1 hn'old).1
        omega
    · rcases getElem?_nodes_push hn with hnold | ⟨rfl, rfl⟩
      · obtain ⟨g, hg, hle⟩ := h.best_le i n hnold
        have hlt := hunsigned.lt_of_isKnown_eq_false hcost hknown (hsame ▸ hg)
        omega
      · omega
  size_le := by
    have hfrontier : (s.push m).frontier.size ≤ s.frontier.size + 1 :=
      Std.TreeSet.size_insert_le
    have hnodes : (s.push m).nodes.size = s.nodes.size + 1 := Array.size_push _
    have hsize := h.size_le
    change s.expanded.size + _ ≤ _
    omega

/-- Taking a node and closing it keeps the books. -/
theorem Ledger.close (h : s.Ledger) {e : Entry} {rest : Search} (htakes : s.Takes e n rest) :
    (rest.close n).Ledger where
  entry f hf := by
    change ∃ n : Node, rest.nodes[f.node]? = some n ∧ _
    rw [htakes.nodes_eq]
    exact h.entry f ((htakes.frontier f).1 hf).1
  best_le := by
    change ∀ (i : ℕ) (n : Node), rest.nodes[i]? = some n → ∃ g, rest.best[n.residual]? = some g ∧ _
    rw [htakes.nodes_eq, htakes.best_eq]
    exact h.best_le
  reached := by
    change ∀ residual g, rest.best[residual]? = some g →
      ∃ (i : ℕ) (n : Node), rest.nodes[i]? = some n ∧ n.residual = residual ∧ n.cost = g
    rw [htakes.nodes_eq, htakes.best_eq]
    exact h.reached
  decreasing := by
    change ∀ (i j : ℕ) (m n : Node), i < j → rest.nodes[i]? = some m → rest.nodes[j]? = some n →
      m.residual = n.residual → n.cost.magnitude < m.cost.magnitude
    rw [htakes.nodes_eq]
    exact h.decreasing
  size_le := by
    have hsize := h.size_le
    have hlt := htakes.size_lt
    have hexpanded : (rest.close n).expanded.size = rest.expanded.size + 1 := Array.size_push _
    rw [hexpanded, htakes.expanded_eq]
    change _ + rest.frontier.size ≤ rest.nodes.size
    rw [htakes.nodes_eq]
    omega

/-- The books agree with the nodes in every search that grows from one where they do. -/
theorem Grows.ledger {s' : Search} (hgrows : Grows p estimate number n s s') (h : s.Ledger)
    (harena : Arena p estimate s.nodes) (hn : s.nodes[number]? = some n) : s'.Ledger := by
  induction hgrows with
  | refl => exact h
  | @push s' i a before hgrows _ _ hknown ih =>
    obtain ⟨harena, hn⟩ := hgrows.arena harena hn
    exact ih.push (ih.unsigned harena) ((harena.cost_isUnsigned hn).add a.cost_isNonneg) hknown

/-- What a push keeps, provided that the node is cheaper than all nodes for its residual goal
before, is kept by growing. -/
theorem Grows.invariant {P : Search → Prop} {s' : Search}
    (hgrows : Grows p estimate number n s s') (h : s.Ledger) (harena : Arena p estimate s.nodes)
    (hn : s.nodes[number]? = some n) (hstart : P s)
    (hpush : ∀ (s' : Search) (m : Node), s'.Unsigned → m.cost.IsUnsigned →
      s'.isKnown m.residual m.cost = false → P s' → P (s'.push m)) : P s' := by
  induction hgrows with
  | refl => exact hstart
  | @push s' i a before hgrows _ _ hknown ih =>
    obtain ⟨harena', hn'⟩ := hgrows.arena harena hn
    have hunsigned := (hgrows.ledger h harena hn).unsigned harena'
    exact hpush s' _ hunsigned ((harena'.cost_isUnsigned hn').add a.cost_isNonneg) hknown ih

/-- The books of every search that a run goes through agree with its nodes. -/
theorem Reachable.ledger (h : Reachable p estimate s) : s.Ledger := by
  refine h.invariant (P := Ledger) ?_ ?_
  · have hempty : Ledger {} := ⟨by simp, by simp, by simp, by simp, by simp⟩
    refine hempty.push ⟨by simp, by simp⟩ Binary64.zero_isUnsigned ?_
    simp [isKnown]
  · intro s e n rest hs htakes _ hledger
    exact (grows_expand rest).ledger (hledger.close htakes) (htakes.arena_close hs.arena)
      htakes.node_close

end Search

end GoalPlanning
