import GoalPlanning.Proofs.Search.Ledger

/-!
# Searches that open nothing again

A residual goal is opened again when it is reached at a lower cost after it has been expanded. Let
no node have a smaller total than the node that it was made from. Then the totals of the nodes that
are expanded never fall. A node that opened a residual goal again would be cheaper than the one
that has been expanded and would have a smaller total, so there is no such node, and no residual
goal is expanded twice.
-/

namespace GoalPlanning

/-- Totals never fall from a node to the nodes made from it, and of two nodes for one residual goal
the cheaper one has the smaller total. -/
structure Node.Monotone (nodes : Array Node) : Prop where
  /-- Totals never fall along origins. -/
  parent_le : ∀ (i : ℕ) (n parent : Node) (o : Origin), nodes[i]? = some n → n.origin = some o →
    nodes[o.parent]? = some parent → parent.total.rank ≤ n.total.rank
  /-- A cheaper node for the same residual goal has a smaller total. -/
  rank_lt : ∀ (i j : ℕ) (m n : Node), nodes[i]? = some m → nodes[j]? = some n →
    m.residual = n.residual → m.cost.magnitude < n.cost.magnitude → m.total.rank < n.total.rank

namespace Search

variable {p : Problem} {estimate : State → Binary64} {number : ℕ} {n m : Node} {s s' : Search}

/-! ## Expanded nodes and closed residual goals -/

/-- What is true of every node that a run takes and does not accept is true of all nodes that have
been expanded. -/
theorem Reachable.forall_expanded {P : Node → Prop} (h : Reachable p estimate s)
    (htake : ∀ s e n rest, Reachable p estimate s → s.Takes e n rest →
      p.current.satisfies n.residual = false → P n) : ∀ x ∈ s.expanded, P x := by
  refine h.invariant (P := fun s => ∀ x ∈ s.expanded, P x) ?_ ?_
  · exact fun x hx => absurd hx (Array.not_mem_empty x)
  · intro s e n rest hs htakes hunsatisfied ih x hx
    rw [expanded_expand, htakes.expanded_eq, Array.mem_push] at hx
    rcases hx with hx | rfl
    · exact ih x hx
    · exact htake s e x rest hs htakes hunsatisfied

/-- Growing closes nothing. -/
theorem Grows.mem_closed_of_mem (hgrows : Grows p estimate number n s s') {residual : State}
    (h : residual ∈ s'.closed) : residual ∈ s.closed := by
  induction hgrows with
  | refl => exact h
  | push _ _ _ _ ih => exact ih (mem_closed_push.1 h).2

/-- If all closed residual goals have been expanded, then so they have when the next node has been
closed. -/
theorem Takes.exists_expanded_close {e : Entry} {rest : Search} (htakes : s.Takes e n rest)
    (h : ∀ residual ∈ s.closed, ∃ x ∈ s.expanded, x.residual = residual) :
    ∀ residual ∈ (rest.close n).closed, ∃ x ∈ (rest.close n).expanded, x.residual = residual := by
  intro residual hclosed
  rw [mem_closed_close, htakes.closed_eq] at hclosed
  rw [htakes.expanded_close]
  rcases hclosed with hsame | hclosed
  · exact ⟨n, Array.mem_push_self, hsame⟩
  · obtain ⟨x, hx, hresidual⟩ := h residual hclosed
    exact ⟨x, Array.mem_push_of_mem n hx, hresidual⟩

/-- A residual goal is only closed when a node for it is expanded. -/
theorem Reachable.exists_expanded (h : Reachable p estimate s) :
    ∀ residual ∈ s.closed, ∃ x ∈ s.expanded, x.residual = residual := by
  refine h.invariant
    (P := fun s => ∀ residual ∈ s.closed, ∃ x ∈ s.expanded, x.residual = residual) ?_ ?_
  · intro residual hmem
    exact absurd (mem_closed_push.1 hmem).2 (by simp)
  · intro s e n rest _ htakes _ ih residual hmem
    have hgrows : Grows p estimate e.node n (rest.close n) _ := grows_expand rest
    rw [hgrows.expanded_eq]
    exact htakes.exists_expanded_close ih residual (hgrows.mem_closed_of_mem hmem)

/-! ## Expanding in the order of totals -/

/-- The nodes that have been expanded are of closed residual goals, one for each, and have no
larger total than any entry. -/
structure InOrder (s : Search) : Prop where
  /-- Expanded nodes are nodes of the search. -/
  node : ∀ x ∈ s.expanded, ∃ i : ℕ, s.nodes[i]? = some x
  /-- Their residual goals are closed. -/
  closed : ∀ x ∈ s.expanded, x.residual ∈ s.closed
  /-- All entries have at least their totals. -/
  rank_le : ∀ x ∈ s.expanded, ∀ e ∈ s.frontier, x.total.rank ≤ e.total.rank
  /-- No residual goal has been expanded twice. -/
  nodup : (s.expanded.toList.map Node.residual).Nodup

/-- A push keeps this if the node has no smaller total than those that have been expanded, and
another residual goal. -/
theorem InOrder.push (h : s.InOrder) (hle : ∀ x ∈ s.expanded, x.total.rank ≤ m.total.rank)
    (hother : ∀ x ∈ s.expanded, m.residual ≠ x.residual) : (s.push m).InOrder where
  node x hx := by
    obtain ⟨i, hi⟩ := h.node x hx
    exact ⟨i, getElem?_nodes_push_of_eq_some hi m⟩
  closed x hx := mem_closed_push.2 ⟨hother x hx, h.closed x hx⟩
  rank_le x hx e he := by
    rcases mem_frontier_push.1 he with rfl | he
    · exact hle x hx
    · exact h.rank_le x hx e he
  nodup := h.nodup

/-- Taking a node and closing it keeps this, and the node has the largest total so far. -/
theorem InOrder.close (h : s.InOrder) (hledger : s.Ledger) {e : Entry} {rest : Search}
    (htakes : s.Takes e n rest) :
    (rest.close n).InOrder ∧ ∀ x ∈ (rest.close n).expanded, x.total.rank ≤ n.total.rank := by
  have hexpanded := htakes.expanded_close
  have htotal : e.total = n.total := by
    obtain ⟨m, hm, hentry⟩ := hledger.entry e htakes.mem
    obtain rfl := Option.some.inj (hm.symm.trans htakes.node)
    exact congrArg Entry.total hentry
  have hlast : ∀ x ∈ (rest.close n).expanded, x.total.rank ≤ n.total.rank := by
    intro x hx
    rw [hexpanded, Array.mem_push] at hx
    rcases hx with hx | rfl
    · exact htotal ▸ h.rank_le x hx e htakes.mem
    · exact le_rfl
  refine ⟨⟨fun x hx => ?_, fun x hx => ?_, fun x hx f hf => ?_, ?_⟩, hlast⟩
  · rw [hexpanded, Array.mem_push] at hx
    rw [htakes.nodes_close]
    rcases hx with hx | rfl
    · exact h.node x hx
    · exact ⟨e.node, htakes.node⟩
  · rw [hexpanded, Array.mem_push] at hx
    rw [mem_closed_close, htakes.closed_eq]
    rcases hx with hx | rfl
    · exact Or.inr (h.closed x hx)
    · exact Or.inl rfl
  · have hlater := ((htakes.frontier f).1 hf).2
    have hle := Entry.isLE_compare_iff.1 (Ordering.isLE_of_eq_lt hlater)
    have hx_le := hlast x hx
    rw [htotal] at hle
    omega
  · rw [hexpanded, Array.toList_push, List.map_append, List.nodup_append]
    refine ⟨h.nodup, by simp, ?_⟩
    intro residual hmem residual' hmem' heq
    obtain ⟨x, hx, rfl⟩ := List.mem_map.1 hmem
    rw [List.map_singleton, List.mem_singleton] at hmem'
    exact htakes.isOpen (hmem' ▸ heq ▸ h.closed x (Array.mem_toList_iff.1 hx))

/-- Fewer nodes are monotone if more are. -/
theorem Grows.monotone_of_monotone (hgrows : Grows p estimate number n s s')
    (h : Node.Monotone s'.nodes) : Node.Monotone s.nodes := by
  induction hgrows with
  | refl => exact h
  | @push s' i a before _ _ _ _ ih =>
    apply ih
    have hold {j : ℕ} {k : Node} (hk : s'.nodes[j]? = some k) :=
      getElem?_nodes_push_of_eq_some hk ⟨before, n.cost + a.cost, estimate before, some ⟨number, i⟩⟩
    constructor
    · exact fun i n parent o hn horigin hparent => h.parent_le i n parent o (hold hn) horigin
        (hold hparent)
    · exact fun i j m n hm hn => h.rank_lt i j m n (hold hm) (hold hn)

/-- While the last node that has been expanded has the largest total, growing pushes nothing that
has been expanded. -/
theorem Grows.inOrder (hgrows : Grows p estimate number n s s') (hledger : s.Ledger)
    (harena : Arena p estimate s.nodes) (hn : s.nodes[number]? = some n)
    (hmonotone : Node.Monotone s'.nodes) (h : s.InOrder)
    (hlast : ∀ x ∈ s.expanded, x.total.rank ≤ n.total.rank) : s'.InOrder := by
  induction hgrows with
  | refl => exact h
  | @push s' i a before hgrows ha hregress hknown ih =>
    have hinorder := ih ((Grows.refl.push ha hregress hknown).monotone_of_monotone hmonotone)
    obtain ⟨harena', hn'⟩ := hgrows.arena harena hn
    have hledger' := hgrows.ledger hledger harena hn
    have hunsigned := hledger'.unsigned harena'
    have hcost := (harena'.cost_isUnsigned hn').add a.cost_isNonneg
    generalize hm : (⟨before, n.cost + a.cost, estimate before, some ⟨number, i⟩⟩ : Node) = m at *
    have hnew := getElem?_nodes_push_size s' m
    have hle : ∀ x ∈ s'.expanded, x.total.rank ≤ m.total.rank := by
      intro x hx
      rw [hgrows.expanded_eq] at hx
      exact (hlast x hx).trans (hmonotone.parent_le _ m n ⟨number, i⟩ hnew (hm ▸ rfl)
        (getElem?_nodes_push_of_eq_some hn' m))
    refine hinorder.push hle fun x hx hsame => ?_
    -- A cheaper node for an expanded residual goal would have a smaller total.
    obtain ⟨j, hj⟩ := hinorder.node x hx
    obtain ⟨g, hg, hg_le⟩ := hledger'.best_le j x hj
    have hlt := hunsigned.lt_of_isKnown_eq_false hcost hknown (by subst hm; exact hsame ▸ hg)
    have hrank := hmonotone.rank_lt _ j m x hnew (getElem?_nodes_push_of_eq_some hj m) hsame
      (by subst hm; exact hlt.trans_le hg_le)
    exact absurd (hle x hx) (by omega)

/-- Expanding keeps this all the way: after the node has been closed, growing keeps it as well. -/
theorem InOrder.grow (h : s.InOrder) (hs : Reachable p estimate s) {e : Entry} {rest : Search}
    (htakes : s.Takes e n rest) (hgrows : Grows p estimate e.node n (rest.close n) s')
    (hmonotone : Node.Monotone s'.nodes) : s'.InOrder := by
  obtain ⟨hclose, hlast⟩ := h.close hs.ledger htakes
  exact hgrows.inOrder (hs.ledger.close htakes) (htakes.arena_close hs.arena) htakes.node_close
    hmonotone hclose hlast

/-- If totals never fall along origins and cheaper nodes have smaller totals, then a run expands no
residual goal twice. -/
theorem Reachable.inOrder (h : Reachable p estimate s) (hmonotone : Node.Monotone s.nodes) :
    s.InOrder := by
  refine h.invariant (P := fun s => Node.Monotone s.nodes → s.InOrder) ?_ ?_ hmonotone
  · intro _
    have hempty : InOrder {} := ⟨by simp, by simp, by simp, by simp⟩
    exact hempty.push (by simp) (by simp)
  · intro s e n rest hs htakes _ ih hmonotone
    have hgrows : Grows p estimate e.node n (rest.close n) _ := grows_expand rest
    have hbefore := hgrows.monotone_of_monotone hmonotone
    rw [htakes.nodes_close] at hbefore
    exact (ih hbefore).grow hs htakes hgrows hmonotone

end Search

end GoalPlanning
