import GoalPlanning.Proofs.CheapestFirst
import GoalPlanning.Proofs.Endings
import GoalPlanning.Proofs.Search.Reopening
import GoalPlanning.Proofs.UnmetEstimate
import Mathlib.Data.Finset.Option
import Mathlib.Data.Fintype.BigOperators

/-!
# The order of expansions

A search that follows the cost alone takes its nodes in the order of their costs. A cost is never
below that of the node it was made from, however sums are rounded, and the node that is taken is
the cheapest one of all that wait, so no later node can be cheaper. For the same reason no residual
goal that has been expanded is ever reached at a lower cost: nothing is opened again, and there are
no more expansions than residual goals. A residual goal leaves each key of the goal and of the
preconditions without a condition or asks for one of the values that they ask for.
-/

namespace GoalPlanning

/-! ## Counting residual goals -/

namespace Problem

/-- The values that the goal or the preconditions ask for at a key. -/
def values (p : Problem) (key : String) : Finset Value :=
  ((p.vocabulary.filter fun fact => fact.1 = key).map Prod.snd).toFinset

/-- The values of a key are those that something asks for. -/
theorem mem_values_iff {p : Problem} {key : String} {value : Value} :
    value ∈ p.values key ↔ p.AsksFor key value := by
  simp [values, ← mem_vocabulary_iff]

/-- The keys of a problem are those for which some value is asked for. -/
theorem mem_keys_iff {p : Problem} {key : String} :
    key ∈ p.keys ↔ ∃ value, p.AsksFor key value := by
  simp [keys, ← mem_vocabulary_iff]

/-- A residual goal asks at each key for one of the values of the key, or for nothing. -/
theorem Mentions.get?_mem_insertNone {p : Problem} {residual : State} (h : p.Mentions residual)
    (key : String) : residual.get? key ∈ (p.values key).insertNone := by
  rw [Finset.mem_insertNone]
  intro value hvalue
  exact mem_values_iff.2 (mem_vocabulary_iff.1 (h _ (State.mem_entries_iff.2 hvalue)))

/-- Residual goals that agree at the keys of the problem are the same. -/
theorem Mentions.ext {p : Problem} {residual residual' : State} (h : p.Mentions residual)
    (h' : p.Mentions residual') (hagree : ∀ key ∈ p.keys, residual.get? key = residual'.get? key) :
    residual = residual' := by
  apply State.ext_get?
  intro key
  by_cases hkey : key ∈ p.keys
  · exact hagree key hkey
  · have hnone {r : State} (hr : p.Mentions r) : r.get? key = none := by
      rw [Option.eq_none_iff_forall_ne_some]
      intro value hvalue
      have hmem := hr (key, value) (State.mem_entries_iff.2 hvalue)
      exact hkey (mem_keys_iff.2 ⟨value, mem_vocabulary_iff.1 hmem⟩)
    rw [hnone h, hnone h']

/-- There are no more residual goals than ways to choose at each key one of its values or none. -/
theorem card_le_of_mentions {p : Problem} {residuals : Finset State}
    (h : ∀ residual ∈ residuals, p.Mentions residual) :
    residuals.card ≤ ∏ key ∈ p.keys, (1 + (p.values key).card) := by
  let choice (residual : State) (key : String) (_ : key ∈ p.keys) := residual.get? key
  have hchoice : ∀ residual ∈ residuals,
      choice residual ∈ p.keys.pi fun key => (p.values key).insertNone :=
    fun residual hmem => Finset.mem_pi.2 fun key _ => (h residual hmem).get?_mem_insertNone key
  have hinjective : Set.InjOn choice residuals := by
    intro residual hmem residual' hmem' heq
    refine (h residual hmem).ext (h residual' hmem') fun key hkey => ?_
    exact congrFun (congrFun heq key) hkey
  calc residuals.card ≤ (p.keys.pi fun key => (p.values key).insertNone).card :=
        Finset.card_le_card_of_injOn choice hchoice hinjective
    _ = ∏ key ∈ p.keys, (1 + (p.values key).card) := by
        simp only [Finset.card_pi, Finset.card_insertNone, Nat.add_comm]

end Problem

namespace Search

variable {p : Problem} {estimate : State → Binary64} {s t : Search}

/-- If no residual goal has been expanded twice, then there are no more expansions than residual
goals that ask for facts of the vocabulary only. -/
theorem Reachable.expanded_size_le (hs : Reachable p estimate s) (h : s.InOrder) :
    s.expanded.size ≤ ∏ key ∈ p.keys, (1 + (p.values key).card) := by
  have hsize : (s.expanded.toList.map Node.residual).toFinset.card = s.expanded.size := by
    rw [List.toFinset_card_of_nodup h.nodup, List.length_map, Array.length_toList]
  rw [← hsize]
  refine Problem.card_le_of_mentions fun residual hmem => ?_
  obtain ⟨n, hn, rfl⟩ := List.mem_map.1 (List.mem_toFinset.1 hmem)
  obtain ⟨i, hi⟩ := h.node n (Array.mem_toList_iff.1 hn)
  exact hs.arena.mentions hi

/-! ## One turn of an action -/

/-- In the middle of an expansion one action has its turn: the search is `s` before and `t` after
it. -/
inductive Turn (p : Problem) (estimate : State → Binary64) : Search → Search → Prop
  /-- The actions `earlier` have had their turns before. -/
  | turn {s rest : Search} {number : ℕ} {n : Node} {earlier later : List (Action × ℕ)} {a : Action}
      {action : ℕ} : Reachable p estimate s → s.next? = some ((number, n), rest) →
      p.current.satisfies n.residual = false → p.actions.zipIdx = earlier ++ (a, action) :: later →
      Turn p estimate
        (earlier.foldl (fun s a => s.reachThrough estimate number n a.1 a.2) (rest.close n))
        ((earlier.foldl (fun s a => s.reachThrough estimate number n a.1 a.2)
          (rest.close n)).reachThrough estimate number n a action)

/-- A turn is part of an expansion, which has made the search grow before and makes it grow. -/
theorem Turn.exists_grows (h : Turn p estimate s t) :
    ∃ s₀ e n rest, Reachable p estimate s₀ ∧ s₀.Takes e n rest ∧
      Grows p estimate e.node n (rest.close n) s ∧ Grows p estimate e.node n s t ∧
      Grows p estimate e.node n (rest.close n) t := by
  cases h with
  | @turn s₀ rest number n earlier later a action hs hnext _ hactions =>
    obtain ⟨e, rfl, htakes⟩ := takes_of_next? hnext
    have hnumbered : ∀ b ∈ earlier ++ (a, action) :: later, p.actions[b.2]? = some b.1 :=
      fun b hb => List.mem_zipIdx_iff_getElem?.1 (hactions ▸ hb)
    have ha := hnumbered (a, action) (by simp)
    have hgrows : Grows p estimate e.node n (rest.close n)
        (earlier.foldl (fun s a => s.reachThrough estimate e.node n a.1 a.2) (rest.close n)) :=
      Grows.refl.foldl fun b hb => hnumbered b (List.mem_append_left _ hb)
    exact ⟨s₀, e, n, rest, hs, htakes, hgrows, Grows.refl.reachThrough ha, hgrows.reachThrough ha⟩

/-- If totals never fall along origins and cheaper nodes have smaller totals, then a turn opens no
residual goal again. It closes none either. -/
theorem Turn.mem_closed_iff (h : Turn p estimate s t)
    (hmonotone : ∀ nodes, Arena p estimate nodes → Node.Monotone nodes) (residual : State) :
    residual ∈ t.closed ↔ residual ∈ s.closed := by
  obtain ⟨s₀, e, n, rest, hs, htakes, hbefore, hturn, hgrows⟩ := h.exists_grows
  refine ⟨hturn.mem_closed_of_mem, fun hclosed => ?_⟩
  have harena := (hgrows.arena (htakes.arena_close hs.arena) htakes.node_close).1
  have hinorder : t.InOrder :=
    (hs.inOrder (hmonotone _ hs.arena)).grow hs htakes hgrows (hmonotone _ harena)
  -- What is closed before the turn has been expanded, and all that has been is closed after it.
  obtain ⟨x, hx, rfl⟩ := htakes.exists_expanded_close hs.exists_expanded residual
    (hbefore.mem_closed_of_mem hclosed)
  exact hinorder.closed x (hgrows.expanded_eq ▸ hx)

/-! ## Following the cost alone -/

/-- The totals of expanded nodes never fall, and the node that is taken has no smaller total than
they. -/
theorem Takes.pairwise_total {e : Entry} {n : Node} {rest : Search} (htakes : s.Takes e n rest)
    (hledger : s.Ledger) (hinorder : s.InOrder)
    (h : s.expanded.toList.Pairwise fun x y => x.total.rank ≤ y.total.rank) :
    (s.expanded.push n).toList.Pairwise fun x y => x.total.rank ≤ y.total.rank := by
  obtain ⟨-, hlast⟩ := hinorder.close hledger htakes
  rw [htakes.expanded_close] at hlast
  rw [Array.toList_push, List.pairwise_append]
  refine ⟨h, List.pairwise_singleton _ _, fun x hx y hy => ?_⟩
  obtain rfl := List.mem_singleton.1 hy
  exact hlast x (Array.mem_push_of_mem y (Array.mem_toList_iff.1 hx))

/-- If totals never fall along origins and cheaper nodes have smaller totals, then nodes are
expanded in the order of their totals. -/
theorem Reachable.pairwise_total (hs : Reachable p estimate s)
    (hmonotone : ∀ nodes, Arena p estimate nodes → Node.Monotone nodes) :
    s.expanded.toList.Pairwise fun x y => x.total.rank ≤ y.total.rank := by
  refine hs.invariant
    (P := fun s => s.expanded.toList.Pairwise fun x y => x.total.rank ≤ y.total.rank) ?_ ?_
  · exact List.Pairwise.nil
  · intro s e n rest hs htakes _ ih
    rw [expanded_expand, htakes.expanded_eq]
    exact htakes.pairwise_total hs.ledger (hs.inOrder (hmonotone _ hs.arena)) ih

end Search

/-- If all estimates are zero, of either sign, then totals are costs. -/
theorem Arena.total_eq {p : Problem} {estimate : State → Binary64} {nodes : Array Node}
    (h : Arena p estimate nodes)
    (hzero : ∀ residual, (estimate residual).IsNonneg ∧ (estimate residual).magnitude = 0) {i : ℕ}
    {n : Node} (hn : nodes[i]? = some n) : n.total = n.cost := by
  obtain ⟨hnonneg, hnothing⟩ := hzero n.residual
  rw [Node.total, h.estimate_eq i n hn, (h.cost_isUnsigned hn).add_eq_left hnonneg hnothing]

/-- If all estimates are zero, of either sign, then totals never fall along origins: a rounded sum
is not below its first operand. -/
theorem Arena.monotone_of_zero {p : Problem} {estimate : State → Binary64} {nodes : Array Node}
    (h : Arena p estimate nodes)
    (hzero : ∀ residual, (estimate residual).IsNonneg ∧ (estimate residual).magnitude = 0) :
    Node.Monotone nodes := by
  have hrank {i : ℕ} {n : Node} (hn : nodes[i]? = some n) : n.total.rank = n.cost.magnitude := by
    rw [h.total_eq hzero hn, (h.cost_isUnsigned hn).rank_eq]
  constructor
  · intro i n parent o hn horigin hparent
    rw [hrank hparent, hrank hn, Nat.cast_le]
    exact h.magnitude_parent_le hn horigin hparent
  · intro i j m n hm hn _ hlt
    rw [hrank hm, hrank hn, Nat.cast_lt]
    exact hlt

/-- If all estimates are zero, of either sign, then the costs of the nodes that have been expanded
and of the one that is taken never fall. -/
theorem Search.Takes.pairwise_cost {p : Problem} {estimate : State → Binary64} {s rest : Search}
    {e : Entry} {n : Node} (htakes : s.Takes e n rest) (hs : Search.Reachable p estimate s)
    (hzero : ∀ residual, (estimate residual).IsNonneg ∧ (estimate residual).magnitude = 0) :
    ((s.expanded.push n).toList.map Node.cost).Pairwise fun g g' => g.numericLe g' = true := by
  have hmonotone (nodes : Array Node) (h : Arena p estimate nodes) : Node.Monotone nodes :=
    h.monotone_of_zero hzero
  have hinorder := hs.inOrder (hmonotone _ hs.arena)
  have hnode : ∀ x ∈ (s.expanded.push n).toList, ∃ i : ℕ, s.nodes[i]? = some x := by
    intro x hx
    rcases Array.mem_push.1 (Array.mem_toList_iff.1 hx) with hx | rfl
    · exact hinorder.node x hx
    · exact ⟨e.node, htakes.node⟩
  rw [List.pairwise_map]
  refine (htakes.pairwise_total hs.ledger hinorder (hs.pairwise_total hmonotone)).imp_of_mem ?_
  intro x y hx hy hle
  obtain ⟨i, hi⟩ := hnode x hx
  obtain ⟨j, hj⟩ := hnode y hy
  have hx_cost := hs.arena.cost_isUnsigned hi
  have hy_cost := hs.arena.cost_isUnsigned hj
  rw [hs.arena.total_eq hzero hi, hs.arena.total_eq hzero hj, hx_cost.rank_eq, hy_cost.rank_eq,
    Nat.cast_le] at hle
  exact (hx_cost.numericLe_iff hy_cost).2 hle

/-- **Dijkstra's search expands in the order of costs, and each residual goal once.** Whatever the
actions cost, and however sums are rounded, the costs of the nodes that are taken never fall, the
last one included. No turn of an action opens a residual goal again. So no residual goal is expanded
twice, and there are no more expansions than ways to choose at each key of the goal and of the
preconditions one of the values that they ask for, or none. -/
theorem Strategy.dijkstra_expands_in_order (limit : Option ℕ) (p : Problem) :
    let estimate := (Strategy.dijkstra limit).estimate p
    let report := (Strategy.dijkstra limit).search p
    (∃ s, Search.Reachable p estimate s ∧ Search.StopsAt p s report.final report.ending ∧
      report.final.expanded = s.expanded) ∧
    (∀ s number n rest, Search.Reachable p estimate s → s.next? = some ((number, n), rest) →
      ((s.expanded.push n).toList.map Node.cost).Pairwise fun g g' => g.numericLe g' = true) ∧
    (∀ s t, Search.Turn p estimate s t → ∀ residual, residual ∈ t.closed ↔ residual ∈ s.closed) ∧
    (report.final.expanded.toList.map Node.residual).Nodup ∧
    report.final.expanded.size ≤ ∏ key ∈ p.keys, (1 + (p.values key).card) := by
  intro estimate report
  have hzero : ∀ residual, (estimate residual).IsNonneg ∧ (estimate residual).magnitude = 0 :=
    fun _ => ⟨Binary64.zero_isUnsigned.isNonneg, rfl⟩
  have hmonotone (nodes : Array Node) (h : Arena p estimate nodes) : Node.Monotone nodes :=
    h.monotone_of_zero hzero
  obtain ⟨s, hs, hstops, -⟩ :=
    Report.exists_stopsAt p estimate ((Strategy.dijkstra limit).budget p)
  rw [← Strategy.search_eq] at hstops
  obtain ⟨-, hexpanded⟩ := hstops.eq
  have hinorder := hs.inOrder (hmonotone _ hs.arena)
  refine ⟨⟨s, hs, hstops, hexpanded⟩, ?_, fun s t hturn => hturn.mem_closed_iff hmonotone,
    hexpanded ▸ hinorder.nodup, hexpanded ▸ hs.expanded_size_le hinorder⟩
  intro s number n rest hs hnext
  obtain ⟨e, -, htakes⟩ := Search.takes_of_next? hnext
  exact htakes.pairwise_cost hs hzero

end GoalPlanning
