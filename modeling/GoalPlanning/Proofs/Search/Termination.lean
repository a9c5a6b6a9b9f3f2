import GoalPlanning.Proofs.Search.Ledger
import GoalPlanning.Proofs.Soundness
import Mathlib.Data.Finset.Powerset
import Mathlib.Data.Finset.Prod

/-!
# Searches end

Actions can undo each other and cost nothing, estimates can be anything, and a residual goal can
be opened again. A search ends nevertheless. Its residual goals are sets of facts of the
vocabulary, and two nodes for one residual goal have different costs, so there are no more nodes
than pairs of a set of facts and a cost. There are fewer of these pairs than the budget of a
search without a limit.
-/

namespace GoalPlanning

/-- A state is known by the set of its facts. -/
theorem State.eq_of_toFinset_entries_eq {s t : State}
    (h : s.entries.toFinset = t.entries.toFinset) : s = t := by
  apply State.ext_get?
  intro key
  apply Option.ext
  intro value
  have hmem : (key, value) ∈ s.entries ↔ (key, value) ∈ t.entries := by
    rw [← List.mem_toFinset, h, List.mem_toFinset]
  rwa [State.mem_entries_iff, State.mem_entries_iff] at hmem

namespace Search

variable {p : Problem} {estimate : State → Binary64} {s : Search}

/-- Two nodes with the same residual goal and the same cost are the same node. -/
theorem Ledger.eq_of_residual_eq (h : s.Ledger) {i j : ℕ} {m n : Node}
    (hm : s.nodes[i]? = some m) (hn : s.nodes[j]? = some n) (hresidual : m.residual = n.residual)
    (hcost : m.cost.magnitude = n.cost.magnitude) : i = j := by
  rcases lt_trichotomy i j with hlt | heq | hgt
  · have hdecreasing := h.decreasing i j m n hlt hm hn hresidual
    omega
  · exact heq
  · have hdecreasing := h.decreasing j i n m hgt hn hm hresidual.symm
    omega

/-- There are no more nodes than pairs of a set of facts of the vocabulary and a cost. -/
theorem Reachable.nodes_size_le (h : Reachable p estimate s) :
    s.nodes.size ≤ 2 ^ p.vocabulary.length * (Binary64.infinityCode + 1) := by
  let label (i : Fin s.nodes.size) : Finset Fact × ℕ :=
    (s.nodes[i].residual.entries.toFinset, s.nodes[i].cost.magnitude)
  have hnode (i : Fin s.nodes.size) : s.nodes[i.val]? = some s.nodes[i] :=
    Array.getElem?_eq_getElem i.isLt
  have hlabel : ∀ i ∈ Finset.univ, label i ∈
      p.vocabulary.toFinset.powerset ×ˢ Finset.range (Binary64.infinityCode + 1) := by
    intro i _
    rw [Finset.mem_product, Finset.mem_powerset, Finset.mem_range, Nat.lt_succ_iff]
    constructor
    · intro e he
      exact List.mem_toFinset.2 (h.arena.mentions (hnode i) e (List.mem_toFinset.1 he))
    · exact (h.arena.cost_isUnsigned (hnode i)).le_infinity
  have hinjective : Set.InjOn label (Finset.univ : Finset (Fin s.nodes.size)) := by
    intro i _ j _ hij
    obtain ⟨hfacts, hcost⟩ := Prod.mk.injEq _ _ _ _ ▸ hij
    exact Fin.ext (h.ledger.eq_of_residual_eq (hnode i) (hnode j)
      (State.eq_of_toFinset_entries_eq hfacts) hcost)
  have hcard := Finset.card_le_card_of_injOn label hlabel hinjective
  rw [Finset.card_univ, Fintype.card_fin, Finset.card_product, Finset.card_powerset,
    Finset.card_range] at hcard
  have hfacts : 2 ^ p.vocabulary.toFinset.card ≤ 2 ^ p.vocabulary.length :=
    Nat.pow_le_pow_right Nat.two_pos (List.toFinset_card_le _)
  exact hcard.trans (Nat.mul_le_mul_right _ hfacts)

/-- A run makes fewer expansions than a search without a limit may make. -/
theorem Reachable.expanded_size_lt (h : Reachable p estimate s) :
    s.expanded.size < p.expansionBound := by
  have hsize := h.ledger.size_le
  have hbits : Binary64.infinityCode + 1 < 2 ^ 63 := by decide
  calc s.expanded.size ≤ s.nodes.size := by omega
    _ ≤ 2 ^ p.vocabulary.length * (Binary64.infinityCode + 1) := h.nodes_size_le
    _ < 2 ^ p.vocabulary.length * 2 ^ 63 := Nat.mul_lt_mul_of_pos_left hbits (Nat.two_pow_pos _)
    _ = p.expansionBound := by rw [Problem.expansionBound, Nat.one_shiftLeft, pow_add]

end Search

/-- A search without a limit stops at a search that its run goes through, and never over budget. -/
theorem Strategy.exists_stopsAt_of_unlimited (strategy : Strategy)
    (hlimit : strategy.limit = none) (p : Problem) :
    ∃ s, Search.Reachable p (strategy.estimate p) s ∧
      Search.StopsAt p s (strategy.search p).final (strategy.search p).ending ∧
      (strategy.search p).ending ≠ .overBudget := by
  have hbudget : strategy.budget p = p.expansionBound := by rw [budget, hlimit, Option.getD_none]
  obtain ⟨s, hs, hstops, hsize⟩ := Report.exists_stopsAt p (strategy.estimate p) p.expansionBound
  rw [← hbudget, ← strategy.search_eq] at hstops hsize
  exact ⟨s, hs, hstops, fun hover => hs.expanded_size_lt.ne ((hsize hover).trans hbudget)⟩

/-- A search without a limit never ends over budget: it finds a plan, or no node is left. -/
theorem Strategy.exists_outcome_of_unlimited (heuristic : Heuristic) (p : Problem) :
    ∃ s, Search.Reachable p (Strategy.estimate ⟨heuristic, none⟩ p) s ∧
      ((∃ number n rest, s.next? = some ((number, n), rest) ∧
          p.current.satisfies n.residual = true ∧
          (Strategy.search ⟨heuristic, none⟩ p).plan = .ok (actionsFrom p s.nodes number)) ∨
        (s.next? = none ∧ (Strategy.search ⟨heuristic, none⟩ p).plan = .error .noPlan)) := by
  obtain ⟨s, hs, houtcome⟩ := Strategy.exists_outcome ⟨heuristic, none⟩ p
  refine ⟨s, hs, ?_⟩
  generalize (Strategy.search ⟨heuristic, none⟩ p).plan = plan at *
  cases houtcome with
  | found hnext hcovered => exact Or.inl ⟨_, _, _, hnext, hcovered, rfl⟩
  | noPlan hnext => exact Or.inr ⟨hnext, rfl⟩
  | overBudget _ _ hbudget => exact absurd hbudget hs.expanded_size_lt.ne

end GoalPlanning
