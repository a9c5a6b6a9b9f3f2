import GoalPlanning.Proofs.Search.Budgets
import GoalPlanning.Proofs.Search.Termination
import Mathlib.Data.Set.Finite.Basic

/-!
# No search goes on forever

Without a limit a search stops only where no open node is left or where the current state
satisfies the residual goal of the node that is taken. It always comes to such a place, whatever
the estimates are. Every expansion takes an entry that a push has made; a push is for one of
finitely many residual goals, made of facts of the vocabulary, and each push for a residual goal
after the first one is at a lower cost than the one before.
-/

namespace GoalPlanning

/-- A problem asks for a fact if the goal or the preconditions of some action do. -/
def Problem.AsksFor (p : Problem) (key : String) (value : Value) : Prop :=
  p.goal.get? key = some value ∨ ∃ a ∈ p.actions, a.preconditions.get? key = some value

/-- The vocabulary lists the facts that a problem asks for. -/
theorem Problem.mem_vocabulary_iff {p : Problem} {key : String} {value : Value} :
    (key, value) ∈ p.vocabulary ↔ p.AsksFor key value := by
  rw [vocabulary, List.mem_append, List.mem_flatMap, State.mem_entries_iff, AsksFor]
  simp only [State.mem_entries_iff]

/-- There are only finitely many residual goals that ask for facts of the vocabulary only. -/
theorem Problem.finite_mentions (p : Problem) : {residual | p.Mentions residual}.Finite := by
  refine Set.Finite.of_finite_image (f := fun residual : State => residual.entries.toFinset)
    (p.vocabulary.toFinset.powerset.finite_toSet.subset ?_)
    fun s _ t _ h => State.eq_of_toFinset_entries_eq h
  rintro facts ⟨residual, hmentions, rfl⟩
  refine Finset.mem_coe.2 (Finset.mem_powerset.2 fun e he => ?_)
  exact List.mem_toFinset.2 (hmentions e (List.mem_toFinset.1 he))

namespace Search

variable {p : Problem} {estimate : State → Binary64} {s t : Search} {residual : State}

/-! ## Costs in the order of pushes -/

/-- The costs at which a residual goal has been reached, first to last. -/
def costsOf (s : Search) (residual : State) : List Binary64 :=
  (s.nodes.toList.filter fun n => n.residual = residual).map Node.cost

/-- Pushing a node adds its cost to those of its residual goal. -/
theorem costsOf_push (s : Search) (m : Node) (residual : State) :
    (s.push m).costsOf residual =
      s.costsOf residual ++ if m.residual = residual then [m.cost] else [] := by
  have hnodes : (s.push m).nodes.toList = s.nodes.toList ++ [m] := Array.toList_push
  rw [costsOf, hnodes, List.filter_append, List.map_append]
  by_cases hsame : m.residual = residual <;> simp [costsOf, hsame]

/-- The best cost of a residual goal is the one at which it has been reached last. -/
def BestIsLast (s : Search) : Prop :=
  ∀ residual, s.best[residual]? = (s.costsOf residual).getLast?

/-- Pushing a node keeps that the last cost of a residual goal is its best one. -/
theorem BestIsLast.push (h : s.BestIsLast) (m : Node) : (s.push m).BestIsLast := by
  intro residual
  rw [getElem?_best_push, costsOf_push]
  by_cases hsame : m.residual = residual
  · simp [hsame]
  · simp [hsame, h residual]

/-- Reaching new nodes keeps that the last cost is the best one. -/
theorem Grows.bestIsLast {number : ℕ} {n : Node} (hgrows : Grows p estimate number n s t)
    (h : s.BestIsLast) : t.BestIsLast := by
  induction hgrows with
  | refl => exact h
  | push _ _ _ _ ih => exact ih.push _

/-- In every search that a run goes through the last cost is the best one. -/
theorem Reachable.bestIsLast (hs : Reachable p estimate s) : s.BestIsLast := by
  refine hs.invariant (P := BestIsLast) ?_ ?_
  · have hempty : BestIsLast {} := fun residual => by simp [costsOf]
    exact hempty.push _
  · intro s e n rest _ htakes _ h
    apply (grows_expand rest).bestIsLast
    intro residual
    rw [htakes.best_close, h residual, costsOf, costsOf, htakes.nodes_close]

/-- Each time a residual goal is reached, it is at a lower cost than before. -/
theorem Reachable.costsOf_pairwise (hs : Reachable p estimate s) (residual : State) :
    (s.costsOf residual).Pairwise fun g g' => g'.numericLe g = true ∧ g.numericLe g' = false := by
  have hnodes : s.nodes.toList.Pairwise fun m n => m.residual = n.residual →
      n.cost.numericLe m.cost = true ∧ m.cost.numericLe n.cost = false := by
    rw [List.pairwise_iff_getElem]
    intro i j hi hj hlt hsame
    have hm : s.nodes[i]? = some s.nodes[i] := Array.getElem?_eq_getElem hi
    have hn : s.nodes[j]? = some s.nodes[j] := Array.getElem?_eq_getElem hj
    have hcost := hs.ledger.decreasing i j _ _ hlt hm hn hsame
    have hm_unsigned := hs.arena.cost_isUnsigned hm
    have hn_unsigned := hs.arena.cost_isUnsigned hn
    rw [← Bool.not_eq_true]
    exact ⟨(hn_unsigned.numericLe_iff hm_unsigned).2 hcost.le,
      fun hle => absurd ((hm_unsigned.numericLe_iff hn_unsigned).1 hle) (by omega)⟩
  rw [costsOf, List.pairwise_map, List.pairwise_filter]
  refine hnodes.imp fun {m n} h hm hn => h ?_
  rw [of_decide_eq_true hm, of_decide_eq_true hn]

/-! ## Expansions -/

/-- One turn of a search without a limit: the node that is taken does not make a plan and is
expanded. -/
def Expands (p : Problem) (estimate : State → Binary64) (s t : Search) : Prop :=
  ∃ number n rest, s.next? = some ((number, n), rest) ∧ p.current.satisfies n.residual = false ∧
    t = rest.expand estimate p.actions number n

/-- A run goes through what an expansion leads to. -/
theorem Reachable.expands (hs : Reachable p estimate s) (h : Expands p estimate s t) :
    Reachable p estimate t := by
  obtain ⟨number, n, rest, hnext, hunsatisfied, rfl⟩ := h
  exact hs.expand hnext hunsatisfied

/-- A turn makes one expansion. -/
theorem Expands.size_eq (h : Expands p estimate s t) :
    t.expanded.size = s.expanded.size + 1 := by
  obtain ⟨number, n, rest, hnext, -, rfl⟩ := h
  rw [expanded_expand_of_next? hnext, Array.size_push]

/-- No search goes on forever: the turns that are left are bounded by the expansions that a run
can still make. -/
theorem Reachable.acc (hs : Reachable p estimate s) :
    Acc (fun t s => Expands p estimate s t) s := by
  induction hleft : p.expansionBound - s.expanded.size using Nat.strong_induction_on
    generalizing s with
  | h left ih =>
    refine Acc.intro s fun t ht => ?_
    have hlt := hs.expanded_size_lt
    have hsize := ht.size_eq
    exact ih _ (by omega) (hs.expands ht) rfl

/-- A run that has not ended over budget has stopped where there is no further turn. -/
theorem StopsAt.not_expands {final : Search} {ending : Ending} (h : StopsAt p s final ending)
    (hending : ending ≠ .overBudget) (t : Search) : ¬Expands p estimate s t := by
  rintro ⟨number, n, rest, hnext, hunsatisfied, -⟩
  cases ending with
  | found _ =>
    obtain ⟨n', hnext', hcovered⟩ := h
    rw [hnext, Option.some.injEq, Prod.mk.injEq, Prod.mk.injEq] at hnext'
    rw [hnext'.1.2, hcovered] at hunsatisfied
    cases hunsatisfied
  | noPlan => simp [h.1] at hnext
  | overBudget => exact hending rfl

end Search

/-- **Termination.** Whatever the estimates are, the turns of a search without a limit come to an
end, and the search answers at a place where there is no further turn. The residual goals that it
can ever reach are finitely many: each gives its keys values that the goal or the preconditions of
some action ask for. Each time a residual goal is reached again, it is at a lower cost than its
best one so far, which is the last one. -/
theorem Strategy.search_ends (heuristic : Heuristic) (p : Problem) :
    let estimate := Strategy.estimate ⟨heuristic, none⟩ p
    let report := Strategy.search ⟨heuristic, none⟩ p
    Acc (fun t s => Search.Expands p estimate s t) (Search.start estimate p.goal) ∧
    (∃ s, Search.Reachable p estimate s ∧ (∀ t, ¬Search.Expands p estimate s t) ∧
      Search.StopsAt p s report.final report.ending ∧ report.Answers) ∧
    {residual | ∃ s, Search.Reachable p estimate s ∧ ∃ n ∈ s.nodes, n.residual = residual}.Finite ∧
    ∀ s, Search.Reachable p estimate s →
      (∀ n ∈ s.nodes, ∀ key value, n.residual.get? key = some value → p.AsksFor key value) ∧
      ∀ residual, s.best[residual]? = (s.costsOf residual).getLast? ∧
        (s.costsOf residual).Pairwise fun g g' =>
          g'.numericLe g = true ∧ g.numericLe g' = false := by
  intro estimate report
  have hmentions {s : Search} (hs : Search.Reachable p estimate s) {n : Node} (hn : n ∈ s.nodes) :
      p.Mentions n.residual := by
    obtain ⟨i, hi⟩ := Array.mem_iff_getElem?.1 hn
    exact hs.arena.mentions hi
  refine ⟨Search.Reachable.start.acc, ?_, p.finite_mentions.subset ?_, fun s hs => ⟨?_, ?_⟩⟩
  · obtain ⟨s, hs, hstops, hending⟩ :=
      Strategy.exists_stopsAt_of_unlimited ⟨heuristic, none⟩ rfl p
    exact ⟨s, hs, hstops.not_expands hending, hstops, Report.answers_iff.2 hending⟩
  · rintro residual ⟨s, hs, n, hn, rfl⟩
    exact hmentions hs hn
  · intro n hn key value hvalue
    exact Problem.mem_vocabulary_iff.1 (hmentions hs hn _ (State.mem_entries_iff.2 hvalue))
  · exact fun residual => ⟨hs.bestIsLast residual, hs.costsOf_pairwise residual⟩

end GoalPlanning
