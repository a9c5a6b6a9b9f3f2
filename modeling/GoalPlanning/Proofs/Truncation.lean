import GoalPlanning.Proofs.Search.Budgets
import GoalPlanning.Proofs.Search.Termination

/-!
# A limit only truncates

Before a search asks whether the limit is used up, it takes a node and asks whether the current
state satisfies its residual goal. So a limit of exactly the expansions that the search without a
limit makes is enough, be it to find the plan or to see that no node is left, and even no expansion
at all is enough for a goal that holds already. Under any smaller limit the search goes the same way
and is cut off.
-/

namespace GoalPlanning

/-- **A limit only truncates.** Let a search without a limit make `expanded.size` expansions. It
answers, and within every limit that allows for these expansions the search is the same one, so it
gives the same plan, or says that there is none, after the same expansions. Within every smaller
limit the search makes the first of these expansions, as many as the limit allows, in the same
order and at the same costs, and then reports that the limit is used up. -/
theorem Strategy.search_truncated (heuristic : Heuristic) (p : Problem) (limit : ℕ) :
    let unlimited := Strategy.search ⟨heuristic, none⟩ p
    let limited := Strategy.search ⟨heuristic, some limit⟩ p
    unlimited.Answers ∧
      (unlimited.final.expanded.size ≤ limit →
        limited.plan = unlimited.plan ∧ limited.final = unlimited.final) ∧
      (limit < unlimited.final.expanded.size →
        limited.plan = .error (.budgetExhausted limit) ∧ limited.final.expanded.size = limit ∧
          limited.final.expanded.toList = unlimited.final.expanded.toList.take limit) := by
  intro unlimited limited
  obtain ⟨-, -, -, hending⟩ := exists_stopsAt_of_unlimited ⟨heuristic, none⟩ rfl p
  have hanswers : unlimited.Answers := Report.answers_iff.2 hending
  refine ⟨hanswers, fun hle => ?_, fun hlt => ?_⟩
  · obtain ⟨hend, hfinal⟩ := Report.ofSearch_eq_of_size_le hanswers hle
    exact ⟨Report.plan_eq_of_ending_eq hanswers rfl hend hfinal, hfinal⟩
  · obtain ⟨hover, hexpanded⟩ : limited.ending = .overBudget ∧
        limited.final.expanded.toList = unlimited.final.expanded.toList.take limit :=
      Report.ofSearch_of_lt_size hlt
    have hplan : limited.plan = .error (.budgetExhausted limit) := by
      rw [Report.plan, Report.steps, hover]
      rfl
    have hsize := congrArg List.length hexpanded
    rw [List.length_take, Array.length_toList, Array.length_toList, min_eq_left hlt.le] at hsize
    exact ⟨hplan, hsize, hexpanded⟩

end GoalPlanning
