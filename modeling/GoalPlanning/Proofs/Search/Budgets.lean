import GoalPlanning.Proofs.Search.Reachable

/-!
# Budgets

A budget only says when to give up. As long as a run does not end over budget, it does not depend
on the budget, so two budgets that both allow for its expansions give the same run. A smaller
budget cuts the run off after as many expansions as it allows.
-/

namespace GoalPlanning

namespace Search

variable {p : Problem} {estimate : State → Binary64}

/-- A run makes no more expansions than its budget allows. -/
theorem size_expanded_run_le (p : Problem) (estimate : State → Binary64) (budget : ℕ)
    (s : Search) : (run p estimate budget s).2.expanded.size ≤ s.expanded.size + budget := by
  fun_induction run p estimate budget s with
  | case1 => exact Nat.le_add_right _ _
  | case2 _ _ _ _ _ hnext =>
    rw [expanded_of_next? hnext]
    exact Nat.le_add_right _ _
  | case3 _ _ _ _ hnext =>
    rw [expanded_of_next? hnext]
    exact le_rfl
  | case4 _ _ _ _ hnext _ _ ih =>
    rw [expanded_expand_of_next? hnext, Array.size_push] at ih
    omega

/-- A run takes no expansion back: it goes on after those that have been made. -/
theorem expanded_isPrefix_run (p : Problem) (estimate : State → Binary64) (budget : ℕ)
    (s : Search) : s.expanded.toList <+: (run p estimate budget s).2.expanded.toList := by
  fun_induction run p estimate budget s with
  | case1 => exact List.prefix_rfl
  | case2 _ _ _ _ _ hnext => exact (expanded_of_next? hnext).symm ▸ List.prefix_rfl
  | case3 _ _ _ _ hnext => exact (expanded_of_next? hnext).symm ▸ List.prefix_rfl
  | case4 _ _ _ _ hnext _ _ ih =>
    rw [expanded_expand_of_next? hnext, Array.toList_push] at ih
    exact (List.prefix_append _ _).trans ih

/-- A run that does not end over budget is the run under every budget that allows for its
expansions. -/
theorem run_eq_of_size_le {budget budget' : ℕ} {s : Search}
    (hending : (run p estimate budget s).1 ≠ .overBudget)
    (hle : (run p estimate budget s).2.expanded.size ≤ s.expanded.size + budget') :
    run p estimate budget' s = run p estimate budget s := by
  fun_induction run p estimate budget s generalizing budget' with
  | case1 _ _ hnext => exact run_of_next?_eq_none hnext _
  | case2 _ _ _ _ _ hnext hcovered => exact run_of_satisfies hnext hcovered _
  | case3 => exact absurd rfl hending
  | case4 s number n rest hnext hopen budget ih =>
    have hsize : (rest.expand estimate p.actions number n).expanded.size =
        s.expanded.size + 1 := by
      rw [expanded_expand_of_next? hnext, Array.size_push]
    have hmade := (expanded_isPrefix_run p estimate budget
      (rest.expand estimate p.actions number n)).length_le
    rw [Array.length_toList, Array.length_toList] at hmade
    obtain ⟨budget', rfl⟩ := Nat.exists_eq_add_one_of_ne_zero (by omega : budget' ≠ 0)
    rw [run_succ_of_next? hnext hopen]
    exact ih hending (by omega)

/-- Under a budget that does not allow for all expansions of a run, the run makes the first of them
and ends over budget. -/
theorem run_of_lt_size {budget budget' : ℕ} {s : Search}
    (hlt : s.expanded.size + budget' < (run p estimate budget s).2.expanded.size) :
    (run p estimate budget' s).1 = .overBudget ∧
      (run p estimate budget' s).2.expanded.toList =
        (run p estimate budget s).2.expanded.toList.take (s.expanded.size + budget') := by
  fun_induction run p estimate budget s generalizing budget' with
  | case1 =>
    simp only at hlt
    omega
  | case2 _ _ _ _ _ hnext =>
    rw [expanded_of_next? hnext] at hlt
    omega
  | case3 _ _ _ _ hnext =>
    rw [expanded_of_next? hnext] at hlt
    omega
  | case4 s number n rest hnext hopen budget ih =>
    have hmade : (rest.expand estimate p.actions number n).expanded = s.expanded.push n :=
      expanded_expand_of_next? hnext
    cases budget' with
    | zero =>
      have hprefix := expanded_isPrefix_run p estimate budget
        (rest.expand estimate p.actions number n)
      rw [hmade, Array.toList_push] at hprefix
      have hfirst := List.prefix_iff_eq_take.1 ((List.prefix_append _ _).trans hprefix)
      rw [run_zero_of_next? hnext hopen, expanded_of_next? hnext]
      exact ⟨rfl, hfirst⟩
    | succ budget' =>
      have hsize : s.expanded.size + (budget' + 1) =
          (rest.expand estimate p.actions number n).expanded.size + budget' := by
        rw [hmade, Array.size_push]
        omega
      rw [hsize] at hlt ⊢
      rw [run_succ_of_next? hnext hopen]
      exact ih hlt

end Search

namespace Report

/-- A search answers if it finds a plan or says that there is none. -/
def Answers (r : Report) : Prop := (∃ steps, r.plan = .ok steps) ∨ r.plan = .error .noPlan

/-- A search answers unless it ends over budget. -/
theorem answers_iff {r : Report} : r.Answers ↔ r.ending ≠ .overBudget := by
  unfold Answers plan steps
  cases r.ending with
  | found number => simp [Except.map]
  | noPlan => simp [Except.map]
  | overBudget => simp [Except.map]

/-- A search that answers is the same search under every budget that allows for its expansions. -/
theorem ofSearch_eq_of_size_le {p : Problem} {estimate : State → Binary64} {budget budget' : ℕ}
    (h : (ofSearch p estimate budget).Answers)
    (hle : (ofSearch p estimate budget).final.expanded.size ≤ budget') :
    (ofSearch p estimate budget').ending = (ofSearch p estimate budget).ending ∧
      (ofSearch p estimate budget').final = (ofSearch p estimate budget).final := by
  have hrun := Search.run_eq_of_size_le (answers_iff.1 h)
    (Nat.le_trans hle (Nat.le_add_left budget' (Search.start estimate p.goal).expanded.size))
  unfold ofSearch
  rw [hrun]
  exact ⟨rfl, rfl⟩

/-- The plan, or the lack of one, is the same for searches of one problem that answer and stop at
the same place. -/
theorem plan_eq_of_ending_eq {r r' : Report} (hanswers : r.Answers)
    (hproblem : r'.problem = r.problem) (hending : r'.ending = r.ending)
    (hfinal : r'.final = r.final) : r'.plan = r.plan := by
  have hover := answers_iff.1 hanswers
  unfold plan steps
  rw [hproblem, hending, hfinal]
  cases hend : r.ending with
  | found | noPlan => rfl
  | overBudget => exact absurd hend hover

/-- Under a budget that does not allow for all expansions of a search, the search makes the first of
them and ends over budget. -/
theorem ofSearch_of_lt_size {p : Problem} {estimate : State → Binary64} {budget budget' : ℕ}
    (hlt : budget' < (ofSearch p estimate budget).final.expanded.size) :
    (ofSearch p estimate budget').ending = .overBudget ∧
      (ofSearch p estimate budget').final.expanded.toList =
        (ofSearch p estimate budget).final.expanded.toList.take budget' := by
  have hstart : (Search.start estimate p.goal).expanded.size + budget' = budget' :=
    Nat.zero_add budget'
  rw [← hstart] at hlt
  have hrun := Search.run_of_lt_size hlt
  rwa [hstart] at hrun

/-- A search that answers under some budget answers under another one exactly if that allows for
its expansions. -/
theorem answers_iff_size_le {p : Problem} {estimate : State → Binary64} {budget : ℕ}
    (h : (ofSearch p estimate budget).Answers) (budget' : ℕ) :
    (ofSearch p estimate budget').Answers ↔
      (ofSearch p estimate budget).final.expanded.size ≤ budget' := by
  have hmade (budget : ℕ) : (ofSearch p estimate budget).final.expanded.size ≤ budget := by
    have hsize := Search.size_expanded_run_le p estimate budget (Search.start estimate p.goal)
    rwa [show (Search.start estimate p.goal).expanded.size = 0 from rfl, Nat.zero_add] at hsize
  constructor
  · intro h'
    rcases Nat.le_total (ofSearch p estimate budget').final.expanded.size budget with hle | hle
    · rw [(ofSearch_eq_of_size_le h' hle).2]
      exact hmade budget'
    · exact Nat.le_trans (hmade budget) (Nat.le_trans hle (hmade budget'))
  · intro hle
    rw [answers_iff, (ofSearch_eq_of_size_le h hle).1]
    exact answers_iff.1 h

end Report

end GoalPlanning
