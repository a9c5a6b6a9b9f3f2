import GoalPlanning.Proofs.Search.Exploration
import GoalPlanning.Proofs.Search.Termination

/-!
# No solution escapes a search

A search drops routes that are no cheaper than known ones, never expands a closed residual goal,
and follows estimates that may be anything. Still no solution escapes it: followed backward from
the goal, every solution comes to a residual goal that is reached but not closed, and a node for
it waits in the frontier. So a search that runs out of nodes has shown that there is no solution.
-/

namespace GoalPlanning

namespace Search

variable {p : Problem} {estimate : State → Binary64} {s : Search}

/-- A residual goal has been reached, and if the estimate is steady, then at no higher cost than
that of the actions after it. -/
def ReachedBy (p : Problem) (estimate : State → Binary64) (s : Search) (residual : State)
    (later : List Action) : Prop :=
  ∃ g, s.best[residual]? = some g ∧
    (p.Steady estimate → g.magnitude ≤ (summedCost later).magnitude)

/-- What one of the actions leads from to a closed residual goal has been reached too. -/
theorem Reachable.reachedBy_cons (hs : Reachable p estimate s) {residual before : State}
    {a : Action} {later : List Action} (hreached : ReachedBy p estimate s residual later)
    (hclosed : residual ∈ s.closed) (ha : a ∈ p.actions)
    (hregress : a.regress? residual = some before) :
    ReachedBy p estimate s before (a :: later) := by
  obtain ⟨g, hg, hle⟩ := hreached
  have hunsigned := (hs.ledger.unsigned hs.arena).2 residual g hg
  obtain ⟨cost, hcost, haccounted⟩ := hs.explored residual g hg
  cases haccounted with
  | waiting hopen => exact absurd hclosed hopen
  | settled _ _ hsettled =>
    obtain ⟨g', hg', hle'⟩ := hsettled a ha before hregress
    refine ⟨g', hg', fun hsteady => ?_⟩
    rw [hcost hsteady] at hle'
    exact hle'.trans (hunsigned.magnitude_add_mono (summedCost_isUnsigned later) a.cost_isNonneg
      (hle hsteady))

/-- At every moment of a run each solution passes an open residual goal that a node waits for. If
the estimate is steady, the node costs no more than the rest of the solution. -/
theorem Reachable.exists_waits (hs : Reachable p estimate s) {run : List Action}
    (hrun : p.IsSolution run) :
    ∃ earlier later residual cost, run = earlier ++ later ∧
      (p.withGoal residual).IsSolution earlier ∧ residual ∉ s.closed ∧ s.Waits residual cost ∧
      (p.Steady estimate → cost.magnitude ≤ (summedCost later).magnitude) := by
  have hgoal : ReachedBy p estimate s p.goal [] := by
    obtain ⟨g, hg, hzero⟩ := hs.exists_best_goal
    exact ⟨g, hg, fun _ => hzero ▸ Nat.zero_le _⟩
  have hskip : ∀ residual a later, ReachedBy p estimate s residual later →
      ReachedBy p estimate s residual (a :: later) := by
    rintro residual a later ⟨g, hg, hle⟩
    exact ⟨g, hg, fun hsteady => (hle hsteady).trans (summedCost_le_cons a later)⟩
  have hcurrent : ∀ residual later, ReachedBy p estimate s residual later →
      p.current.satisfies residual = true → residual ∉ s.closed := by
    rintro residual later ⟨g, hg, -⟩ hcovered
    obtain ⟨cost, -, haccounted⟩ := hs.explored residual g hg
    cases haccounted with
    | waiting hopen => exact hopen
    | settled _ hunsatisfied => simp [hcovered] at hunsatisfied
  obtain ⟨earlier, later, residual, hsplit, hearlier, ⟨g, hg, hle⟩, hopen⟩ :=
    hrun.exists_open hgoal hskip (fun _ _ _ _ hreached hclosed =>
      hs.reachedBy_cons hreached (not_not.1 hclosed)) hcurrent
  obtain ⟨cost, hcost, haccounted⟩ := hs.explored residual g hg
  cases haccounted with
  | settled hclosed => exact absurd hclosed hopen
  | waiting _ hwaits =>
    have hlater : p.Steady estimate → cost.magnitude ≤ (summedCost later).magnitude := by
      intro hsteady
      rw [hcost hsteady]
      exact hle hsteady
    exact ⟨earlier, later, residual, cost, hsplit, hearlier, hopen, hwaits, hlater⟩

/-- While there is a solution, a node can be taken. -/
theorem Reachable.next?_ne_none (hs : Reachable p estimate s) {run : List Action}
    (hrun : p.IsSolution run) : s.next? ≠ none := by
  intro hnone
  obtain ⟨earlier, later, residual, cost, -, -, hopen, ⟨i, n, hn, rfl, -, hentry⟩, -⟩ :=
    hs.exists_waits hrun
  exact hopen (mem_closed_of_next?_eq_none hnone hentry hn)

end Search

/-- A search without a limit either finds a solution or says that there is no plan, and then there
is no solution. -/
theorem Strategy.exists_solution_or_noPlan (heuristic : Heuristic) (p : Problem) :
    (∃ steps, (Strategy.search ⟨heuristic, none⟩ p).plan = .ok steps ∧ p.IsSolution steps) ∨
      ((Strategy.search ⟨heuristic, none⟩ p).plan = .error .noPlan ∧ ¬∃ run, p.IsSolution run) := by
  obtain ⟨s, hs, ⟨number, n, rest, hnext, hcovered, hplan⟩ | ⟨hnone, hplan⟩⟩ :=
    Strategy.exists_outcome_of_unlimited heuristic p
  · obtain ⟨e, rfl, htakes⟩ := Search.takes_of_next? hnext
    exact Or.inl ⟨_, hplan, hs.isSolution htakes.node hcovered⟩
  · refine Or.inr ⟨hplan, ?_⟩
    rintro ⟨run, hrun⟩
    exact hs.next?_ne_none hrun hnone

/-- **Completeness.** Whatever the estimates are, a search without a limit finds a plan if some
sequence of actions can be performed and reaches the goal, and says that there is no plan if there
is no such sequence. -/
theorem Strategy.plan_eq_noPlan_iff (heuristic : Heuristic) (p : Problem) :
    ((Strategy.search ⟨heuristic, none⟩ p).plan = .error .noPlan ↔ ¬∃ run, p.IsSolution run) ∧
      ((Strategy.search ⟨heuristic, none⟩ p).plan ≠ .error .noPlan →
        ∃ steps, (Strategy.search ⟨heuristic, none⟩ p).plan = .ok steps) := by
  rcases Strategy.exists_solution_or_noPlan heuristic p with ⟨steps, hplan, hsteps⟩ | ⟨hplan, hno⟩
  · have hsolution : ∃ run, p.IsSolution run := ⟨steps, hsteps⟩
    rw [hplan]
    constructor
    · exact ⟨nofun, fun hno => absurd hsolution hno⟩
    · exact fun _ => ⟨steps, rfl⟩
  · rw [hplan]
    constructor
    · exact ⟨fun _ => hno, fun _ => rfl⟩
    · exact fun hne => absurd rfl hne

end GoalPlanning
