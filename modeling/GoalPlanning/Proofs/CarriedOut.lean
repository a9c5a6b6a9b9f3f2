import GoalPlanning.Agent
import GoalPlanning.Proofs.Soundness
import Mathlib.Logic.Function.Iterate

/-!
# Carrying plans out

An agent that has found a plan foresees where the plan leads, gets there when it executes the plan,
and gets there one action after another as well. Where its intention cannot be carried out to the
end, an agent that goes on step by step comes as far as it can and then stays as it is.
-/

namespace GoalPlanning.Agent

/-! ## Steps -/

/-- An agent after a number of steps. -/
def advance (agent : Agent) (n : ℕ) : Agent := (fun a => a.step.2)^[n] agent

/-- How far an agent has come with its intention. -/
structure Progress (before : Agent) (done : List Action) (after : Agent) : Prop where
  /-- The agent still has its planner. -/
  planner : after.planner = before.planner
  /-- What has been done and what is left make up the intention. -/
  intention : before.intention = done ++ after.intention
  /-- What has been done leads from where the agent was to where it is. -/
  performed : perform done before.current = .ok after.current

variable {agent before after : Agent} {goal t : State} {done plan : List Action}

/-- An agent that performs nothing stays as it is. -/
theorem step_eq_self (h : agent.step.1 ≠ some true) : agent.step.2 = agent := by
  unfold step at h ⊢
  cases hintention : agent.intention with
  | nil => rfl
  | cons a rest =>
    simp only [hintention] at h ⊢
    split
    case isTrue hcan => simp [hcan] at h
    case isFalse => rfl

/-- An agent performs the first action that is left, if it can be performed. -/
theorem step_of_canPerform {a : Action} {rest : List Action} (h : agent.intention = a :: rest)
    (hcan : a.canPerform agent.current = true) : agent.step =
      (some true, { agent with current := a.apply agent.current, intention := rest }) := by
  simp only [step, h, hcan, if_true]

/-- If an agent performs something, then this is the first action that is left. -/
theorem exists_of_step_eq_true (h : agent.step.1 = some true) :
    ∃ a rest, agent.intention = a :: rest ∧ a.canPerform agent.current = true := by
  unfold step at h
  cases hintention : agent.intention with
  | nil => simp [hintention] at h
  | cons a rest =>
    refine ⟨a, rest, rfl, ?_⟩
    by_contra hcan
    simp [hintention, hcan] at h

/-- At first nothing has been done. -/
theorem Progress.refl (agent : Agent) : Progress agent [] agent := ⟨rfl, rfl, rfl⟩

/-- An action that is performed is added to what has been done. -/
theorem Progress.step (h : Progress before done after) (hstep : after.step.1 = some true) :
    ∃ a, Progress before (done ++ [a]) after.step.2 := by
  obtain ⟨a, rest, hintention, hcan⟩ := exists_of_step_eq_true hstep
  have hlast : perform [a] after.current = .ok (a.apply after.current) :=
    perform_cons_eq_ok_iff.2 ⟨hcan, rfl⟩
  refine ⟨a, ?_⟩
  rw [step_of_canPerform hintention hcan]
  refine ⟨h.planner, ?_, perform_append_eq_ok_iff.2 ⟨_, h.performed, hlast⟩⟩
  rw [h.intention, hintention, List.append_assoc]
  rfl

/-- **Agents come as far as they can.** In a number of steps an agent performs as many actions of
its intention, unless it comes to the end of them or to one that cannot be performed. -/
theorem exists_progress_advance (agent : Agent) (n : ℕ) :
    ∃ done, Progress agent done (agent.advance n) ∧
      (done.length = n ∨ done.length < n ∧ (agent.advance n).step.1 ≠ some true) := by
  induction n with
  | zero => exact ⟨[], .refl agent, Or.inl rfl⟩
  | succ n ih =>
    obtain ⟨done, hprogress, hdone⟩ := ih
    have hnext : agent.advance (n + 1) = (agent.advance n).step.2 :=
      Function.iterate_succ_apply' _ n agent
    rw [hnext]
    by_cases hstep : (agent.advance n).step.1 = some true
    · obtain ⟨a, ha⟩ := hprogress.step hstep
      have hlength : done.length = n := hdone.resolve_right fun h => h.2 hstep
      exact ⟨done ++ [a], ha, Or.inl (by simp [hlength])⟩
    · rw [step_eq_self hstep]
      exact ⟨done, hprogress, Or.inr ⟨by omega, hstep⟩⟩

/-- An intention that can be performed is performed one action after another. -/
theorem advance_of_perform_eq_ok (h : perform agent.intention agent.current = .ok t) :
    agent.advance agent.intention.length = { agent with current := t, intention := [] } := by
  obtain ⟨done, hprogress, hdone⟩ := agent.exists_progress_advance agent.intention.length
  generalize agent.advance agent.intention.length = after at hprogress hdone
  obtain ⟨hplanner, hintention, hperformed⟩ := hprogress
  -- What is left can be performed, so nothing but its end can have stopped the agent.
  rw [hintention] at h
  obtain ⟨u, hu, hleft⟩ := perform_append_eq_ok_iff.1 h
  obtain rfl : after.current = u := Except.ok.inj (hperformed.symm.trans hu)
  have hnil : after.intention = [] := by
    rcases hdone with hlength | ⟨-, hstops⟩
    · have := congrArg List.length hintention
      rw [List.length_append] at this
      exact List.length_eq_zero_iff.1 (by omega)
    · cases hrest : after.intention with
      | nil => rfl
      | cons a rest =>
        rw [hrest] at hleft
        have hcan := (perform_cons_eq_ok_iff.1 hleft).1
        exact absurd (congrArg Prod.fst (step_of_canPerform hrest hcan)) hstops
  rw [hnil] at hleft
  obtain rfl : after.current = t := Except.ok.inj hleft
  obtain ⟨planner, current, intention⟩ := after
  rw [Agent.mk.injEq]
  exact ⟨hplanner, rfl, hnil⟩

/-! ## Plans -/

/-- An agent searches with its planner from where it is. -/
theorem planFor_report (agent : Agent) (goal : State) :
    (agent.planFor goal).1 = agent.planner.report agent.current goal := by
  unfold planFor
  dsimp only
  split <;> rfl

/-- An agent that finds a plan intends it. -/
theorem planFor_of_plan_eq_ok (h : agent.planner.plan agent.current goal = .ok plan) :
    (agent.planFor goal).2 = { agent with intention := plan } := by
  have hreport : (agent.planner.report agent.current goal).plan = .ok plan := h
  unfold planFor
  simp only [hreport]

/-- An agent that finds no plan stays as it is. -/
theorem planFor_of_plan_eq_error {f : Failure}
    (h : agent.planner.plan agent.current goal = .error f) : (agent.planFor goal).2 = agent := by
  have hreport : (agent.planner.report agent.current goal).plan = .error f := h
  unfold planFor
  simp only [hreport]

/-- **Plans are carried out.** An agent that finds a plan intends it, and foresees a state in which
the goal holds. It is in this state after it has executed the plan, and it is in this state with
nothing left to do after as many steps as the plan has actions. -/
theorem planFor_carriedOut (h : (agent.planFor goal).1.plan = .ok plan) :
    (agent.planFor goal).2 = { agent with intention := plan } ∧
      ∃ t, t.satisfies goal = true ∧ (agent.planFor goal).2.foresee goal = .ok t ∧
        (agent.planFor goal).2.execute goal =
          (.ok t, { agent with current := t, intention := plan }) ∧
        (agent.planFor goal).2.advance plan.length =
          { agent with current := t, intention := [] } := by
  rw [planFor_report] at h
  have hafter := planFor_of_plan_eq_ok h
  obtain ⟨-, t, ht⟩ := Planner.isSolution_of_plan_eq_ok h
  obtain ⟨hperform, hgoal⟩ := simulate_eq_ok_iff.1 ht
  have hforesee : foresee { agent with intention := plan } goal = .ok t := ht
  rw [hafter]
  refine ⟨rfl, t, hgoal, hforesee, ?_, advance_of_perform_eq_ok hperform⟩
  simp only [execute, hforesee]

end GoalPlanning.Agent
