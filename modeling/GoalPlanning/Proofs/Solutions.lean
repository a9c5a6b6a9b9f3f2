import GoalPlanning.Problem
import GoalPlanning.Proofs.WeakestPrecondition
import GoalPlanning.Simulation

/-!
# Solutions and their residual goals

A solution of a problem is a sequence of its actions that can be performed from the current state
on and reaches the goal. Followed backward, a solution regresses the goal through its actions,
except through those that make no difference. Whatever a backward search has reached, the residual
goals on this way are reached up to one that the search has not expanded yet, because the current
state satisfies the last of them.
-/

namespace GoalPlanning

/-! ## Performing actions -/

/-- An action that can be performed in a state can be performed in one that says more. -/
theorem State.canPerform_of_satisfies {s s' : State} (hs : s'.satisfies s = true) {a : Action}
    (h : a.canPerform s = true) : a.canPerform s' = true :=
  satisfies_trans hs h

/-- An action keeps that one state says more than another one. -/
theorem State.satisfies_apply {s s' : State} (hs : s'.satisfies s = true) (a : Action) :
    (a.apply s').satisfies (a.apply s) = true := by
  rw [satisfies_iff] at *
  intro key value hvalue
  rw [Action.get?_apply, Option.or_eq_some_iff] at hvalue ⊢
  exact hvalue.imp_right (And.imp_right (hs key value))

/-- A sequence starting with an action can be performed if the action can, and the rest can after
it. -/
theorem perform_cons_eq_ok_iff {a : Action} {rest : List Action} {s t : State} :
    perform (a :: rest) s = .ok t ↔ a.canPerform s = true ∧ perform rest (a.apply s) = .ok t := by
  rw [perform]
  cases a.canPerform s <;> simp

/-- A sequence can be performed part by part. -/
theorem perform_append_eq_ok_iff {run run' : List Action} {s t : State} :
    perform (run ++ run') s = .ok t ↔ ∃ u, perform run s = .ok u ∧ perform run' u = .ok t := by
  induction run generalizing s with
  | nil => simp [perform]
  | cons a run ih => simp only [List.cons_append, perform_cons_eq_ok_iff, ih, and_assoc,
      exists_and_left]

/-- A simulation succeeds if all actions can be performed and the goal holds after them. -/
theorem simulate_eq_ok_iff {run : List Action} {s goal t : State} :
    simulate run s goal = .ok t ↔ perform run s = .ok t ∧ t.satisfies goal = true := by
  unfold simulate
  cases hperform : perform run s with
  | error f => simp
  | ok u =>
    dsimp only
    rw [Except.ok.injEq]
    split
    case isTrue hgoal =>
      rw [Except.ok.injEq]
      exact ⟨fun h => ⟨h, h ▸ hgoal⟩, And.left⟩
    case isFalse hgoal =>
      simp only [reduceCtorEq, false_iff, not_and]
      intro h
      rwa [← h]

/-! ## Solutions -/

/-- Whether a sequence of actions of the problem can be performed from the current state on and
reaches the goal. -/
def Problem.IsSolution (p : Problem) (run : List Action) : Prop :=
  (∀ a ∈ run, a ∈ p.actions) ∧ ∃ s, simulate run p.current p.goal = .ok s

/-- The problem of making a residual goal hold. -/
def Problem.withGoal (p : Problem) (residual : State) : Problem := { p with goal := residual }

/-- A sequence of two parts is a solution if the second one is a solution from where the first one
leads. -/
theorem Problem.isSolution_append_iff {p : Problem} {run run' : List Action} :
    p.IsSolution (run ++ run') ↔ (∀ a ∈ run, a ∈ p.actions) ∧
      ∃ u, perform run p.current = .ok u ∧ { p with current := u }.IsSolution run' := by
  simp only [IsSolution, List.forall_mem_append, simulate_eq_ok_iff, perform_append_eq_ok_iff]
  constructor
  · rintro ⟨⟨hrun, hrun'⟩, t, ⟨u, hu, ht⟩, hgoal⟩
    exact ⟨hrun, u, hu, hrun', t, ht, hgoal⟩
  · rintro ⟨hrun, u, hu, hrun', t, ht, hgoal⟩
    exact ⟨⟨hrun, hrun'⟩, t, ⟨u, hu, ht⟩, hgoal⟩

section Regression

variable {p : Problem} {Reached : State → List Action → Prop} {Open : State → Prop}

/-- The induction behind `Problem.IsSolution.exists_open`, from the last action to the first.
Either the way back to the state before the run has been reached, or an open residual goal lies on
it. -/
theorem reached_or_exists_open (hgoal : Reached p.goal [])
    (hskip : ∀ residual a run, Reached residual run → Reached residual (a :: run))
    (hregress : ∀ residual before a run, Reached residual run → ¬Open residual → a ∈ p.actions →
      a.regress? residual = some before → Reached before (a :: run))
    {run : List Action} (hrun : ∀ a ∈ run, a ∈ p.actions) {s t : State}
    (hperform : perform run s = .ok t) (ht : t.satisfies p.goal = true) :
    (∃ residual, Reached residual run ∧ s.satisfies residual = true) ∨
      ∃ earlier later residual u, run = earlier ++ later ∧ perform earlier s = .ok u ∧
        u.satisfies residual = true ∧ Reached residual later ∧ Open residual := by
  induction run generalizing s with
  | nil =>
    rw [perform, Except.ok.injEq] at hperform
    exact Or.inl ⟨p.goal, hgoal, hperform ▸ ht⟩
  | cons a run ih =>
    obtain ⟨ha, hrun⟩ := List.forall_mem_cons.1 hrun
    obtain ⟨hcan, hrest⟩ := perform_cons_eq_ok_iff.1 hperform
    rcases ih hrun hrest with
      ⟨residual, hreached, hs⟩ | ⟨earlier, later, residual, u, rfl, hu, hsat, hreached, hopen⟩
    · by_cases hopen : Open residual
      · have hfirst : perform [a] s = .ok (a.apply s) := perform_cons_eq_ok_iff.2 ⟨hcan, rfl⟩
        exact Or.inr ⟨[a], run, residual, a.apply s, rfl, hfirst, hs, hreached, hopen⟩
      · left
        rcases Action.satisfies_or_regress? hcan hs with hbefore | ⟨before, hregressed, hbefore⟩
        · exact ⟨residual, hskip residual a run hreached, hbefore⟩
        · exact ⟨before, hregress residual before a run hreached hopen ha hregressed, hbefore⟩
    · have hearlier : perform (a :: earlier) s = .ok u := perform_cons_eq_ok_iff.2 ⟨hcan, hu⟩
      exact Or.inr ⟨a :: earlier, later, residual, u, rfl, hearlier, hsat, hreached, hopen⟩

/-- Every solution passes an open residual goal. `Reached residual later` may say anything about a
residual goal and the actions from it to the goal that is true of the goal, is kept when an action
is left out, and is kept by regression unless the residual goal is open. The solution up to the
open residual goal solves the problem of making it hold. -/
theorem Problem.IsSolution.exists_open {run : List Action} (h : p.IsSolution run)
    (hgoal : Reached p.goal [])
    (hskip : ∀ residual a run, Reached residual run → Reached residual (a :: run))
    (hregress : ∀ residual before a run, Reached residual run → ¬Open residual → a ∈ p.actions →
      a.regress? residual = some before → Reached before (a :: run))
    (hcurrent : ∀ residual run, Reached residual run → p.current.satisfies residual = true →
      Open residual) :
    ∃ earlier later residual, run = earlier ++ later ∧
      (p.withGoal residual).IsSolution earlier ∧ Reached residual later ∧ Open residual := by
  obtain ⟨hrun, t, ht⟩ := h
  obtain ⟨hperform, hsat⟩ := simulate_eq_ok_iff.1 ht
  rcases reached_or_exists_open hgoal hskip hregress hrun hperform hsat with
    ⟨residual, hreached, hs⟩ | ⟨earlier, later, residual, u, rfl, hu, hs, hreached, hopen⟩
  · have hnothing : (p.withGoal residual).IsSolution [] :=
      ⟨by simp, p.current, simulate_eq_ok_iff.2 ⟨rfl, hs⟩⟩
    exact ⟨[], run, residual, rfl, hnothing, hreached, hcurrent residual run hreached hs⟩
  · have hactions : ∀ a ∈ earlier, a ∈ p.actions := by
      intro a ha
      exact hrun a (List.mem_append_left _ ha)
    have hearlier : (p.withGoal residual).IsSolution earlier :=
      ⟨hactions, u, simulate_eq_ok_iff.2 ⟨hu, hs⟩⟩
    exact ⟨earlier, later, residual, rfl, hearlier, hreached, hopen⟩

end Regression

end GoalPlanning
