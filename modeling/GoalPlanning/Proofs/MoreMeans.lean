import GoalPlanning.Proofs.DominatedActions
import GoalPlanning.Proofs.Soundness
import GoalPlanning.Proofs.UnmetEstimate

/-!
# More means

Where more facts hold, the same actions can be performed, and more facts hold after them. So what
solves a problem also solves one with more actions, a current state that says more, or a goal that
asks for less. The two searches may go different ways, because the estimates and the residual goals
that are satisfied differ, but a plan of least cost can only get cheaper.
-/

namespace GoalPlanning

/-! ## Actions that occur in another list -/

/-- Every action of the first list occurs in the second one, as far as actions can be told apart. -/
def OccurIn (actions actions' : List Action) : Prop :=
  ∀ a ∈ actions, ∃ b ∈ actions', b.sameAs a = true

instance (actions actions' : List Action) : Decidable (OccurIn actions actions') :=
  inferInstanceAs (Decidable (∀ a ∈ actions, ∃ b ∈ actions', _))

namespace Action

/-- Of two interchangeable actions each dominates the other. -/
theorem dominates_of_sameAs {a b : Action} (h : b.sameAs a = true) : b.Dominates a := by
  obtain ⟨-, hcost, hpreconditions, heffects⟩ := sameAs_iff.1 h
  exact ⟨hpreconditions.symm, heffects.symm,
    (b.cost_isNonneg.numericLe_iff a.cost_isNonneg).2 hcost.le⟩

end Action

namespace OccurIn

variable {actions actions' : List Action}

/-- Actions that occur among actions with whole costs have whole costs. -/
theorem isWhole_cost (h : OccurIn actions actions') (hwhole : ∀ b ∈ actions', b.cost.IsWhole) :
    ∀ a ∈ actions, a.cost.IsWhole := by
  intro a ha
  obtain ⟨b, hb, hsame⟩ := h a ha
  have hwhole_b := b.cost_isNonneg.isWhole_iff.1 (hwhole b hb)
  rw [(Action.sameAs_iff.1 hsame).2.1] at hwhole_b
  exact a.cost_isNonneg.isWhole_iff.2 hwhole_b

/-- Their preconditions mention no other keys. -/
theorem keys_subset (h : OccurIn actions actions') (current goal : State) :
    Problem.keys ⟨actions, current, goal⟩ ⊆ Problem.keys ⟨actions', current, goal⟩ := by
  intro key hkey
  simp only [Problem.keys, Problem.vocabulary, List.mem_toFinset, List.map_append, List.map_flatMap,
    List.mem_append, List.mem_flatMap] at hkey ⊢
  refine hkey.imp_right ?_
  rintro ⟨a, ha, hkey⟩
  obtain ⟨b, hb, hsame⟩ := h a ha
  exact ⟨b, hb, (Action.sameAs_iff.1 hsame).2.2.1 ▸ hkey⟩

end OccurIn

/-! ## Solutions -/

/-- What some actions achieve, others that can replace them achieve as well, from a state that says
more, and at no higher cost. -/
theorem exists_perform_of_dominates {actions run : List Action}
    (hrun : ∀ a ∈ run, ∃ b ∈ actions, b.Dominates a) {s s' t : State}
    (hs : s'.satisfies s = true) (hperform : perform run s = .ok t) :
    ∃ run' t', (∀ b ∈ run', b ∈ actions) ∧ perform run' s' = .ok t' ∧ t'.satisfies t = true ∧
      totalUnits run' ≤ totalUnits run := by
  induction run generalizing s s' with
  | nil =>
    rw [perform, Except.ok.injEq] at hperform
    exact ⟨[], s', List.forall_mem_nil _, rfl, hperform ▸ hs, le_rfl⟩
  | cons a run ih =>
    obtain ⟨⟨b, hb, hdominates⟩, hrun⟩ := List.forall_mem_cons.1 hrun
    obtain ⟨hcan, hrest⟩ := perform_cons_eq_ok_iff.1 hperform
    have happly (s : State) : b.apply s = a.apply s := by
      rw [Action.apply, Action.apply, hdominates.effects_eq]
    obtain ⟨run', t', hrun', hperform', ht', hle⟩ := ih hrun (State.satisfies_apply hs a) hrest
    have hcan' : b.canPerform s' = true := by
      rw [Action.canPerform, ← hdominates.preconditions_eq]
      exact State.canPerform_of_satisfies hs hcan
    have hcost := Binary64.unitsOfCode_strictMono.monotone hdominates.magnitude_cost_le
    refine ⟨b :: run', t', List.forall_mem_cons.2 ⟨hb, hrun'⟩,
      perform_cons_eq_ok_iff.2 ⟨hcan', happly s' ▸ hperform'⟩, ht', ?_⟩
    rw [totalUnits_cons, totalUnits_cons]
    exact Nat.add_le_add hcost hle

/-- What solves a problem also solves one with more means, at no higher cost. -/
theorem Problem.IsSolution.exists_of_more {p q : Problem} {run : List Action}
    (hrun : p.IsSolution run) (hactions : OccurIn p.actions q.actions)
    (hcurrent : q.current.satisfies p.current = true) (hgoal : p.goal.satisfies q.goal = true) :
    ∃ run', q.IsSolution run' ∧ totalCost run' ≤ totalCost run := by
  obtain ⟨hmem, t, ht⟩ := hrun
  obtain ⟨hperform, hreached⟩ := simulate_eq_ok_iff.1 ht
  have hreplace : ∀ a ∈ run, ∃ b ∈ q.actions, b.Dominates a := by
    intro a ha
    obtain ⟨b, hb, hsame⟩ := hactions a (hmem a ha)
    exact ⟨b, hb, Action.dominates_of_sameAs hsame⟩
  obtain ⟨run', t', hrun', hperform', hmore, hle⟩ :=
    exists_perform_of_dominates hreplace hcurrent hperform
  have hreached' : t'.satisfies q.goal = true :=
    State.satisfies_trans hmore (State.satisfies_trans hreached hgoal)
  exact ⟨run', ⟨hrun', t', simulate_eq_ok_iff.2 ⟨hperform', hreached'⟩⟩, totalCost_le_iff.2 hle⟩

/-! ## Plans -/

/-- With more means planning also succeeds, whatever actions cost. -/
theorem exists_plan_of_more {p q : Problem} {steps : List Action}
    (hplan : plan p.actions p.current p.goal = .ok steps) (hactions : OccurIn p.actions q.actions)
    (hcurrent : q.current.satisfies p.current = true) (hgoal : p.goal.satisfies q.goal = true) :
    ∃ steps', plan q.actions q.current q.goal = .ok steps' := by
  obtain ⟨run, hrun, -⟩ :=
    (Planner.isSolution_of_plan_eq_ok hplan).exists_of_more hactions hcurrent hgoal
  rcases Strategy.exists_solution_or_noPlan Heuristic.unmet q with ⟨steps', h, -⟩ | ⟨-, hno⟩
  · exact ⟨steps', h⟩
  · exact absurd ⟨run, hrun⟩ hno

/-- If all costs are whole numbers, then the plan is no more expensive. -/
theorem exists_plan_le_of_more {p q : Problem} (hwhole : ∀ a ∈ q.actions, a.cost.IsWhole)
    (hkeys : q.keys.card ≤ 2 ^ 53) {steps : List Action}
    (hplan : plan p.actions p.current p.goal = .ok steps) (hlt : totalCost steps < 2 ^ 53)
    (hactions : OccurIn p.actions q.actions) (hcurrent : q.current.satisfies p.current = true)
    (hgoal : p.goal.satisfies q.goal = true) :
    ∃ steps', plan q.actions q.current q.goal = .ok steps' ∧
      totalCost steps' ≤ totalCost steps := by
  obtain ⟨run, hrun, hle⟩ :=
    (Planner.isSolution_of_plan_eq_ok hplan).exists_of_more hactions hcurrent hgoal
  obtain ⟨steps', hplan', -, hleast⟩ := Strategy.exists_least_plan
    (Problem.admissible_unmet hwhole hkeys none) hwhole hrun (hle.trans_lt hlt)
  exact ⟨steps', hplan', (hleast ⟨run, hrun, rfl⟩).trans hle⟩

/-- If the actions of two lists occur in each other, then the plans for one current state and goal
cost the same. -/
theorem totalCost_plan_eq {actions actions' steps steps' : List Action} {current goal : State}
    (hwhole : ∀ a ∈ actions', a.cost.IsWhole)
    (hkeys : (Problem.keys ⟨actions', current, goal⟩).card ≤ 2 ^ 53)
    (hactions : OccurIn actions actions') (hactions' : OccurIn actions' actions)
    (hplan : plan actions current goal = .ok steps)
    (hplan' : plan actions' current goal = .ok steps')
    (hlt : totalCost steps < 2 ^ 53 ∨ totalCost steps' < 2 ^ 53) :
    totalCost steps' = totalCost steps := by
  let p : Problem := ⟨actions, current, goal⟩
  let q : Problem := ⟨actions', current, goal⟩
  have hle (hlt : totalCost steps < 2 ^ 53) : totalCost steps' ≤ totalCost steps := by
    obtain ⟨other, hother, hle⟩ := exists_plan_le_of_more (p := p) (q := q) hwhole hkeys hplan
      hlt hactions current.satisfies_refl goal.satisfies_refl
    rwa [Except.ok.inj (hplan'.symm.trans hother)]
  have hge (hlt : totalCost steps' < 2 ^ 53) : totalCost steps ≤ totalCost steps' := by
    have hkeys_p := (Finset.card_le_card (hactions.keys_subset current goal)).trans hkeys
    obtain ⟨other, hother, hle⟩ := exists_plan_le_of_more (p := q) (q := p)
      (hactions.isWhole_cost hwhole) hkeys_p hplan' hlt hactions' current.satisfies_refl
      goal.satisfies_refl
    rwa [Except.ok.inj (hplan.symm.trans hother)]
  rcases hlt with hlt | hlt
  · exact le_antisymm (hle hlt) (hge ((hle hlt).trans_lt hlt))
  · exact le_antisymm (hle ((hge hlt).trans_lt hlt)) (hge hlt)

/-- **More means never hurt.** Let all costs be whole numbers. Let every action of one list occur in
another one, in whatever order and however often, let the second current state satisfy the first
one, and let the first goal satisfy the second one. If there is a plan with the first means and its
total is below 2 ^ 53, then there is a plan with the second means, and its total is no higher. If
the actions of the second list also occur in the first one, then planning with one list succeeds
exactly if it does with the other, and the plans cost the same if one of the totals is below
2 ^ 53. -/
theorem exists_plan_totalCost_le {actions actions' : List Action}
    {current current' goal goal' : State} (hwhole : ∀ a ∈ actions', a.cost.IsWhole)
    (hkeys : (Problem.keys ⟨actions', current', goal'⟩).card ≤ 2 ^ 53)
    (hactions : OccurIn actions actions') (hcurrent : current'.satisfies current = true)
    (hgoal : goal.satisfies goal' = true) :
    (∀ steps, plan actions current goal = .ok steps → totalCost steps < 2 ^ 53 →
        ∃ steps', plan actions' current' goal' = .ok steps' ∧
          totalCost steps' ≤ totalCost steps) ∧
      (OccurIn actions' actions →
        ((∃ steps, plan actions current' goal' = .ok steps) ↔
          ∃ steps', plan actions' current' goal' = .ok steps') ∧
        ∀ steps steps', plan actions current' goal' = .ok steps →
          plan actions' current' goal' = .ok steps' →
          totalCost steps < 2 ^ 53 ∨ totalCost steps' < 2 ^ 53 →
            totalCost steps' = totalCost steps) := by
  let p : Problem := ⟨actions, current', goal'⟩
  let q : Problem := ⟨actions', current', goal'⟩
  refine ⟨fun steps hplan hlt => ?_, fun hactions' => ⟨⟨?_, ?_⟩, ?_⟩⟩
  · exact exists_plan_le_of_more (p := ⟨actions, current, goal⟩) (q := q) hwhole hkeys hplan hlt
      hactions hcurrent hgoal
  · rintro ⟨steps, hplan⟩
    exact exists_plan_of_more (p := p) (q := q) hplan hactions current'.satisfies_refl
      goal'.satisfies_refl
  · rintro ⟨steps', hplan'⟩
    exact exists_plan_of_more (p := q) (q := p) hplan' hactions' current'.satisfies_refl
      goal'.satisfies_refl
  · intro steps steps' hplan hplan'
    exact totalCost_plan_eq hwhole hkeys hactions hactions' hplan hplan'

namespace WaysHome

/-- The actions in another order, one of them twice. -/
def shuffled : List Action := turn :: problem.actions.reverse

/-- From the stop on it costs no more to get home than from anywhere to home and the bridge, and the
shuffled actions lead home if the others do. -/
theorem exists_plan_shuffled :
    let goal := (place "home").insert "bridge" (.bool true)
    plan problem.actions problem.current goal = .ok [walk, turn, cross] ∧
      OccurIn problem.actions shuffled ∧ OccurIn shuffled problem.actions ∧
      (place "stop").satisfies problem.current = true ∧ goal.satisfies problem.goal = true ∧
      (∃ steps, plan shuffled (place "stop") problem.goal = .ok steps ∧ totalCost steps ≤ 7) ∧
      ∃ steps, plan problem.actions (place "stop") problem.goal = .ok steps := by
  intro goal
  have hplan : plan problem.actions problem.current goal = .ok [walk, turn, cross] := by
    decide +kernel
  have hactions : OccurIn problem.actions shuffled := by decide +kernel
  have hshuffled : OccurIn shuffled problem.actions := by decide +kernel
  have hcurrent : (place "stop").satisfies problem.current = true := by decide
  have hgoal : goal.satisfies problem.goal = true := by decide
  obtain ⟨hmore, hsame⟩ := exists_plan_totalCost_le (hshuffled.isWhole_cost isWhole_cost)
    (by decide +kernel) hactions hcurrent hgoal
  obtain ⟨steps, hsteps, hle⟩ := hmore _ hplan (by rw [totalCost_solution]; norm_num)
  rw [totalCost_solution] at hle
  have hplain := (hsame hshuffled).1.2 ⟨steps, hsteps⟩
  exact ⟨hplan, hactions, hshuffled, hcurrent, hgoal, ⟨steps, hsteps, hle⟩, hplain⟩

end WaysHome

end GoalPlanning
