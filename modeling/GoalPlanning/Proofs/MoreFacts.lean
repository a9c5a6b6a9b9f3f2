import GoalPlanning.Proofs.LastWriter
import GoalPlanning.Proofs.Soundness

/-!
# Plans in richer states

A plan that has been made for one state is often carried out in another one, in which more is known.
Facts that the plan does not expect are no obstacle: nothing asks for the absence of a fact, and an
effect overwrites whatever value its key has. So the same plan works, it achieves at least what it
did, and facts that none of its actions touches are still there at the end.
-/

namespace GoalPlanning

/-- A run that can be performed from a state can be performed from one that says more, and leads to
one that says more. -/
theorem exists_perform_of_satisfies {run : List Action} {s s' t : State}
    (hs : s'.satisfies s = true) (h : perform run s = .ok t) :
    ∃ t', perform run s' = .ok t' ∧ t'.satisfies t = true := by
  induction run generalizing s s' with
  | nil =>
    rw [perform, Except.ok.injEq] at h
    exact ⟨s', rfl, h ▸ hs⟩
  | cons a run ih =>
    obtain ⟨hcan, hrest⟩ := perform_cons_eq_ok_iff.1 h
    obtain ⟨t', ht', hmore⟩ := ih (State.satisfies_apply hs a) hrest
    have hcan' := State.canPerform_of_satisfies hs hcan
    exact ⟨t', perform_cons_eq_ok_iff.2 ⟨hcan', ht'⟩, hmore⟩

/-- A run keeps the facts that none of its actions has an effect on. -/
theorem get?_of_perform_of_forall_eq_none {run : List Action} {s t : State}
    (h : perform run s = .ok t) {key : String} (hkey : ∀ a ∈ run, a.effects.get? key = none) :
    t.get? key = s.get? key := by
  rw [get?_of_perform_eq_ok h, valueAfter_of_forall_eq_none hkey]

/-- **A plan stays good where more is known or less is asked for.** Let a plan lead from a state to
a goal. From a state that satisfies the first one it leads to every goal that the first goal
satisfies. The state at its end satisfies the one that it led to at first, and every key on which
the plan has no effect is as it was at the beginning. -/
theorem exists_simulate_of_satisfies {plan : List Action} {current current' goal goal' s : State}
    (hcurrent : current'.satisfies current = true) (hgoal : goal.satisfies goal' = true)
    (h : simulate plan current goal = .ok s) :
    ∃ s', simulate plan current' goal' = .ok s' ∧ s'.satisfies s = true ∧
      ∀ key, (∀ a ∈ plan, a.effects.get? key = none) → s'.get? key = current'.get? key := by
  obtain ⟨hperform, hreached⟩ := simulate_eq_ok_iff.1 h
  obtain ⟨s', hperform', hmore⟩ := exists_perform_of_satisfies hcurrent hperform
  have hreached' : s'.satisfies goal' = true :=
    State.satisfies_trans hmore (State.satisfies_trans hreached hgoal)
  exact ⟨s', simulate_eq_ok_iff.2 ⟨hperform', hreached'⟩, hmore,
    fun key hkey => get?_of_perform_of_forall_eq_none hperform' hkey⟩

namespace Chest

/-- It is also known that the chest is closed, which the plan will change, and how old it is. -/
def known : State := (current.insert "chestOpen" (.bool false)).insert "age" (.int 300)

/-- The chest is to be open, with or without the key. -/
def opened : State := State.empty.insert "chestOpen" (.bool true)

/-- The plan for the chest does without what else is known. The chest is as old as before. -/
theorem simulate_known :
    known.satisfies current = true ∧ goal.satisfies opened = true ∧
      simulate [openChest, forgeKey] current goal = .ok goal ∧
      ∃ s, simulate [openChest, forgeKey] known opened = .ok s ∧ s.satisfies goal = true ∧
        s.get? "age" = some (.int 300) := by
  have hcurrent : known.satisfies current = true := by decide
  have hgoal : goal.satisfies opened = true := by decide
  have hplan : simulate [openChest, forgeKey] current goal = .ok goal := by decide
  obtain ⟨s, hs, hmore, hkept⟩ := exists_simulate_of_satisfies hcurrent hgoal hplan
  refine ⟨hcurrent, hgoal, hplan, s, hs, hmore, ?_⟩
  rw [hkept "age" (by decide)]
  decide

end Chest

end GoalPlanning
