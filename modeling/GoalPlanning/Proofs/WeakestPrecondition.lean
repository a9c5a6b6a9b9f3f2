import GoalPlanning.Regression
import GoalPlanning.State.Lemmas
import Mathlib.Tactic.ByContra

/-!
# Regression gives weakest preconditions

A residual goal regressed through an action holds in exactly those states in which the action can
be performed and leads to the residual goal. Where regression gives nothing, either no state is
led to the residual goal, or the action makes no difference to it. So a run that ends in a state
with the residual goal can be followed backward one action at a time, and actions that make no
difference are left out.
-/

namespace GoalPlanning

namespace State

/-- Two states are not in conflict if they agree on every key that both give a value. -/
theorem conflictsWith_eq_false_iff {s t : State} :
    s.conflictsWith t = false ↔
      ∀ key value value', s.get? key = some value → t.get? key = some value' → value = value' := by
  rw [← Bool.not_eq_true, conflictsWith_iff]
  constructor
  · intro h key value value' hs ht
    by_contra hne
    exact h ⟨key, value, value', hs, ht, hne⟩
  · rintro h ⟨key, value, value', hs, ht, hne⟩
    exact hne (h key value value' hs ht)

/-- Two states are not in conflict exactly if their merge keeps all that the first one says. -/
theorem satisfies_merge_iff {s t : State} :
    (s.merge t).satisfies s = true ↔ s.conflictsWith t = false := by
  rw [satisfies_iff, conflictsWith_eq_false_iff]
  constructor
  · intro h key value value' hs ht
    have hmerge := h key value hs
    rw [get?_merge, ht, Option.some_or, Option.some.injEq] at hmerge
    exact hmerge.symm
  · intro h key value hs
    rw [get?_merge]
    cases ht : t.get? key with
    | none => rw [Option.none_or, hs]
    | some value' => rw [Option.some_or, h key value value' hs ht]

end State

namespace Action

/-- An action can be performed where each of its preconditions holds. -/
theorem canPerform_iff {a : Action} {s : State} :
    a.canPerform s = true ↔
      ∀ key value, a.preconditions.get? key = some value → s.get? key = some value :=
  State.satisfies_iff

/-- After an action its effects hold and everything else is as before. -/
@[simp] theorem get?_apply (a : Action) (s : State) (key : String) :
    (a.apply s).get? key = (a.effects.get? key).or (s.get? key) :=
  State.get?_merge s a.effects key

/-- An action is relevant to a residual goal if one of its effects is a condition of it. -/
theorem isRelevantTo_iff {a : Action} {residual : State} :
    a.isRelevantTo residual = true ↔
      ∃ key value, residual.get? key = some value ∧ a.effects.get? key = some value := by
  simp only [isRelevantTo, List.any_eq_true, beq_iff_eq]
  constructor
  · rintro ⟨e, he, heffect⟩
    exact ⟨e.1, e.2, State.mem_entries_iff.1 he, heffect⟩
  · rintro ⟨key, value, hresidual, heffect⟩
    exact ⟨(key, value), State.mem_entries_iff.2 hresidual, heffect⟩

/-- An action is irrelevant to a residual goal exactly if all of it remains after the action. -/
theorem isRelevantTo_eq_false_iff {a : Action} {residual : State} :
    a.isRelevantTo residual = false ↔ residual.without a.effects = residual := by
  rw [← Bool.not_eq_true, isRelevantTo_iff]
  constructor
  · intro h
    refine State.ext_get? fun key => ?_
    rw [State.get?_without]
    cases hresidual : residual.get? key with
    | none => rw [ite_self]
    | some value => rw [if_neg fun heffect => h ⟨key, value, hresidual, heffect⟩]
  · rintro h ⟨key, value, hresidual, heffect⟩
    have hkey := congrArg (State.get? · key) h
    simp [hresidual, heffect] at hkey

/-- When regression succeeds, and with what. -/
theorem regress?_eq_some_iff {a : Action} {residual before : State} :
    a.regress? residual = some before ↔
      a.isRelevantTo residual = true ∧ a.effects.conflictsWith residual = false ∧
      a.preconditions.conflictsWith (residual.without a.effects) = false ∧
      before = (residual.without a.effects).merge a.preconditions := by
  unfold regress?
  dsimp only
  cases hrelevant : a.isRelevantTo residual <;>
    cases heffects : a.effects.conflictsWith residual <;>
    cases hpre : a.preconditions.conflictsWith (residual.without a.effects) <;>
    simp [eq_comm (b := before)]

/-- What a regressed residual goal asks of a key: the precondition, or else the condition that no
effect resolves. -/
theorem get?_of_regress?_eq_some {a : Action} {residual before : State}
    (h : a.regress? residual = some before) (key : String) :
    before.get? key = (a.preconditions.get? key).or
      (if a.effects.get? key = residual.get? key then none else residual.get? key) := by
  obtain ⟨-, -, -, rfl⟩ := regress?_eq_some_iff.1 h
  rw [State.get?_merge, State.get?_without]

/-- A regressed residual goal only asks for what the residual goal or a precondition asks for. -/
theorem mem_of_regress?_eq_some {a : Action} {residual before : State}
    (h : a.regress? residual = some before) {e : Fact} (he : e ∈ before.entries) :
    e ∈ residual.entries ∨ e ∈ a.preconditions.entries := by
  rw [State.mem_entries_iff, get?_of_regress?_eq_some h, Option.or_eq_some_iff] at he
  rcases he with hpre | ⟨-, hresidual⟩
  · exact Or.inr (State.mem_entries_iff.2 hpre)
  · left
    rw [State.mem_entries_iff]
    split at hresidual
    · cases hresidual
    · exact hresidual

/-- A regressed residual goal is the weakest precondition: it holds where the action can be
performed and leads to the residual goal, and nowhere else. -/
theorem satisfies_regress?_iff {a : Action} {residual before : State}
    (h : a.regress? residual = some before) (s : State) :
    s.satisfies before = true ↔
      a.canPerform s = true ∧ (a.apply s).satisfies residual = true := by
  obtain ⟨-, heffects, hpre, -⟩ := regress?_eq_some_iff.1 h
  rw [State.conflictsWith_eq_false_iff] at heffects hpre
  simp only [State.get?_without] at hpre
  simp only [State.satisfies_iff, canPerform_iff, get?_of_regress?_eq_some h, get?_apply,
    Option.or_eq_some_iff]
  constructor
  · intro hs
    constructor
    · intro key value hkey
      exact hs key value (Or.inl hkey)
    · intro key value hkey
      cases heffect : a.effects.get? key with
      | some effect => exact Or.inl (by rw [heffects key effect value heffect hkey])
      | none =>
        right
        have hleft : ¬a.effects.get? key = residual.get? key := by simp [heffect, hkey]
        cases hprecondition : a.preconditions.get? key with
        | none =>
          have hcondition := hs key value (Or.inr ⟨hprecondition, by rw [if_neg hleft, hkey]⟩)
          exact ⟨rfl, hcondition⟩
        | some value' =>
          have heq := hpre key value' value hprecondition (by rw [if_neg hleft, hkey])
          have hcondition := hs key value (Or.inl (by rw [hprecondition, heq]))
          exact ⟨rfl, hcondition⟩
  · rintro ⟨hperform, hs⟩ key value (hprecondition | ⟨-, hcondition⟩)
    · exact hperform key value hprecondition
    · split at hcondition
      · cases hcondition
      case isFalse hleft =>
        rcases hs key value hcondition with heffect | ⟨-, hbefore⟩
        · exact absurd (heffect.trans hcondition.symm) hleft
        · exact hbefore

/-- Regression refuses an action only if no state is led to the residual goal, or if the residual
goal can only hold after the action where it holds before. -/
theorem of_regress?_eq_none {a : Action} {residual : State} (h : a.regress? residual = none) :
    (∀ s : State, ¬(a.canPerform s = true ∧ (a.apply s).satisfies residual = true)) ∨
      ∀ s : State, (a.apply s).satisfies residual = true → s.satisfies residual = true := by
  have hrefused : ¬(a.isRelevantTo residual = true ∧ a.effects.conflictsWith residual = false ∧
      a.preconditions.conflictsWith (residual.without a.effects) = false) := by
    rintro ⟨hrelevant, heffects, hpre⟩
    simp [regress?_eq_some_iff.2 ⟨hrelevant, heffects, hpre, rfl⟩] at h
  simp only [State.satisfies_iff, canPerform_iff, get?_apply, Option.or_eq_some_iff]
  by_cases hrelevant : a.isRelevantTo residual = true
  · left
    rintro s ⟨hperform, hs⟩
    -- An effect that undoes a condition would stand in the state after the action.
    have heffects : a.effects.conflictsWith residual = false := by
      rw [State.conflictsWith_eq_false_iff]
      intro key value value' heffect hcondition
      rcases hs key value' hcondition with heffect' | ⟨hnone, -⟩
      · exact Option.some.inj (heffect.symm.trans heffect')
      · simp [heffect] at hnone
    have hpre : a.preconditions.conflictsWith (residual.without a.effects) = false := by
      rw [State.conflictsWith_eq_false_iff]
      intro key value value' hprecondition hleft
      rw [State.get?_without] at hleft
      split at hleft
      · cases hleft
      case isFalse hne =>
        rcases hs key value' hleft with heffect | ⟨-, hbefore⟩
        · exact absurd (heffect.trans hleft.symm) hne
        · exact Option.some.inj ((hperform key value hprecondition).symm.trans hbefore)
    exact hrefused ⟨hrelevant, heffects, hpre⟩
  · right
    intro s hs key value hcondition
    rcases hs key value hcondition with heffect | ⟨-, hbefore⟩
    · exact absurd (isRelevantTo_iff.2 ⟨key, value, hcondition, heffect⟩) hrelevant
    · exact hbefore

/-- A performed action that leads to a residual goal is regressed through, or can be left out. -/
theorem satisfies_or_regress? {a : Action} {residual s : State} (hperform : a.canPerform s = true)
    (hs : (a.apply s).satisfies residual = true) :
    s.satisfies residual = true ∨
      ∃ before, a.regress? residual = some before ∧ s.satisfies before = true := by
  cases hregress : a.regress? residual with
  | none =>
    rcases of_regress?_eq_none hregress with hnever | hbefore
    · exact absurd ⟨hperform, hs⟩ (hnever s)
    · exact Or.inl (hbefore s hs)
  | some before =>
    exact Or.inr ⟨before, rfl, (satisfies_regress?_iff hregress s).2 ⟨hperform, hs⟩⟩

/-! ## Nothing is refused without need -/

/-- Where regression succeeds, the action can be performed in some state and leads to the residual
goal. -/
theorem exists_satisfies_apply_of_regress? {a : Action} {residual before : State}
    (h : a.regress? residual = some before) :
    ∃ s : State, a.canPerform s = true ∧ (a.apply s).satisfies residual = true :=
  ⟨before, (satisfies_regress?_iff h before).1 before.satisfies_refl⟩

/-- Where regression succeeds, the action makes a difference: it makes the residual goal hold in
the state that has all of the goal but what the action resolves. -/
theorem exists_not_satisfies_of_regress? {a : Action} {residual before : State}
    (h : a.regress? residual = some before) :
    ∃ s : State, (a.apply s).satisfies residual = true ∧ ¬s.satisfies residual = true := by
  obtain ⟨hrelevant, heffects, -, -⟩ := regress?_eq_some_iff.1 h
  rw [State.conflictsWith_eq_false_iff] at heffects
  obtain ⟨key, value, hcondition, heffect⟩ := isRelevantTo_iff.1 hrelevant
  refine ⟨residual.without a.effects, State.satisfies_iff.2 fun key' value' hcondition' => ?_, ?_⟩
  · rw [get?_apply, State.get?_without, hcondition']
    cases heffect' : a.effects.get? key' with
    | none => simp
    | some effect => simp [heffects key' effect value' heffect' hcondition']
  · intro hsatisfies
    have hkey := State.satisfies_iff.1 hsatisfies key value hcondition
    simp [hcondition, heffect] at hkey

/-- **Regression gives exactly the weakest precondition.** What it gives holds in exactly those
states in which the action can be performed and leads to the residual goal. It gives nothing
exactly if there is no such state, or if the action makes no difference because the residual goal
only ever holds after its effects where it holds before them. -/
theorem regress?_isWeakest (a : Action) (residual : State) :
    (∀ before, a.regress? residual = some before → ∀ s : State, s.satisfies before = true ↔
        a.canPerform s = true ∧ (s.merge a.effects).satisfies residual = true) ∧
      (a.regress? residual = none ↔
        (¬∃ s : State, a.canPerform s = true ∧
          (s.merge a.effects).satisfies residual = true) ∨
        ∀ s : State, (s.merge a.effects).satisfies residual = true →
          s.satisfies residual = true) := by
  refine ⟨fun before h s => satisfies_regress?_iff h s, fun h => ?_, fun h => ?_⟩
  · exact (of_regress?_eq_none h).imp_left not_exists.2
  · cases hregress : a.regress? residual with
    | none => rfl
    | some before =>
      exfalso
      rcases h with hnever | hnothing
      · exact hnever (exists_satisfies_apply_of_regress? hregress)
      · obtain ⟨s, hs, hbefore⟩ := exists_not_satisfies_of_regress? hregress
        exact hbefore (hnothing s hs)

end Action

end GoalPlanning
