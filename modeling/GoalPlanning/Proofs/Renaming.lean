import GoalPlanning.Proofs.Search.Lockstep
import GoalPlanning.Proofs.Soundness
import GoalPlanning.Proofs.UnmetConditions
import Mathlib.Logic.Equiv.Basic

/-!
# Planning in other words

Keys and values are only ever compared for equality. Let keys get other names, and the values of
each key too, so that different ones stay different. Then regression gives the same in the other
words, and as many conditions hold as before. States list their facts in another order now, but
the search takes no notice of it and picks the same actions, by their numbers.
-/

namespace GoalPlanning

/-- Other names for keys, and for each key other names for its values, which may be of another
kind. -/
structure Renaming where
  /-- What a key is called. -/
  key : String → String
  /-- What a value of a key is called. -/
  value : (key : String) → Value → Value
  /-- Different keys stay different. -/
  key_injective : Function.Injective key
  /-- Different values of a key stay different. -/
  value_injective : ∀ k, Function.Injective (value k)

namespace Renaming

variable (r : Renaming)

/-! ## States -/

/-- A state in the other words. -/
def state (s : State) : State := State.ofList (s.entries.map fun e => (r.key e.1, r.value e.1 e.2))

variable {r} in
/-- The facts of a state are renamed one by one. -/
theorem get?_state_eq_some_iff {s : State} {key' : String} {value' : Value} :
    (r.state s).get? key' = some value' ↔
      ∃ key value, s.get? key = some value ∧ r.key key = key' ∧ r.value key value = value' := by
  have hdistinct : (s.entries.map fun e => (r.key e.1, r.value e.1 e.2)).Pairwise
      fun e f => e.1 ≠ f.1 :=
    List.pairwise_map.2 (s.entries_distinct.imp r.key_injective.ne)
  rw [state, State.get?_ofList_eq_some_iff hdistinct]
  simp only [List.mem_map, Prod.exists, State.mem_entries_iff, Prod.mk.injEq]

/-- A renamed state has the renamed value at a renamed key. -/
@[simp] theorem get?_state (s : State) (key : String) :
    (r.state s).get? (r.key key) = (s.get? key).map (r.value key) := by
  refine Option.ext fun value' => ?_
  rw [get?_state_eq_some_iff, Option.map_eq_some_iff]
  constructor
  · rintro ⟨key', value, hvalue, hkey, rfl⟩
    obtain rfl := r.key_injective hkey
    exact ⟨value, hvalue, rfl⟩
  · rintro ⟨value, hvalue, rfl⟩
    exact ⟨key, value, hvalue, rfl, rfl⟩

/-- No other names occur. -/
theorem get?_state_of_notMem_range (s : State) {key' : String} (h : key' ∉ Set.range r.key) :
    (r.state s).get? key' = none := by
  refine Option.eq_none_iff_forall_ne_some.2 fun value' hvalue' => h ?_
  obtain ⟨key, -, -, rfl, -⟩ := get?_state_eq_some_iff.1 hvalue'
  exact ⟨key, rfl⟩

/-- A state is what another one is called if it gives each renamed key the renamed value. -/
theorem eq_state {s s' : State}
    (hkeys : ∀ key, s'.get? (r.key key) = (s.get? key).map (r.value key))
    (hothers : ∀ key', key' ∉ Set.range r.key → s'.get? key' = none) : s' = r.state s := by
  refine State.ext_get? fun key' => ?_
  by_cases hrange : key' ∈ Set.range r.key
  · obtain ⟨key, rfl⟩ := hrange
    rw [hkeys, get?_state]
  · rw [hothers key' hrange, r.get?_state_of_notMem_range s hrange]

/-- Renaming the value of a key, if it has one, loses nothing. -/
theorem map_value_injective (key : String) : Function.Injective (Option.map (r.value key)) :=
  Option.map_injective (r.value_injective key)

/-- Renaming a state loses nothing. -/
theorem state_injective : Function.Injective r.state := by
  intro s t h
  refine State.ext_get? fun key => r.map_value_injective key ?_
  rw [← get?_state, ← get?_state, h]

/-- As many facts as before. -/
@[simp] theorem size_state (s : State) : (r.state s).size = s.size := by
  have hkeys : (r.state s).keys = s.keys.image r.key := by
    ext key'
    simp only [State.mem_keys_iff, Finset.mem_image, get?_state_eq_some_iff]
    constructor
    · rintro ⟨-, key, value, hvalue, rfl, -⟩
      exact ⟨key, ⟨value, hvalue⟩, rfl⟩
    · rintro ⟨key, ⟨value, hvalue⟩, rfl⟩
      exact ⟨r.value key value, key, value, hvalue, rfl, rfl⟩
  rw [← State.card_keys, hkeys, Finset.card_image_of_injective _ r.key_injective, State.card_keys]

/-- A renamed state is empty exactly if the state is. -/
theorem isEmpty_state (s : State) : (r.state s).isEmpty = s.isEmpty := by
  rw [State.isEmpty, State.isEmpty, Bool.eq_iff_iff, List.isEmpty_iff_length_eq_zero,
    List.isEmpty_iff_length_eq_zero]
  change (r.state s).size = 0 ↔ s.size = 0
  rw [size_state]

/-- States may be merged before or after they are renamed. -/
theorem state_merge (s t : State) : r.state (s.merge t) = (r.state s).merge (r.state t) := by
  refine (r.eq_state (fun key => ?_) fun key' h => ?_).symm
  · simp only [State.get?_merge, get?_state, Option.map_or]
  · simp only [State.get?_merge, r.get?_state_of_notMem_range _ h, Option.none_or]

/-- Facts may be removed before or after states are renamed. -/
theorem state_without (s held : State) :
    r.state (s.without held) = (r.state s).without (r.state held) := by
  refine (r.eq_state (fun key => ?_) fun key' h => ?_).symm
  · simp only [State.get?_without, get?_state, (r.map_value_injective key).eq_iff]
    split <;> rfl
  · simp only [State.get?_without, r.get?_state_of_notMem_range _ h, ite_self]

/-- A renamed state satisfies a renamed one exactly if the state satisfies the other one. -/
@[simp] theorem satisfies_state (s required : State) :
    (r.state s).satisfies (r.state required) = s.satisfies required := by
  refine State.satisfies_eq_of_size_without_eq ?_
  rw [← state_without, size_state]

/-- Renamed states conflict exactly if the states do. -/
@[simp] theorem conflictsWith_state (s t : State) :
    (r.state s).conflictsWith (r.state t) = s.conflictsWith t := by
  -- A conflict can be told from a merge, which is known to commute.
  refine Bool.eq_iff_iff.2 (not_iff_not.1 ?_)
  rw [Bool.not_eq_true, Bool.not_eq_true, ← State.satisfies_merge_iff, ← State.satisfies_merge_iff,
    ← state_merge, satisfies_state]

/-! ## Actions -/

/-- An action in the other words. Its name and its cost stay. -/
def action (a : Action) : Action where
  name := a.name
  cost := a.cost
  preconditions := r.state a.preconditions
  effects := r.state a.effects
  cost_isCost := a.cost_isCost
  effects_nonempty := (r.isEmpty_state a.effects).trans a.effects_nonempty

/-- A renamed action is relevant to a renamed residual goal exactly if the action is to the residual
goal. -/
theorem isRelevantTo_action (a : Action) (residual : State) :
    (r.action a).isRelevantTo (r.state residual) = a.isRelevantTo residual := by
  -- An irrelevant action resolves nothing, and different states stay different.
  refine Bool.eq_iff_iff.2 (not_iff_not.1 ?_)
  rw [Bool.not_eq_true, Bool.not_eq_true, Action.isRelevantTo_eq_false_iff,
    Action.isRelevantTo_eq_false_iff, action, ← state_without, r.state_injective.eq_iff]

/-- Regression gives the same in the other words. -/
theorem regress?_action (a : Action) (residual : State) :
    (r.action a).regress? (r.state residual) = (a.regress? residual).map r.state := by
  have heffects : (r.action a).effects = r.state a.effects := rfl
  have hpre : (r.action a).preconditions = r.state a.preconditions := rfl
  unfold Action.regress?
  simp only [isRelevantTo_action, heffects, hpre, conflictsWith_state, ← state_without,
    ← state_merge]
  split
  · rfl
  · split <;> rfl

/-! ## Problems -/

/-- A problem in the other words. -/
def problem (p : Problem) : Problem := ⟨p.actions.map r.action, r.state p.current, r.state p.goal⟩

/-- What is as before of each action is as before of all of them. -/
theorem map_map_action {β : Type} {f : Action → β} (h : ∀ a, f (r.action a) = f a)
    (actions : List Action) : (actions.map r.action).map f = actions.map f := by
  rw [List.map_map]
  exact List.map_congr_left fun a _ => h a

/-- The bounds that estimates use are as before. -/
theorem bounds_problem (p : Problem) :
    Bounds.ofActions (r.problem p).actions = Bounds.ofActions p.actions := by
  have heffects : ((p.actions.map r.action).map fun a => a.effects.size) =
      p.actions.map fun a => a.effects.size :=
    r.map_map_action (fun a => r.size_state a.effects) p.actions
  have hcosts : (p.actions.map r.action).map Action.cost = p.actions.map Action.cost :=
    r.map_map_action (fun _ => rfl) p.actions
  rw [problem, Bounds.ofActions, Bounds.ofActions, heffects, hcosts]

/-- So is the number of expansions that no search uses up. -/
theorem expansionBound_problem (p : Problem) :
    (r.problem p).expansionBound = p.expansionBound := by
  have hlength (s : State) : (r.state s).entries.length = s.entries.length := r.size_state s
  have hpre : ((p.actions.map r.action).map fun a => a.preconditions.entries.length) =
      p.actions.map fun a => a.preconditions.entries.length :=
    r.map_map_action (fun a => hlength a.preconditions) p.actions
  rw [problem, Problem.expansionBound, Problem.expansionBound, Problem.vocabulary,
    Problem.vocabulary, List.length_append, List.length_append, List.length_flatMap,
    List.length_flatMap, hlength, hpre]

/-- A problem can be read in the other words. -/
def translation (p : Problem) : Translation p (r.problem p) where
  state := r.state
  action := r.action
  goal_eq := rfl
  actions_eq := rfl
  cost_action _ := rfl
  state_injOn := r.state_injective.injOn
  regress?_action a _ residual _ := r.regress?_action a residual
  satisfies_state residual _ := r.satisfies_state p.current residual

/-- **Only equality counts.** If keys and values get other names throughout a problem, then the
search that follows the usual estimate, or none, within a limit or without one, picks the same
actions, by their numbers, or fails in the same way. It makes as many expansions and nodes as
before. -/
theorem search_problem {heuristic : Heuristic}
    (hheuristic : heuristic = Heuristic.unmet ∨ heuristic = Heuristic.zero) (limit : Option ℕ)
    (p : Problem) :
    let report := Strategy.search ⟨heuristic, limit⟩ p
    let renamed := Strategy.search ⟨heuristic, limit⟩ (r.problem p)
    renamed.steps = report.steps ∧ renamed.plan = report.plan.map (List.map r.action) ∧
      renamed.final.expanded.size = report.final.expanded.size ∧
      renamed.final.nodes.size = report.final.nodes.size := by
  intro report renamed
  have hbudget : Strategy.budget ⟨heuristic, limit⟩ (r.problem p) =
      Strategy.budget ⟨heuristic, limit⟩ p := by
    rw [Strategy.budget, Strategy.budget, expansionBound_problem]
  have hestimate (residual : State) :
      Strategy.estimate ⟨heuristic, limit⟩ (r.problem p) (r.state residual) =
        Strategy.estimate ⟨heuristic, limit⟩ p residual := by
    rw [Strategy.estimate, Strategy.estimate, bounds_problem]
    refine Heuristic.eq_of_size_without_eq hheuristic ?_ _
    rw [problem, ← state_without, size_state]
  obtain ⟨hsteps, hfinal⟩ := (r.translation p).mirrors_search ⟨heuristic, limit⟩ hbudget
    fun residual _ => hestimate residual
  have hplan := (r.translation p).plan_eq report renamed rfl rfl hsteps
  exact ⟨hsteps, hplan, hfinal.size_expanded, hfinal.size_nodes⟩

end Renaming

namespace Chest

/-- The two keys trade their names, and what holds is said with a word. -/
def otherWords : Renaming where
  key := Equiv.swap "hasKey" "chestOpen"
  value _ := Equiv.swap (.bool true) (.string "yes")
  key_injective := Equiv.injective _
  value_injective _ := Equiv.injective _

/-- In other words the actions are picked as before, although the keys come in another order. -/
theorem steps_inOtherWords :
    let p : Problem := ⟨planner.actions, current, goal⟩
    (goal.entries.map Prod.fst).map otherWords.key = ["hasKey", "chestOpen"] ∧
      (otherWords.state goal).entries = [("chestOpen", .string "yes"), ("hasKey", .string "yes")] ∧
      ((Strategy.aStar none).search (otherWords.problem p)).steps = .ok [1, 0] := by
  intro p
  have hsteps : ((Strategy.aStar none).search p).steps = .ok [1, 0] := by decide +kernel
  obtain ⟨hsame, -⟩ := otherWords.search_problem (.inl rfl) none p
  exact ⟨by decide, by decide, hsame.trans hsteps⟩

end Chest

end GoalPlanning
