import GoalPlanning.Estimate
import GoalPlanning.Proofs.PlanCost
import Mathlib.Data.Finset.Card

/-!
# Counting unmet conditions

How many conditions of a residual goal a state does not satisfy is counted key by key. One action
changes the values of no more keys than it has effects, so it meets no more conditions than that,
and every action costs at least what the cheapest costs. So a sequence that makes a residual goal
hold has a certain length and a certain cost at least.
-/

namespace GoalPlanning

/-! ## Keys -/

namespace State

/-- The keys that have a value. -/
def keys (s : State) : Finset String := (s.entries.map Prod.fst).toFinset

/-- The keys of a state are those that have a value. -/
theorem mem_keys_iff {s : State} {key : String} :
    key ∈ s.keys ↔ ∃ value, s.get? key = some value := by
  rw [keys, List.mem_toFinset, List.mem_map]
  constructor
  · rintro ⟨e, he, rfl⟩
    exact ⟨e.2, mem_entries_iff.1 he⟩
  · rintro ⟨value, hvalue⟩
    exact ⟨(key, value), mem_entries_iff.2 hvalue, rfl⟩

/-- A state has as many facts as keys. -/
theorem card_keys (s : State) : s.keys.card = s.size := by
  have hnodup : (s.entries.map Prod.fst).Nodup := List.pairwise_map.2 s.entries_distinct
  rw [keys, List.toFinset_card_of_nodup hnodup, List.length_map, size]

/-- A key counts as unmet if the state does not give it the value that is asked for. -/
theorem mem_keys_without_iff {residual s : State} {key : String} :
    key ∈ (residual.without s).keys ↔ key ∈ residual.keys ∧ s.get? key ≠ residual.get? key := by
  simp only [mem_keys_iff, get?_without]
  by_cases hmet : s.get? key = residual.get? key <;> simp [hmet]

/-- Nothing is unmet exactly where a residual goal holds. -/
theorem size_without_eq_zero_iff {residual s : State} :
    (residual.without s).size = 0 ↔ s.satisfies residual = true := by
  rw [← card_keys, Finset.card_eq_zero, Finset.eq_empty_iff_forall_notMem, satisfies_iff]
  constructor
  · intro h key value hvalue
    by_contra hunmet
    have hkey : key ∈ residual.keys := mem_keys_iff.2 ⟨value, hvalue⟩
    exact h key (mem_keys_without_iff.2 ⟨hkey, by rwa [hvalue]⟩)
  · intro h key hkey
    obtain ⟨hresidual, hunmet⟩ := mem_keys_without_iff.1 hkey
    obtain ⟨value, hvalue⟩ := mem_keys_iff.1 hresidual
    exact hunmet (by rw [h key value hvalue, hvalue])

/-- Whether a residual goal holds can be told from the number of its conditions that do not. -/
theorem satisfies_eq_of_size_without_eq {residual residual' s s' : State}
    (h : (residual.without s).size = (residual'.without s').size) :
    s.satisfies residual = s'.satisfies residual' := by
  rw [Bool.eq_iff_iff, ← size_without_eq_zero_iff, ← size_without_eq_zero_iff, h]

end State

/-- The usual estimate and the zero estimate know no more of a residual goal than the number of its
conditions that do not hold. -/
theorem Heuristic.eq_of_size_without_eq {heuristic : Heuristic}
    (hheuristic : heuristic = unmet ∨ heuristic = zero)
    {residual residual' current current' : State}
    (h : (residual.without current).size = (residual'.without current').size) (bounds : Bounds) :
    heuristic residual current bounds = heuristic residual' current' bounds := by
  rcases hheuristic with rfl | rfl
  · unfold unmet
    rw [h]
  · rfl

namespace Action

/-- Where an action has no effect, let two residual goals ask for the same and two states be the
same. Then the first state leaves at most as many more conditions unmet as the action has
effects. -/
theorem size_without_le_of_agree (a : Action) {residual residual' s s' : State}
    (hagree : ∀ key ∈ residual.keys, a.effects.get? key = none →
      residual'.get? key = residual.get? key ∧ s'.get? key = s.get? key) :
    (residual.without s).size ≤ a.effects.size + (residual'.without s').size := by
  rw [← State.card_keys, ← State.card_keys, ← State.card_keys]
  have hsubset : (residual.without s).keys ⊆ a.effects.keys ∪ (residual'.without s').keys := by
    intro key hkey
    obtain ⟨hresidual, hunmet⟩ := State.mem_keys_without_iff.1 hkey
    rw [Finset.mem_union, or_iff_not_imp_left]
    intro heffect
    have hnone : a.effects.get? key = none :=
      Option.eq_none_iff_forall_ne_some.2 fun value hvalue =>
        heffect (State.mem_keys_iff.2 ⟨value, hvalue⟩)
    obtain ⟨hresidual', hs'⟩ := hagree key hresidual hnone
    rw [State.mem_keys_without_iff, State.mem_keys_iff, hresidual', hs', ← State.mem_keys_iff]
    exact ⟨hresidual, hunmet⟩
  exact (Finset.card_le_card hsubset).trans (Finset.card_union_le _ _)

/-- One action meets at most as many conditions as it has effects. -/
theorem size_without_le (a : Action) (residual s : State) :
    (residual.without s).size ≤ a.effects.size + (residual.without (a.apply s)).size := by
  apply a.size_without_le_of_agree
  intro key _ hnone
  rw [get?_apply, hnone, Option.none_or]
  exact ⟨rfl, rfl⟩

/-- Regression through an action leaves at most as many conditions out as the action has
effects. -/
theorem size_without_le_of_regress? {a : Action} {residual before : State}
    (h : a.regress? residual = some before) (s : State) :
    (residual.without s).size ≤ a.effects.size + (before.without s).size := by
  obtain ⟨-, -, hconflict, -⟩ := regress?_eq_some_iff.1 h
  rw [State.conflictsWith_eq_false_iff] at hconflict
  apply a.size_without_le_of_agree
  intro key hkey hnone
  obtain ⟨value, hvalue⟩ := State.mem_keys_iff.1 hkey
  have hleft : (residual.without a.effects).get? key = some value := by
    simp [State.get?_without, hnone, hvalue]
  refine ⟨?_, rfl⟩
  rw [get?_of_regress?_eq_some h, hnone, hvalue, if_neg nofun]
  cases hprecondition : a.preconditions.get? key with
  | none => rfl
  | some value' => rw [hconflict key value' value hprecondition hleft, Option.some_or]

end Action

/-! ## Bounds of actions -/

namespace Bounds

/-- A largest number is bounded if all of them are. -/
theorem foldl_max_le_iff {counts : List ℕ} {start bound : ℕ} :
    counts.foldl max start ≤ bound ↔ start ≤ bound ∧ ∀ count ∈ counts, count ≤ bound := by
  induction counts generalizing start with
  | nil => simp
  | cons count counts ih => simp [ih, and_assoc]

/-- The largest number of effects is bounded if that of each action is. -/
theorem maxEffects_le_iff {actions : List Action} {bound : ℕ} :
    (ofActions actions).maxEffects ≤ bound ↔ ∀ a ∈ actions, a.effects.size ≤ bound := by
  change (actions.map fun a => a.effects.size).foldl max 0 ≤ bound ↔ _
  simp [foldl_max_le_iff]

/-- No action has more effects than the largest number says. -/
theorem size_effects_le {actions : List Action} {a : Action} (ha : a ∈ actions) :
    a.effects.size ≤ (ofActions actions).maxEffects :=
  maxEffects_le_iff.1 le_rfl a ha

/-- Of some numbers the least one is found. -/
theorem foldl_leastOf_spec (cost : Binary64) (costs : List Binary64) :
    costs.foldl Binary64.leastOf cost ∈ cost :: costs ∧
      ∀ x ∈ cost :: costs, (costs.foldl Binary64.leastOf cost).rank ≤ x.rank := by
  induction costs generalizing cost with
  | nil => simp
  | cons cost' costs ih =>
    obtain ⟨hmem, hleast⟩ := ih (cost.leastOf cost')
    obtain ⟨hfirst, hrest⟩ := List.forall_mem_cons.1 hleast
    rw [List.foldl_cons]
    generalize costs.foldl Binary64.leastOf (cost.leastOf cost') = least at *
    unfold Binary64.leastOf at hmem hfirst
    split at hmem
    case isTrue hlt =>
      rw [if_pos hlt] at hfirst
      have hcost : least.rank ≤ cost.rank := by omega
      simp only [List.forall_mem_cons]
      exact ⟨List.mem_cons_of_mem _ hmem, hcost, hfirst, hrest⟩
    case isFalse hle =>
      rw [if_neg hle] at hfirst
      have hcost' : least.rank ≤ cost'.rank := by omega
      simp only [List.forall_mem_cons]
      constructor
      · rcases List.mem_cons.1 hmem with rfl | hmem
        · exact List.mem_cons_self
        · exact List.mem_cons_of_mem _ (List.mem_cons_of_mem _ hmem)
      · exact ⟨hfirst, hcost', hrest⟩

/-- The least cost is the cost of some action, and no action is cheaper. -/
theorem minCost_spec {actions : List Action} (hne : actions ≠ []) :
    (∃ a ∈ actions, a.cost = (ofActions actions).minCost) ∧
      ∀ a ∈ actions, (ofActions actions).minCost.rank ≤ a.cost.rank := by
  cases actions with
  | nil => exact absurd rfl hne
  | cons a actions =>
    obtain ⟨hmem, hleast⟩ := foldl_leastOf_spec a.cost (actions.map Action.cost)
    rw [← List.map_cons] at hmem hleast
    exact ⟨List.mem_map.1 hmem, fun b hb => hleast b.cost (List.mem_map_of_mem hb)⟩

/-- The least cost is at least zero and finite, also if there is no action. -/
theorem minCost_isNonneg (actions : List Action) :
    (ofActions actions).minCost.IsNonneg ∧
      (ofActions actions).minCost.magnitude < Binary64.infinityCode := by
  by_cases hne : actions = []
  · subst hne
    exact ⟨Binary64.zero_isUnsigned.isNonneg, by decide⟩
  · obtain ⟨⟨a, -, ha⟩, -⟩ := minCost_spec hne
    exact ha ▸ ⟨a.cost_isNonneg, a.cost_lt_infinity⟩

/-- The least cost is at most the cost of each action. -/
theorem magnitude_minCost_le {actions : List Action} {a : Action} (ha : a ∈ actions) :
    (ofActions actions).minCost.magnitude ≤ a.cost.magnitude := by
  have hrank := (minCost_spec (List.ne_nil_of_mem ha)).2 a ha
  have hsign := (minCost_isNonneg actions).1.sign
  generalize (ofActions actions).minCost = least at *
  unfold Binary64.rank at hrank
  cases hleast : least.negative with
  | true =>
    rw [hsign hleast]
    exact Nat.zero_le _
  | false =>
    rw [hleast] at hrank
    simp only [Bool.false_eq_true, if_false] at hrank
    split at hrank <;> omega

/-- The least cost is at most the cost of each action, in units. -/
theorem units_minCost_le {actions : List Action} {a : Action} (ha : a ∈ actions) :
    Binary64.unitsOfCode (ofActions actions).minCost.magnitude ≤
      Binary64.unitsOfCode a.cost.magnitude :=
  Binary64.unitsOfCode_strictMono.monotone (magnitude_minCost_le ha)

/-- The least of some whole costs is a whole cost. -/
theorem unitsPerOne_dvd_minCost {actions : List Action}
    (hwhole : ∀ a ∈ actions, a.cost.IsWhole) :
    Binary64.unitsPerOne ∣ Binary64.unitsOfCode (ofActions actions).minCost.magnitude := by
  by_cases hne : actions = []
  · subst hne
    exact Nat.dvd_zero _
  · obtain ⟨⟨a, ha, hcost⟩, -⟩ := minCost_spec hne
    rw [← hcost]
    exact Action.unitsPerOne_dvd (hwhole a ha)

end Bounds

/-! ## Sequences of actions -/

variable {actions run : List Action} {residual s t : State}

/-- A sequence that makes a residual goal hold is long enough to meet all conditions one after
another. -/
theorem size_without_le_length_mul (hrun : ∀ a ∈ run, a ∈ actions)
    (hperform : perform run s = .ok t) (ht : t.satisfies residual = true) :
    (residual.without s).size ≤ run.length * (Bounds.ofActions actions).maxEffects := by
  induction run generalizing s with
  | nil =>
    rw [perform, Except.ok.injEq] at hperform
    rw [hperform, State.size_without_eq_zero_iff.2 ht]
    exact Nat.zero_le _
  | cons a run ih =>
    obtain ⟨ha, hrun⟩ := List.forall_mem_cons.1 hrun
    have hrest := ih hrun (perform_cons_eq_ok_iff.1 hperform).2
    calc (residual.without s).size
        ≤ a.effects.size + (residual.without (a.apply s)).size := a.size_without_le residual s
      _ ≤ (Bounds.ofActions actions).maxEffects +
            run.length * (Bounds.ofActions actions).maxEffects :=
          Nat.add_le_add (Bounds.size_effects_le ha) hrest
      _ = (a :: run).length * (Bounds.ofActions actions).maxEffects := by
          rw [List.length_cons, Nat.succ_mul, Nat.add_comm]

/-- A sequence costs at least the least cost for each of its actions. -/
theorem length_mul_minCost_le (hrun : ∀ a ∈ run, a ∈ actions) :
    run.length * Binary64.unitsOfCode (Bounds.ofActions actions).minCost.magnitude ≤
      totalUnits run := by
  induction run with
  | nil => simp
  | cons a run ih =>
    obtain ⟨ha, hrun⟩ := List.forall_mem_cons.1 hrun
    have hfirst := Bounds.units_minCost_le ha
    have hrest := ih hrun
    rw [List.length_cons, Nat.succ_mul, totalUnits_cons]
    omega

end GoalPlanning
