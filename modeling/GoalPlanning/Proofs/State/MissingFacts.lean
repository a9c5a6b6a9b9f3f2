import GoalPlanning.Proofs.State.CommonExtensions
import GoalPlanning.Proofs.UnmetConditions
import Mathlib.Order.Bounds.Defs

/-!
# Missing facts

What is left of a goal without a state are the facts that the state lacks. They are all that has to
be added: the state satisfies the goal once they are merged into it, and whatever else makes it
satisfy the goal when it is merged into it has these facts too. So their number, which the estimate
of a search is based on, is the least number of keys that have to be set.
-/

namespace GoalPlanning.State

variable {s t e : State}

/-- A state is empty if it has no facts. -/
theorem isEmpty_iff_size_eq_zero : s.isEmpty = true ↔ s.size = 0 := by
  rw [isEmpty, size, List.isEmpty_iff, List.length_eq_zero_iff]

/-- A state satisfies another one only if it has at least as many facts. -/
theorem size_le_of_satisfies (h : s.satisfies t = true) : t.size ≤ s.size := by
  rw [← card_keys, ← card_keys]
  refine Finset.card_le_card fun key hkey => ?_
  obtain ⟨value, hvalue⟩ := mem_keys_iff.1 hkey
  exact mem_keys_iff.2 ⟨value, satisfies_iff.1 h key value hvalue⟩

/-- A fact is missing if it is asked for and the state does not have it. -/
theorem get?_without_eq_some_iff {key : String} {value : Value} :
    (t.without s).get? key = some value ↔ t.get? key = some value ∧ s.get? key ≠ some value := by
  rw [get?_without]
  constructor
  · intro h
    split at h
    · cases h
    case isFalse hne => exact ⟨h, h ▸ hne⟩
  · rintro ⟨hasked, hlacks⟩
    rw [hasked, if_neg hlacks]

/-- Missing facts are facts that are asked for. -/
theorem satisfies_without (s t : State) : t.satisfies (t.without s) = true :=
  satisfies_iff.2 fun _ _ hmissing => (get?_without_eq_some_iff.1 hmissing).1

/-- Merging the missing facts alone makes no difference, since the state has the others. -/
theorem merge_without (s t : State) : s.merge (t.without s) = s.merge t := by
  refine ext_get? fun key => ?_
  rw [get?_merge, get?_merge, get?_without]
  split
  case isTrue hheld =>
    rw [hheld, Option.none_or, Option.or_self]
  case isFalse hne => rfl

/-- Merging some facts into a state makes it satisfy what is asked for if they include those that
are missing and do not contradict the others. -/
theorem merge_satisfies_iff :
    (s.merge e).satisfies t = true ↔
      e.satisfies (t.without s) = true ∧ e.conflictsWith t = false := by
  rw [satisfies_iff, satisfies_iff, conflictsWith_eq_false_iff]
  simp only [get?_merge, Option.or_eq_some_iff, get?_without_eq_some_iff]
  constructor
  · intro h
    constructor
    · rintro key value ⟨hasked, hlacks⟩
      exact (h key value hasked).resolve_right fun hheld => hlacks hheld.2
    · intro key value value' hadded hasked
      rcases h key value' hasked with hadded' | ⟨hnone, -⟩
      · exact Option.some.inj (hadded.symm.trans hadded')
      · cases hadded.symm.trans hnone
  · rintro ⟨hmissing, hagrees⟩ key value hasked
    by_cases hheld : s.get? key = some value
    · cases hadded : e.get? key with
      | none => exact Or.inr ⟨rfl, hheld⟩
      | some value' => exact Or.inl (by rw [hagrees key value' value hadded hasked])
    · exact Or.inl (hmissing key value ⟨hasked, hheld⟩)

/-- **The missing facts are the least that has to be added.** A state satisfies what is asked for
exactly if nothing is missing. What is missing is asked for, and to merge it into the state is to
merge all that is asked for, so that the state satisfies it. Facts do so when they are merged into
the state exactly if they include the missing ones and contradict nothing that is asked for. So
the number of missing facts is the least number of facts that do. -/
theorem without_isLeast_missing (s t : State) :
    let missing := t.without s
    (s.satisfies t = true ↔ missing.isEmpty = true) ∧
      t.satisfies missing = true ∧
      s.merge missing = s.merge t ∧ (s.merge missing).satisfies t = true ∧
      (∀ e : State, (s.merge e).satisfies t = true ↔
        e.satisfies missing = true ∧ e.conflictsWith t = false) ∧
      IsLeast (size '' {e | (s.merge e).satisfies t = true}) missing.size := by
  intro missing
  have hmerge : s.merge missing = s.merge t := merge_without s t
  have hreaches : (s.merge missing).satisfies t = true := hmerge ▸ satisfies_merge_right s t
  refine ⟨?_, satisfies_without s t, hmerge, hreaches, fun e => merge_satisfies_iff, ?_, ?_⟩
  · rw [isEmpty_iff_size_eq_zero, size_without_eq_zero_iff]
  · exact ⟨missing, hreaches, rfl⟩
  · rintro _ ⟨e, he, rfl⟩
    exact size_le_of_satisfies (merge_satisfies_iff.1 he).1

end GoalPlanning.State
