import GoalPlanning.Proofs.WeakestPrecondition
import Mathlib.Order.Defs.Unbundled
import Mathlib.Tactic.TFAE

/-!
# Common extensions

States are ordered by how much they say: a state extends another one if it satisfies it. Two states
have a common extension exactly if they are not in conflict, and then their merge is the least one.
So conflict, merge and satisfaction describe one order, and where regression merges what it has
found to be free of conflict, nothing is lost and nothing is added.
-/

namespace GoalPlanning.State

variable {s t u : State}

/-! ## The order -/

/-- States that satisfy each other are equal. -/
theorem satisfies_antisymm (h : s.satisfies t = true) (h' : t.satisfies s = true) : s = t := by
  rw [satisfies_iff] at h h'
  refine ext_get? fun key => Option.ext fun value => ?_
  exact ⟨h' key value, h key value⟩

/-- Satisfaction is a partial order. -/
theorem isPartialOrder_satisfies : IsPartialOrder State fun s t => s.satisfies t = true where
  refl := satisfies_refl
  trans _ _ _ := satisfies_trans
  antisymm _ _ := satisfies_antisymm

/-! ## Merges -/

/-- Of three states that are merged the last one that gives a key a value counts. -/
theorem merge_assoc (s t u : State) : (s.merge t).merge u = s.merge (t.merge u) := by
  refine ext_get? fun key => ?_
  simp only [get?_merge, Option.or_assoc]

/-- A merge satisfies the state that counts where the two differ. -/
theorem satisfies_merge_right (s t : State) : (s.merge t).satisfies t = true := by
  refine satisfies_iff.2 fun key value ht => ?_
  rw [get?_merge, ht, Option.some_or]

/-- Whatever satisfies two states satisfies their merge, in either order. -/
theorem satisfies_merge (hs : u.satisfies s = true) (ht : u.satisfies t = true) :
    u.satisfies (s.merge t) = true := by
  rw [satisfies_iff] at *
  intro key value hmerge
  rw [get?_merge, Option.or_eq_some_iff] at hmerge
  rcases hmerge with hvalue | ⟨-, hvalue⟩
  · exact ht key value hvalue
  · exact hs key value hvalue

/-! ## Conflicts -/

/-- Of two states that are in conflict either one is in conflict with the other. -/
theorem conflictsWith_comm (s t : State) : s.conflictsWith t = t.conflictsWith s := by
  rw [Bool.eq_iff_iff, conflictsWith_iff, conflictsWith_iff]
  constructor <;> rintro ⟨key, value, value', hvalue, hvalue', hne⟩ <;>
    exact ⟨key, value', value, hvalue', hvalue, hne.symm⟩

/-- In a merge of states that are not in conflict it does not matter which one counts. -/
theorem merge_comm (h : s.conflictsWith t = false) : s.merge t = t.merge s := by
  have h' : t.conflictsWith s = false := conflictsWith_comm t s ▸ h
  apply satisfies_antisymm
  · exact satisfies_merge (satisfies_merge_right s t) (satisfies_merge_iff.2 h)
  · exact satisfies_merge (satisfies_merge_right t s) (satisfies_merge_iff.2 h')

/-- **Conflict, merge and satisfaction fit together.** Satisfaction is a partial order and merging
is associative. Two states are free of conflict, whichever is asked, exactly if they can be merged
in either order, if their merge keeps what the first one says, and if some state satisfies both.
Exactly then their merge is the least state that satisfies both: a state satisfies the merge if and
only if it satisfies the one and the other. -/
theorem conflict_merge_satisfies :
    (IsPartialOrder State fun s t => s.satisfies t = true) ∧
      (∀ s t u : State, (s.merge t).merge u = s.merge (t.merge u)) ∧
      ∀ s t : State, List.TFAE [
        s.conflictsWith t = false,
        t.conflictsWith s = false,
        s.merge t = t.merge s,
        (s.merge t).satisfies s = true,
        ∃ u : State, u.satisfies s = true ∧ u.satisfies t = true,
        ∀ u : State, u.satisfies (s.merge t) = true ↔
          u.satisfies s = true ∧ u.satisfies t = true] := by
  refine ⟨isPartialOrder_satisfies, merge_assoc, fun s t => ?_⟩
  tfae_have 1 ↔ 2 := by rw [conflictsWith_comm]
  tfae_have 1 → 3 := merge_comm
  tfae_have 3 → 4 := by
    intro hcomm
    rw [hcomm]
    exact satisfies_merge_right t s
  tfae_have 4 → 5 := fun hfirst => ⟨s.merge t, hfirst, satisfies_merge_right s t⟩
  tfae_have 5 → 1 := by
    rintro ⟨u, hs, ht⟩
    -- Where both states give a key a value, the common extension gives it the same one.
    rw [satisfies_iff] at hs ht
    refine conflictsWith_eq_false_iff.2 fun key value value' hvalue hvalue' => ?_
    exact Option.some.inj ((hs key value hvalue).symm.trans (ht key value' hvalue'))
  tfae_have 4 → 6 := by
    intro hfirst u
    constructor
    · intro hu
      exact ⟨satisfies_trans hu hfirst, satisfies_trans hu (satisfies_merge_right s t)⟩
    · rintro ⟨hs, ht⟩
      exact satisfies_merge hs ht
  tfae_have 6 → 4 := fun hleast => ((hleast (s.merge t)).1 (satisfies_refl _)).1
  tfae_finish

end GoalPlanning.State
