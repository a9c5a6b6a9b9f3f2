import GoalPlanning.Proofs.Solutions
import Mathlib.Data.Nat.Basic

/-!
# The last writer counts

A plan is performed in one state that changes from action to action. What can be seen of it at any
point is no more than this: a key has the value that the last action with an effect on it has given
it, and the value that it had at the beginning if there is no such action. So a plan can be judged
without performing it, by looking at the effects in front of each action.
-/

namespace GoalPlanning

/-- The value of a key after some actions: what the last of them with an effect on the key gives
it, or what it has been before if there is none. -/
def valueAfter (run : List Action) (start : State) (key : String) : Option Value :=
  (run.reverse.findSome? fun a => a.effects.get? key).or (start.get? key)

/-- After some actions a required fact does not hold: its key has another value, or none. -/
def LacksAfter (run : List Action) (start required : State) : Prop :=
  ∃ key value, required.get? key = some value ∧ valueAfter run start key ≠ some value

/-- The action with the number `i` is the first one of a plan whose preconditions do not hold after
the actions before it. -/
structure FirstBlocked (plan : List Action) (current : State) (i : ℕ) (a : Action) : Prop where
  /-- The action has this number. -/
  action : plan[i]? = some a
  /-- Its preconditions do not hold. -/
  lacks : LacksAfter (plan.take i) current a.preconditions
  /-- Those of the actions before it do. -/
  least : ∀ j < i, ∀ b, plan[j]? = some b → ¬LacksAfter (plan.take j) current b.preconditions

/-- The preconditions of every action of a plan hold after the actions before it. -/
def NoneBlocked (plan : List Action) (current : State) : Prop :=
  ∀ (i : ℕ) (a : Action), plan[i]? = some a → ¬LacksAfter (plan.take i) current a.preconditions

/-- What a simulation of a plan has to answer. -/
inductive Verdict (plan : List Action) (current goal : State) : Except Failure State → Prop
  /-- The first action that cannot be performed is named, whatever the goal is. -/
  | blocked {i : ℕ} {a : Action} : FirstBlocked plan current i a →
      Verdict plan current goal (.error (.preconditionNotMet a.name))
  /-- If there is none, then the goal may be missed. -/
  | missed : NoneBlocked plan current → LacksAfter plan current goal →
      Verdict plan current goal (.error .goalNotReached)
  /-- Otherwise the state after the plan gives every key its last value. -/
  | reached {s : State} : NoneBlocked plan current → ¬LacksAfter plan current goal →
      (∀ key, s.get? key = valueAfter plan current key) → Verdict plan current goal (.ok s)

section

variable {plan run : List Action} {start current goal required t : State} {a b : Action} {i : ℕ}

/-! ## Values after a run -/

/-- Without any action every key has its first value. -/
@[simp] theorem valueAfter_nil (start : State) (key : String) :
    valueAfter [] start key = start.get? key := rfl

/-- The first action of a run is the last one that is asked. -/
@[simp] theorem valueAfter_cons (a : Action) (run : List Action) (start : State) (key : String) :
    valueAfter (a :: run) start key = valueAfter run (a.apply start) key := by
  simp only [valueAfter, List.reverse_cons, List.findSome?_append, List.findSome?_singleton,
    Action.get?_apply, Option.or_assoc]

/-- Actions without an effect on a key leave its value. -/
theorem valueAfter_of_forall_eq_none {key : String}
    (h : ∀ a ∈ run, a.effects.get? key = none) : valueAfter run start key = start.get? key := by
  have hnone : (run.reverse.findSome? fun a => a.effects.get? key) = none :=
    List.findSome?_eq_none_iff.2 fun a ha => h a (List.mem_reverse.1 ha)
  rw [valueAfter, hnone, Option.none_or]

/-- What is lacking after a run is lacking after its rest, from where its first action leads. -/
@[simp] theorem lacksAfter_cons :
    LacksAfter (a :: run) start required ↔ LacksAfter run (a.apply start) required := by
  simp only [LacksAfter, valueAfter_cons]

/-- The state after a run satisfies exactly what is not lacking after it. -/
theorem satisfies_iff_not_lacksAfter (ht : ∀ key, t.get? key = valueAfter run start key) :
    t.satisfies required = true ↔ ¬LacksAfter run start required := by
  simp only [State.satisfies_iff, LacksAfter, ht, not_exists, not_and, not_not]

/-- An action can be performed at once if nothing that it needs is lacking. -/
theorem canPerform_iff_not_lacksAfter :
    a.canPerform start = true ↔ ¬LacksAfter [] start a.preconditions :=
  satisfies_iff_not_lacksAfter fun key => (valueAfter_nil start key).symm

/-! ## The first action that is blocked -/

/-- Where there is no action, none is blocked. -/
theorem noneBlocked_nil (start : State) : NoneBlocked [] start := by
  simp [NoneBlocked]

/-- Nothing is blocked if the first action is not, and of the others none is after it. -/
theorem NoneBlocked.cons (ha : ¬LacksAfter [] start a.preconditions)
    (hrun : NoneBlocked run (a.apply start)) : NoneBlocked (a :: run) start := by
  intro i b hb
  cases i with
  | zero =>
    obtain rfl := Option.some.inj hb
    exact ha
  | succ i =>
    rw [List.take_succ_cons, lacksAfter_cons]
    exact hrun i b hb

/-- If the first action lacks something, then it is the first one that is blocked. -/
theorem FirstBlocked.zero (ha : LacksAfter [] start a.preconditions) :
    FirstBlocked (a :: run) start 0 a :=
  ⟨rfl, ha, fun j hj => absurd hj (Nat.not_lt_zero j)⟩

/-- If the first action is not blocked, then the first one that is comes later. -/
theorem FirstBlocked.succ (ha : ¬LacksAfter [] start a.preconditions)
    (h : FirstBlocked run (a.apply start) i b) : FirstBlocked (a :: run) start (i + 1) b where
  action := h.action
  lacks := by
    rw [List.take_succ_cons, lacksAfter_cons]
    exact h.lacks
  least j hj c hc := by
    cases j with
    | zero =>
      obtain rfl := Option.some.inj hc
      exact ha
    | succ j =>
      rw [List.take_succ_cons, lacksAfter_cons]
      exact h.least j (Nat.lt_of_succ_lt_succ hj) c hc

/-- There is only one first action that is blocked. -/
theorem FirstBlocked.eq {j : ℕ} (h : FirstBlocked plan current i a)
    (h' : FirstBlocked plan current j b) : a = b := by
  rcases Nat.lt_trichotomy i j with hlt | rfl | hgt
  · exact absurd h.lacks (h'.least i hlt a h.action)
  · exact Option.some.inj (h.action.symm.trans h'.action)
  · exact absurd h'.lacks (h.least j hgt b h'.action)

/-! ## Performing and simulating -/

/-- Performing a run stops at the first action that is blocked. If there is none, it ends in the
state that gives every key its last value. -/
theorem perform_cases (run : List Action) (start : State) :
    (∃ t, perform run start = .ok t ∧ NoneBlocked run start ∧
      ∀ key, t.get? key = valueAfter run start key) ∨
    ∃ i a, perform run start = .error (.preconditionNotMet a.name) ∧
      FirstBlocked run start i a := by
  induction run generalizing start with
  | nil => exact Or.inl ⟨start, rfl, noneBlocked_nil start, fun _ => rfl⟩
  | cons a run ih =>
    by_cases ha : LacksAfter [] start a.preconditions
    · right
      have hcan : ¬a.canPerform start = true := fun h => canPerform_iff_not_lacksAfter.1 h ha
      exact ⟨0, a, by rw [perform, if_neg hcan], .zero ha⟩
    · have hcan := canPerform_iff_not_lacksAfter.2 ha
      rw [perform, if_pos hcan]
      rcases ih (a.apply start) with ⟨t, ht, hrun, hvalue⟩ | ⟨i, b, hstop, hblocked⟩
      · exact Or.inl ⟨t, ht, hrun.cons ha, fun key => by rw [hvalue, valueAfter_cons]⟩
      · exact Or.inr ⟨i + 1, b, hstop, hblocked.succ ha⟩

/-- A run that can be performed ends in the state that gives every key its last value. -/
theorem get?_of_perform_eq_ok (h : perform run start = .ok t) (key : String) :
    t.get? key = valueAfter run start key := by
  rcases perform_cases run start with ⟨t', ht', -, hvalue⟩ | ⟨i, a, hstop, -⟩
  · obtain rfl := Except.ok.inj (h.symm.trans ht')
    exact hvalue key
  · rw [h] at hstop
    cases hstop

/-- A simulation answers what it has to. -/
theorem verdict_simulate (plan : List Action) (current goal : State) :
    Verdict plan current goal (simulate plan current goal) := by
  unfold simulate
  rcases perform_cases plan current with ⟨t, ht, hnone, hvalue⟩ | ⟨i, a, hstop, hblocked⟩
  · have hgoal : t.satisfies goal = true ↔ ¬LacksAfter plan current goal :=
      satisfies_iff_not_lacksAfter hvalue
    simp only [ht]
    split
    case isTrue hsat => exact .reached hnone (hgoal.1 hsat) hvalue
    case isFalse hsat => exact .missed hnone (not_not.1 (hgoal.not.1 hsat))
  · rw [hstop]
    exact .blocked hblocked

/-- There is only one answer. -/
theorem Verdict.eq {r r' : Except Failure State} (h : Verdict plan current goal r)
    (h' : Verdict plan current goal r') : r = r' := by
  cases h with
  | blocked hblocked =>
    cases h' with
    | blocked hblocked' => rw [hblocked.eq hblocked']
    | missed hnone | reached hnone => exact absurd hblocked.lacks (hnone _ _ hblocked.action)
  | missed hnone hlacks =>
    cases h' with
    | blocked hblocked => exact absurd hblocked.lacks (hnone _ _ hblocked.action)
    | missed => rfl
    | reached _ hholds => exact absurd hlacks hholds
  | reached hnone hholds hvalue =>
    cases h' with
    | blocked hblocked => exact absurd hblocked.lacks (hnone _ _ hblocked.action)
    | missed _ hlacks => exact absurd hlacks hholds
    | reached _ _ hvalue' =>
      rw [State.ext_get? fun key => (hvalue key).trans (hvalue' key).symm]

end

/-- **The last writer counts.** A simulation of a plan fails at the first action of which some
precondition differs from what the last writer of its key, or else the current state, gives the key,
and names this action, whatever the goal is. If there is no such action, then it fails to reach the
goal exactly if some condition of the goal differs in this way after the whole plan. Otherwise it
ends in the state that gives every key its last value. -/
theorem simulate_eq_iff_verdict {plan : List Action} {current goal : State}
    {r : Except Failure State} :
    simulate plan current goal = r ↔ Verdict plan current goal r :=
  ⟨fun h => h ▸ verdict_simulate plan current goal, (verdict_simulate plan current goal).eq⟩

end GoalPlanning
