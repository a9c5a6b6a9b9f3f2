import GoalPlanning.Action.Draft
import GoalPlanning.Proofs.State.Histories

/-!
# Only the last step about something counts

A draft takes steps about its preconditions, its effects and its cost in any order, and later ones
may undo earlier ones. What becomes of it in the end can be told from the list of steps alone: for
each key from the last step about it, and from the last cost that is set. A cost that is no cost is
reported first, then that nothing is left of the effects. Otherwise there is an action, and it is
made of what the last steps say.
-/

namespace GoalPlanning

/-- A cost is refused if it is NaN, infinite or below zero. -/
theorem Binary64.isCost_eq_false_iff {x : Binary64} :
    x.isCost = false ↔ x.isNaN = true ∨ x.isInfinite = true ∨ x.isBelowZero = true := by
  have hfinite : x.isFinite = false ↔ x.isNaN = true ∨ x.isInfinite = true := by
    simp only [isFinite, isNaN, isInfinite, decide_eq_false_iff_not, decide_eq_true_eq, beq_iff_eq]
    omega
  rw [isCost, Bool.and_eq_false_iff, hfinite, Bool.not_eq_false', or_assoc]

/-- A state without any fact gives no key a value. -/
theorem State.isEmpty_iff_get? {s : State} : s.isEmpty = true ↔ ∀ key, s.get? key = none := by
  rw [isEmpty, List.isEmpty_iff, List.eq_nil_iff_forall_not_mem]
  constructor
  · intro h key
    rw [Option.eq_none_iff_forall_ne_some]
    exact fun value hvalue => h (key, value) (mem_entries_iff.2 hvalue)
  · intro h e he
    simp [mem_entries_iff, h] at he

namespace Draft

/-! ## What a list of steps says -/

/-- The write to the preconditions that a step makes, if it is about them. -/
def Edit.precondition? : Edit → Option State.Write
  | addPrecondition key value => some (key, some value)
  | removePrecondition key => some (key, none)
  | _ => none

/-- The write to the effects that a step makes, if it is about them. -/
def Edit.effect? : Edit → Option State.Write
  | addEffect key value => some (key, some value)
  | removeEffect key => some (key, none)
  | _ => none

/-- The cost that a step sets, if it is about the cost. -/
def Edit.cost? : Edit → Option Binary64
  | setCost cost => some cost
  | _ => none

/-- The value that the last step about a precondition requires. It is none if the step removes the
precondition, or if there is no such step. -/
def lastPrecondition (edits : List Edit) : String → Option Value :=
  State.lastWrite (edits.filterMap Edit.precondition?)

/-- The value that the last step about an effect gives. It is none if the step removes the effect,
or if there is no such step. -/
def lastEffect (edits : List Edit) : String → Option Value :=
  State.lastWrite (edits.filterMap Edit.effect?)

/-- The cost that is set last, and one if none is set. -/
def lastCost (edits : List Edit) : Binary64 :=
  (edits.reverse.findSome? Edit.cost?).getD Binary64.one

/-- What finishing a draft with the given name has to answer after some steps. -/
inductive Outcome (name : String) (edits : List Edit) : Except Failure Action → Prop
  /-- The last cost is refused, whatever the effects are. -/
  | invalidCost : (lastCost edits).isNaN = true ∨ (lastCost edits).isInfinite = true ∨
      (lastCost edits).isBelowZero = true → Outcome name edits (.error .invalidCost)
  /-- If it is not, then there may be no effect left. -/
  | noEffects : (lastCost edits).isCost = true → (∀ key, lastEffect edits key = none) →
      Outcome name edits (.error (.noEffects name))
  /-- Otherwise there is an action that is what the last steps say. -/
  | built {a : Action} : (lastCost edits).isCost = true → (∃ key, lastEffect edits key ≠ none) →
      a.name = name → a.cost = lastCost edits →
      (∀ key, a.preconditions.get? key = lastPrecondition edits key) →
      (∀ key, a.effects.get? key = lastEffect edits key) → Outcome name edits (.ok a)

section

variable {name : String} {edits : List Edit}

/-! ## One step -/

/-- The state `s'` is the state `s` after a write, or the same if there is none. -/
def Writes (write? : Option State.Write) (s s' : State) : Prop :=
  match write? with
  | none => s' = s
  | some w => ∀ key, s'.get? key = if key = w.1 then w.2 else s.get? key

/-- A step changes the preconditions by the write that it makes to them. -/
theorem writes_preconditions_edit (d : Draft) (e : Edit) :
    Writes e.precondition? d.preconditions (d.edit e).preconditions := by
  cases e with
  | addPrecondition key value => exact State.get?_insert d.preconditions key value
  | removePrecondition key => exact State.get?_erase d.preconditions key
  | addEffect | removeEffect | setCost => rfl

/-- A step changes the effects by the write that it makes to them. -/
theorem writes_effects_edit (d : Draft) (e : Edit) :
    Writes e.effect? d.effects (d.edit e).effects := by
  cases e with
  | addEffect key value => exact State.get?_insert d.effects key value
  | removeEffect key => exact State.get?_erase d.effects key
  | addPrecondition | removePrecondition | setCost => rfl

/-- No edit changes the name. -/
theorem name_edit (d : Draft) (e : Edit) : (d.edit e).name = d.name := by
  cases e <;> rfl

/-- An edit changes the cost only if it sets one. -/
theorem cost_edit (d : Draft) (e : Edit) : (d.edit e).cost = e.cost?.getD d.cost := by
  cases e <;> rfl

/-! ## All steps -/

/-- One more step comes after all others. -/
theorem editAll_append_singleton (d : Draft) (edits : List Edit) (e : Edit) :
    d.editAll (edits ++ [e]) = (d.editAll edits).edit e := by
  rw [editAll, List.foldl_append]
  rfl

/-- If each step changes a state of the draft by the write that it makes to it, then all steps
together leave the values that were written last. -/
theorem get?_editAll {part : Draft → State} {write? : Edit → Option State.Write}
    (hstep : ∀ d e, Writes (write? e) (part d) (part (d.edit e))) {d : Draft}
    (hempty : part d = State.empty) (edits : List Edit) (key : String) :
    (part (d.editAll edits)).get? key = State.lastWrite (edits.filterMap write?) key := by
  induction edits using List.reverseRecOn with
  | nil =>
    change (part d).get? key = none
    rw [hempty, State.get?_empty]
  | append_singleton edits e ih =>
    have hwrites := hstep (d.editAll edits) e
    rw [editAll_append_singleton, List.filterMap_append]
    cases hwrite : write? e with
    | none =>
      simp only [Writes, hwrite] at hwrites
      simpa [hwrites, hwrite] using ih
    | some w =>
      simp only [Writes, hwrite] at hwrites
      simp only [List.filterMap_cons, List.filterMap_nil, hwrite]
      rw [State.lastWrite_append_singleton, hwrites key, ih]

/-- Edits do not change the name. -/
theorem name_editAll (d : Draft) (edits : List Edit) : (d.editAll edits).name = d.name := by
  induction edits using List.reverseRecOn with
  | nil => rfl
  | append_singleton edits e ih => rw [editAll_append_singleton, name_edit, ih]

/-- The cost that is set last counts. -/
theorem cost_editAll (name : String) (edits : List Edit) :
    (editAll { name } edits).cost = lastCost edits := by
  induction edits using List.reverseRecOn with
  | nil => rfl
  | append_singleton edits e ih =>
    rw [editAll_append_singleton, cost_edit, ih, lastCost, lastCost, List.reverse_append]
    cases hcost : e.cost? <;> simp [hcost]

/-- A precondition is what the last edit of it says. -/
theorem get?_preconditions_editAll (name : String) (edits : List Edit) (key : String) :
    (editAll { name } edits).preconditions.get? key = lastPrecondition edits key :=
  get?_editAll writes_preconditions_edit rfl edits key

/-- An effect is what the last edit of it says. -/
theorem get?_effects_editAll (name : String) (edits : List Edit) (key : String) :
    (editAll { name } edits).effects.get? key = lastEffect edits key :=
  get?_editAll writes_effects_edit rfl edits key

/-! ## Finishing -/

/-- Finishing a draft answers what it has to. -/
theorem outcome_build (name : String) (edits : List Edit) :
    Outcome name edits (editAll { name } edits).build := by
  have hcost := cost_editAll name edits
  have heffects : (editAll { name } edits).effects.isEmpty = true ↔
      ∀ key, lastEffect edits key = none := by
    simp only [State.isEmpty_iff_get?, get?_effects_editAll]
  unfold build
  split
  case isTrue hvalid =>
    split
    case isTrue hsome =>
      have hexists : ∃ key, lastEffect edits key ≠ none := by
        by_contra hnone
        simp only [ne_eq, not_exists, not_not] at hnone
        simp [heffects.2 hnone] at hsome
      exact .built (hcost ▸ hvalid) hexists (name_editAll _ edits) hcost
        (get?_preconditions_editAll name edits) (get?_effects_editAll name edits)
    case isFalse hnone =>
      rw [name_editAll]
      exact .noEffects (hcost ▸ hvalid) (heffects.1 (by simpa using hnone))
  case isFalse hinvalid =>
    rw [hcost, Bool.not_eq_true, Binary64.isCost_eq_false_iff] at hinvalid
    exact .invalidCost hinvalid

/-- There is only one answer. -/
theorem Outcome.eq {r r' : Except Failure Action} (h : Outcome name edits r)
    (h' : Outcome name edits r') : r = r' := by
  cases h with
  | invalidCost hrefused =>
    have hinvalid := Binary64.isCost_eq_false_iff.2 hrefused
    cases h' with
    | invalidCost => rfl
    | noEffects hvalid | built hvalid => simp [hvalid] at hinvalid
  | noEffects hvalid hnone =>
    cases h' with
    | invalidCost hrefused => simp [Binary64.isCost_eq_false_iff.2 hrefused] at hvalid
    | noEffects => rfl
    | built _ hsome =>
      obtain ⟨key, hkey⟩ := hsome
      exact absurd (hnone key) hkey
  | @built a hvalid hsome hname hcost hpreconditions heffects =>
    cases h' with
    | invalidCost hrefused => simp [Binary64.isCost_eq_false_iff.2 hrefused] at hvalid
    | noEffects _ hnone =>
      obtain ⟨key, hkey⟩ := hsome
      exact absurd (hnone key) hkey
    | @built b _ _ hname' hcost' hpreconditions' heffects' =>
      have hpre : a.preconditions = b.preconditions :=
        State.ext_get? fun key => (hpreconditions key).trans (hpreconditions' key).symm
      have heff : a.effects = b.effects :=
        State.ext_get? fun key => (heffects key).trans (heffects' key).symm
      cases a
      cases b
      simp_all

/-- **Only the last steps count.** Whatever steps a draft takes, in whatever order, finishing it
fails for its cost exactly if the cost set last, or one if none is set, is NaN, infinite or below
zero. If it does not, then it fails for its effects, and names the action, exactly if no key has a
step that adds an effect as its last step about effects. Otherwise it gives an action of that name
and, bit for bit, that cost, whose preconditions and effects are those whose last step adds them. -/
theorem build_eq_iff_outcome {r : Except Failure Action} :
    (editAll { name } edits).build = r ↔ Outcome name edits r :=
  ⟨fun h => h ▸ outcome_build name edits, (outcome_build name edits).eq⟩

end

/-- Negative zero is no refused cost, and an effect that has been removed can be added again. -/
example : ((editAll { name := "toggle" } [.addEffect "on" (.bool true), .removeEffect "on",
    .setCost (Binary64.signedZero true), .addEffect "on" (.bool false)]).build.toOption.map
      fun a => (a.cost.toBits, a.effects.entries)) =
    some (0x8000000000000000, [("on", .bool false)]) := by
  decide +kernel

end Draft

end GoalPlanning
