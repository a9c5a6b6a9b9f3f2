import GoalPlanning.Proofs.Search.Lockstep
import GoalPlanning.Proofs.Soundness
import GoalPlanning.Proofs.UnmetConditions

/-!
# Facts that nobody mentions

Residual goals never ask for a key that neither the goal nor a precondition mentions. What the
current state says about such a key is therefore never looked up: not to see whether a plan is
complete, and not to count the conditions that remain. Two current states that agree on all other
keys make the same search.
-/

namespace GoalPlanning

/-- A key is mentioned if the goal or the preconditions of some action have a value for it. -/
def Problem.MentionsKey (p : Problem) (key : String) : Prop :=
  p.goal.contains key = true ∨ ∃ a ∈ p.actions, a.preconditions.contains key = true

instance (p : Problem) (key : String) : Decidable (p.MentionsKey key) :=
  inferInstanceAs (Decidable (_ ∨ _))

/-- Residual goals only ask for keys that are mentioned. -/
theorem Problem.Mentions.mentionsKey {p : Problem} {residual : State} (h : p.Mentions residual)
    {key : String} {value : Value} (hkey : residual.get? key = some value) : p.MentionsKey key := by
  have hcontains {s : State} (hfact : (key, value) ∈ s.entries) : s.contains key = true := by
    rw [State.contains, State.mem_entries_iff.1 hfact, Option.isSome_some]
  rcases List.mem_append.1 (h (key, value) (State.mem_entries_iff.2 hkey)) with hgoal | hpre
  · exact Or.inl (hcontains hgoal)
  · obtain ⟨a, ha, hfact⟩ := List.mem_flatMap.1 hpre
    exact Or.inr ⟨a, ha, hcontains hfact⟩

/-- What remains of a residual goal only depends on the keys that it has. -/
theorem State.without_congr {residual s s' : State}
    (h : ∀ key value, residual.get? key = some value → s.get? key = s'.get? key) :
    residual.without s = residual.without s' := by
  refine ext_get? fun key => ?_
  rw [get?_without, get?_without]
  cases hkey : residual.get? key with
  | none => rw [ite_self, ite_self]
  | some value => rw [h key value hkey]

/-- **Facts that nobody mentions do not matter.** Let another current state agree with the one of a
problem on every key that is mentioned. Then the search that follows the usual estimate, or none,
within a limit or without one, makes the same plan from both, or fails in the same way. It expands
the same residual goals in the same order and makes the same number of nodes. -/
theorem Strategy.search_eq_of_agree {heuristic : Heuristic}
    (hheuristic : heuristic = Heuristic.unmet ∨ heuristic = Heuristic.zero) (limit : Option ℕ)
    {p : Problem} {current : State}
    (hagree : ∀ key, p.MentionsKey key → current.get? key = p.current.get? key) :
    let report := Strategy.search ⟨heuristic, limit⟩ p
    let report' := Strategy.search ⟨heuristic, limit⟩ { p with current }
    report'.plan = report.plan ∧ report'.steps = report.steps ∧
      report'.final.expanded.map Node.residual = report.final.expanded.map Node.residual ∧
      report'.final.nodes.size = report.final.nodes.size := by
  intro report report'
  have hwithout (residual : State) (hresidual : p.Mentions residual) :
      (residual.without current).size = (residual.without p.current).size := by
    rw [State.without_congr fun key _ hkey => hagree key (hresidual.mentionsKey hkey)]
  let T := Translation.ofCurrent p current fun residual hresidual =>
    State.satisfies_eq_of_size_without_eq (hwithout residual hresidual)
  obtain ⟨hsteps, hfinal⟩ := T.mirrors_search ⟨heuristic, limit⟩ rfl fun residual hresidual =>
    Heuristic.eq_of_size_without_eq hheuristic (hwithout residual hresidual)
      (Bounds.ofActions p.actions)
  have hplan : report'.plan = report.plan := by
    rw [Report.plan, Report.plan, show report'.steps = report.steps from hsteps]
    rfl
  exact ⟨hplan, hsteps, hfinal.map_residual_expanded.trans (Array.map_id _), hfinal.size_nodes⟩

namespace Chest

/-- It rains while the chest is to be opened. -/
def currentInRain : State := current.insert "weather" (.string "rain")

/-- The weather does not change the plan that A* search finds. -/
theorem plan_inRain :
    let p : Problem := ⟨planner.actions, current, goal⟩
    currentInRain ≠ current ∧
      ((Strategy.aStar none).search { p with current := currentInRain }).plan =
        .ok [openChest, forgeKey] := by
  intro p
  have hagree : ∀ key, p.MentionsKey key → currentInRain.get? key = p.current.get? key := by
    intro key hkey
    have hne : key ≠ "weather" := by
      rintro rfl
      revert hkey
      decide
    rw [currentInRain, State.get?_insert, if_neg hne]
  obtain ⟨hplan, -⟩ := Strategy.search_eq_of_agree (.inl rfl) none hagree
  have hdry : ((Strategy.aStar none).search p).plan = .ok [openChest, forgeKey] := by
    decide +kernel
  exact ⟨by decide, hplan.trans hdry⟩

end Chest

end GoalPlanning
