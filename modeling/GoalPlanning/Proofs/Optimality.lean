import GoalPlanning.Proofs.CheapestFirst
import Mathlib.Tactic.Linarith

/-!
# Plans of least cost

An estimate that is at least zero and never more than what remains to be paid makes a search find
a plan of least cost, also if the estimate is inconsistent and residual goals are opened again:
every solution passes a node that waits, and the total of this node is at most that of the
solution. Costs are whole numbers here, and only totals below 2 ^ 53 count, so the sums that
decide are exact. Other sums may be rounded, but never to below a whole number that they reach.
-/

namespace GoalPlanning

/-- An estimate of residual goals is admissible if it is at least zero and at most the cost of any
sequence of actions that makes the residual goal hold. Totals above 2 ^ 53 need not be estimated
exactly. -/
structure Problem.Admissible (p : Problem) (estimate : State → Binary64) : Prop where
  /-- Estimates are at least zero. Infinity is allowed. -/
  isNonneg : ∀ residual, p.Mentions residual → (estimate residual).IsNonneg
  /-- Estimates are at most what remains to be paid. -/
  units_le : ∀ residual run, p.Mentions residual → (p.withGoal residual).IsSolution run →
    totalUnits run ≤ 2 ^ 53 * Binary64.unitsPerOne →
      Binary64.unitsOfCode (estimate residual).magnitude ≤ totalUnits run

/-- A total below 2 ^ 53 in units. -/
theorem totalUnits_lt_of_totalCost_lt {run : List Action} (h : totalCost run < 2 ^ 53) :
    totalUnits run < 2 ^ 53 * Binary64.unitsPerOne := by
  have hpos : (0 : ℚ) < Binary64.unitsPerOne := by exact_mod_cast Binary64.unitsPerOne_pos
  rw [totalCost_eq, div_lt_iff₀ hpos] at h
  exact_mod_cast h

namespace Search

variable {p : Problem} {estimate : State → Binary64} {s rest : Search} {e : Entry} {n : Node}
  {k : ℕ}

/-- Let all costs be multiples of a power of two. As far as totals up to 2 ^ 53 times this power go,
let no estimate exceed what remains to be paid. Then the total of the node that is taken is at most
the total cost of any solution that is in this range. -/
theorem Reachable.total_le (hs : Reachable p estimate s)
    (hnonneg : ∀ residual, p.Mentions residual → (estimate residual).IsNonneg)
    (hgrid : p.OnGrid k)
    (hestimate : ∀ residual run, p.Mentions residual → (p.withGoal residual).IsSolution run →
      totalUnits run ≤ 2 ^ 53 * 2 ^ k →
        Binary64.unitsOfCode (estimate residual).magnitude ≤ totalUnits run)
    (htakes : s.Takes e n rest) {run : List Action} (hrun : p.IsSolution run)
    (hle : totalUnits run ≤ 2 ^ 53 * 2 ^ k) :
    n.total.magnitude ≤ Binary64.codeOfRatio (totalUnits run) 1 := by
  obtain ⟨earlier, later, residual, rfl, hmentions, hearlier, htotal⟩ :=
    hs.exists_total_le hnonneg htakes hrun
  rw [totalUnits_append] at hle ⊢
  have hlater : Binary64.unitsOfCode (summedCost later).magnitude ≤ totalUnits later :=
    unitsOfCode_summedCost_le (fun a ha => hgrid a (hrun.1 a (List.mem_append_right _ ha)))
      (by omega)
  have hearlier_le := hestimate residual earlier hmentions hearlier (by omega)
  calc n.total.magnitude ≤ (summedCost later + estimate residual).magnitude := htotal
    _ = Binary64.codeOfRatio (Binary64.unitsOfCode (summedCost later).magnitude +
          Binary64.unitsOfCode (estimate residual).magnitude) 1 :=
        (summedCost_isUnsigned later).magnitude_add (hnonneg _ hmentions)
    _ ≤ Binary64.codeOfRatio (totalUnits earlier + totalUnits later) 1 :=
        Binary64.codeOfRatio_mono Nat.one_pos Nat.one_pos (by omega)

/-- The actions from the node that is taken to the goal cost no more than any solution, as long as
the total of the solution is below 2 ^ 53. -/
theorem Reachable.totalCost_le (hs : Reachable p estimate s) (hadmissible : p.Admissible estimate)
    (hwhole : ∀ a ∈ p.actions, a.cost.IsWhole) (htakes : s.Takes e n rest) {run : List Action}
    (hrun : p.IsSolution run) (hlt : totalCost run < 2 ^ 53) :
    totalCost (actionsFrom p s.nodes e.node) ≤ totalCost run := by
  have hunits := totalUnits_lt_of_totalCost_lt hlt
  obtain ⟨k, hk⟩ := exists_totalUnits_eq fun a ha => hwhole a (hrun.1 a ha)
  have hk_lt : k < 2 ^ 53 := by
    rw [hk] at hunits
    exact Nat.lt_of_mul_lt_mul_right hunits
  have hcost := hs.cost_le_total hadmissible.isNonneg htakes.node
  obtain ⟨exponent, hone, hgrid⟩ := Problem.exists_onGrid_of_isWhole hwhole
  have htotal := hs.total_le hadmissible.isNonneg hgrid
    (fun residual run' hmentions hrun' hle =>
      hadmissible.units_le residual run' hmentions hrun' (hone ▸ hle)) htakes hrun
    (hone ▸ hunits.le)
  rw [hk] at htotal
  rw [hs.arena.cost_eq htakes.node] at hcost
  rw [totalCost_le_iff, hk]
  exact totalUnits_le_of_summedCost_le
    (fun a ha => hwhole a (hs.arena.mem_actions htakes.node a ha)) hk_lt (hcost.trans htotal)

end Search

/-- With an admissible estimate a search without a limit finds a plan of least cost, if there is a
solution of a total below 2 ^ 53. -/
theorem Strategy.exists_least_plan {heuristic : Heuristic} {p : Problem}
    (hadmissible : p.Admissible (Strategy.estimate ⟨heuristic, none⟩ p))
    (hwhole : ∀ a ∈ p.actions, a.cost.IsWhole) {run : List Action} (hrun : p.IsSolution run)
    (hlt : totalCost run < 2 ^ 53) :
    ∃ steps, (Strategy.search ⟨heuristic, none⟩ p).plan = .ok steps ∧
      IsLeast p.totals (totalCost steps) := by
  obtain ⟨s, hs, ⟨number, n, rest, hnext, hcovered, hplan⟩ | ⟨hnone, -⟩⟩ :=
    Strategy.exists_outcome_of_unlimited heuristic p
  · obtain ⟨e, rfl, htakes⟩ := Search.takes_of_next? hnext
    have hle := hs.totalCost_le hadmissible hwhole htakes hrun hlt
    have hleast : totalCost (actionsFrom p s.nodes e.node) ∈ lowerBounds p.totals := by
      rintro total ⟨run', hrun', rfl⟩
      by_cases hsmall : totalCost run' < 2 ^ 53
      · exact hs.totalCost_le hadmissible hwhole htakes hrun' hsmall
      · exact hle.trans (hlt.le.trans (not_lt.1 hsmall))
    exact ⟨_, hplan, ⟨_, hs.isSolution htakes.node hcovered, rfl⟩, hleast⟩
  · exact absurd hnone (hs.next?_ne_none hrun)

/-- **Optimality for inconsistent estimates.** Let all costs be whole numbers, and let a heuristic
be at least zero everywhere and at most the exact total of every sequence of actions that makes a
residual goal hold. If there is a solution of a total below 2 ^ 53, then the search without a limit
finds a plan whose costs add up to the least total of all solutions. -/
theorem Strategy.exists_search_isLeast {heuristic : Heuristic} {p : Problem}
    (hnonneg : ∀ residual,
      Binary64.zero.numericLe (heuristic residual p.current (Bounds.ofActions p.actions)) = true)
    (hle : ∀ residual run, (p.withGoal residual).IsSolution run →
      (heuristic residual p.current (Bounds.ofActions p.actions)).isFinite = true ∧
        (heuristic residual p.current (Bounds.ofActions p.actions)).toRat ≤ totalCost run)
    (hwhole : ∀ a ∈ p.actions, a.cost.IsWhole) {run : List Action} (hrun : p.IsSolution run)
    (hlt : totalCost run < 2 ^ 53) :
    ∃ steps, (Strategy.search ⟨heuristic, none⟩ p).plan = .ok steps ∧
      IsLeast p.totals (totalCost steps) := by
  have hadmissible : p.Admissible (Strategy.estimate ⟨heuristic, none⟩ p) := by
    constructor
    · intro residual _
      exact Binary64.isNonneg_iff.2 (hnonneg residual)
    · intro residual run' _ hrun' _
      obtain ⟨-, hestimate⟩ := hle residual run' hrun'
      rw [totalCost_eq] at hestimate
      exact (Binary64.isNonneg_iff.2 (hnonneg residual)).toRat_le_iff.1 hestimate
  exact Strategy.exists_least_plan hadmissible hwhole hrun hlt

/-! Two ways home: by bus from the stop, or over a bridge near it, which is cheaper. A heuristic
knows what it costs at least to get to the bridge, but nothing about the stop. So the stop is
expanded at the price of the bus ticket first, and is opened again once the bridge is reached. -/

namespace WaysHome

/-- The state that asks for one place. -/
def place (name : String) : State := State.empty.insert name (.bool true)

/-- Goes to the stop. -/
def walk : Action :=
  ⟨"walk", Binary64.ofNat 5, State.empty, place "stop", by decide +kernel, by decide⟩

/-- Goes from the stop to the bridge. -/
def turn : Action :=
  ⟨"turn", Binary64.ofNat 1, place "stop", place "bridge", by decide +kernel, by decide⟩

/-- Goes home over the bridge. -/
def cross : Action :=
  ⟨"cross", Binary64.ofNat 1, place "bridge", place "home", by decide +kernel, by decide⟩

/-- Goes home by bus. -/
def ride : Action :=
  ⟨"ride", Binary64.ofNat 3, place "stop", place "home", by decide +kernel, by decide⟩

/-- The problem of getting home. -/
def problem : Problem := ⟨[ride, cross, turn, walk], State.empty, place "home"⟩

/-- Knows that getting to the bridge costs five at least. -/
def heuristic : Heuristic := Heuristic.table [(place "bridge", Binary64.ofNat 5)] Binary64.zero

/-- All costs are whole. -/
theorem isWhole_cost : ∀ a ∈ problem.actions, a.cost.IsWhole := by
  simp only [problem, List.forall_mem_cons]
  refine ⟨?_, ?_, ?_, ?_, nofun⟩ <;> exact Binary64.isWhole_ofNat (by norm_num)

/-- Walking to the stop, turning to the bridge and crossing it is a solution. -/
theorem isSolution : problem.IsSolution [walk, turn, cross] :=
  ⟨by simp [problem], _, rfl⟩

/-- This way home costs seven. -/
theorem totalCost_solution : totalCost [walk, turn, cross] = 7 := by
  have htoRat {n : ℕ} (hn : n ≤ 2 ^ 53) := Binary64.toRat_ofNat hn
  simp only [totalCost_cons, totalCost_nil, walk, turn, cross]
  rw [htoRat (by norm_num), htoRat (by norm_num)]
  norm_num

/-- Every way that comes to the bridge starts with the walk to the stop. -/
theorem five_le_totalCost {run : List Action}
    (hrun : (problem.withGoal (place "bridge")).IsSolution run) : 5 ≤ totalCost run := by
  obtain ⟨hactions, t, ht⟩ := hrun
  obtain ⟨hperform, hsatisfies⟩ := simulate_eq_ok_iff.1 ht
  cases run with
  | nil =>
    rw [perform, Except.ok.injEq] at hperform
    rw [← hperform] at hsatisfies
    exact absurd hsatisfies (by decide)
  | cons a run =>
    have hcan := (perform_cons_eq_ok_iff.1 hperform).1
    have hwalk : a = walk := by
      have ha : a ∈ [ride, cross, turn, walk] := hactions a List.mem_cons_self
      simp only [List.mem_cons, List.not_mem_nil, or_false] at ha
      rcases ha with rfl | rfl | rfl | rfl
      · exact absurd hcan (by decide)
      · exact absurd hcan (by decide)
      · exact absurd hcan (by decide)
      · rfl
    have hfive : walk.cost.toRat = 5 := Binary64.toRat_ofNat (n := 5) (by norm_num)
    have hrest := totalCost_nonneg run
    rw [hwalk, totalCost_cons, hfive]
    linarith

/-- The estimate is five on the bridge and zero elsewhere. -/
theorem heuristic_eq (residual current : State) (bounds : Bounds) :
    heuristic residual current bounds =
      if residual = place "bridge" then Binary64.ofNat 5 else Binary64.zero := by
  unfold heuristic Heuristic.table
  by_cases hbridge : residual = place "bridge"
  · rw [hbridge, List.lookup_cons_self, Option.getD_some, if_pos rfl]
  · rw [List.lookup_cons, beq_false_of_ne hbridge, if_neg hbridge]
    rfl

/-- The estimate is never below zero. -/
theorem heuristic_nonneg (residual current : State) (bounds : Bounds) :
    Binary64.zero.numericLe (heuristic residual current bounds) = true := by
  rw [heuristic_eq]
  split
  · decide +kernel
  · decide

/-- The estimate never exceeds what a solution costs. -/
theorem heuristic_le {residual : State} {run : List Action}
    (hrun : (problem.withGoal residual).IsSolution run) (current : State) (bounds : Bounds) :
    (heuristic residual current bounds).isFinite = true ∧
      (heuristic residual current bounds).toRat ≤ totalCost run := by
  rw [heuristic_eq]
  split
  case isTrue hbridge =>
    have hfive : (Binary64.ofNat 5).toRat = 5 := Binary64.toRat_ofNat (n := 5) (by norm_num)
    rw [hfive]
    exact ⟨by decide +kernel, five_le_totalCost (hbridge ▸ hrun)⟩
  case isFalse =>
    rw [Binary64.toRat_zero]
    exact ⟨by decide, totalCost_nonneg run⟩

/-- The way over the bridge is found, although the stop is expanded at a higher cost first. -/
theorem exists_way_isLeast :
    ∃ steps, (Strategy.search ⟨heuristic, none⟩ problem).plan = .ok steps ∧
      IsLeast problem.totals (totalCost steps) :=
  Strategy.exists_search_isLeast (fun residual => heuristic_nonneg residual _ _)
    (fun _ _ hrun => heuristic_le hrun _ _) isWhole_cost isSolution
    (by rw [totalCost_solution]; norm_num)

/-- The stop is expanded twice. -/
example : (Strategy.search ⟨heuristic, none⟩ problem).final.expanded.toList.map Node.residual =
    [place "home", place "stop", place "bridge", place "stop"] := by
  decide +kernel

end WaysHome

end GoalPlanning
