import GoalPlanning.Proofs.Search.Budgets
import GoalPlanning.Proofs.Search.Lockstep
import GoalPlanning.Proofs.Search.Reopening
import GoalPlanning.Proofs.UnmetEstimate

/-!
# The estimate never costs work

If costs are whole numbers and all sums are below 2 ^ 53, then A* search expands no residual goal
twice and none that Dijkstra's search does not expand. The estimate is consistent, so totals never
fall along a run. It is also positive wherever a plan is not complete yet, unless it is zero
everywhere. In the first case everything that A* search expands costs less than the cheapest plan,
and Dijkstra's search expands all that; in the second case both are the same search.
-/

namespace GoalPlanning

/-- All costs, estimates and totals of nodes are below 2 ^ 53. -/
def Search.IsSmall (s : Search) : Prop :=
  ∀ n ∈ s.nodes, n.cost.toRat < 2 ^ 53 ∧ n.estimate.toRat < 2 ^ 53 ∧ n.total.toRat < 2 ^ 53

namespace Search

variable {p : Problem} {estimate : State → Binary64} {limit : Option ℕ} {s : Search} {i : ℕ}
  {n : Node}

/-! ## Exact totals -/

/-- A small cost in units. -/
theorem Reachable.units_cost_lt (hs : Reachable p estimate s) (hsmall : s.IsSmall)
    (hn : s.nodes[i]? = some n) :
    Binary64.unitsOfCode n.cost.magnitude < 2 ^ 53 * Binary64.unitsPerOne :=
  (hs.arena.cost_isUnsigned hn).isNonneg.units_lt_of_toRat_lt
    (hsmall n (Array.mem_of_getElem? hn)).1

/-- Whole costs below 2 ^ 53 are summed exactly. -/
theorem Reachable.units_cost (hs : Reachable p estimate s)
    (hwhole : ∀ a ∈ p.actions, a.cost.IsWhole) (hsmall : s.IsSmall) (hn : s.nodes[i]? = some n) :
    Binary64.unitsOfCode n.cost.magnitude = totalUnits (actionsFrom p s.nodes i) := by
  have hlt := hs.units_cost_lt hsmall hn
  rw [hs.arena.cost_eq hn] at hlt ⊢
  exact unitsOfCode_summedCost_of_lt (fun a ha => hwhole a (hs.arena.mem_actions hn a ha)) hlt

/-- If actions have whole costs and the search is small, then the costs of its nodes are whole. -/
theorem Reachable.unitsPerOne_dvd_cost (hs : Reachable p estimate s)
    (hwhole : ∀ a ∈ p.actions, a.cost.IsWhole) (hsmall : s.IsSmall) (hn : s.nodes[i]? = some n) :
    Binary64.unitsPerOne ∣ Binary64.unitsOfCode n.cost.magnitude := by
  rw [hs.units_cost hwhole hsmall hn]
  exact dvd_totalUnits fun a ha =>
    Action.unitsPerOne_dvd (hwhole a (hs.arena.mem_actions hn a ha))

/-- The totals of A* search are exact. -/
theorem Reachable.units_total (hs : Reachable p ((Strategy.aStar limit).estimate p) s)
    (hwhole : ∀ a ∈ p.actions, a.cost.IsWhole) (hkeys : p.keys.card ≤ 2 ^ 53)
    (hsmall : s.IsSmall) (hn : s.nodes[i]? = some n) :
    Binary64.unitsOfCode n.total.magnitude =
      Binary64.unitsOfCode n.cost.magnitude + p.unmetUnits n.residual := by
  obtain ⟨-, hestimate, htotal⟩ := hsmall n (Array.mem_of_getElem? hn)
  obtain ⟨hnonneg, hmagnitude⟩ := (hs.arena.mentions hn).unmet_spec hkeys limit
  have hdvd := Problem.unitsPerOne_dvd_unmetUnits hwhole n.residual
  rw [← hs.arena.estimate_eq i n hn] at hnonneg hmagnitude
  have hexact : Binary64.unitsOfCode n.estimate.magnitude = p.unmetUnits n.residual := by
    have hlt := hnonneg.units_lt_of_toRat_lt hestimate
    rw [hmagnitude] at hlt ⊢
    exact Binary64.unitsOfCode_codeOfRatio_of_lt hdvd hlt
  have hcost := hs.arena.cost_isUnsigned hn
  have hlt := (hcost.add hnonneg).isNonneg.units_lt_of_toRat_lt htotal
  rw [← hexact] at hdvd ⊢
  exact hcost.units_add_of_lt hnonneg (hs.unitsPerOne_dvd_cost hwhole hsmall hn) hdvd hlt

/-- In A* search totals never fall, and cheaper nodes have smaller totals. -/
theorem Reachable.monotone (hs : Reachable p ((Strategy.aStar limit).estimate p) s)
    (hwhole : ∀ a ∈ p.actions, a.cost.IsWhole) (hkeys : p.keys.card ≤ 2 ^ 53)
    (hsmall : s.IsSmall) : Node.Monotone s.nodes := by
  have hrank {i : ℕ} {n : Node} (hn : s.nodes[i]? = some n) : n.total.rank = n.total.magnitude :=
    (hs.total_isUnsigned (fun _ => Problem.unmet_isNonneg hkeys limit) hn).rank_eq
  have htotal {i : ℕ} {n : Node} (hn : s.nodes[i]? = some n) :=
    hs.units_total hwhole hkeys hsmall hn
  constructor
  · intro i n parent o hn horigin hparent
    obtain ⟨a, ha, hregress, hcost⟩ := hs.arena.exists_action hn horigin hparent
    -- One action lowers the estimate by no more than it adds to the cost.
    have hconsistent := Problem.unmetUnits_le_of_regress? ha hregress
    have hlt := hs.units_cost_lt hsmall hn
    have hsum : Binary64.unitsOfCode n.cost.magnitude =
        Binary64.unitsOfCode parent.cost.magnitude + Binary64.unitsOfCode a.cost.magnitude := by
      rw [hcost] at hlt ⊢
      exact (hs.arena.cost_isUnsigned hparent).units_add_of_lt a.cost_isNonneg
        (hs.unitsPerOne_dvd_cost hwhole hsmall hparent) (Action.unitsPerOne_dvd (hwhole a ha)) hlt
    rw [hrank hparent, hrank hn, Nat.cast_le, ← Binary64.unitsOfCode_strictMono.le_iff_le,
      htotal hparent, htotal hn]
    omega
  · intro i j m n hm hn hsame hlt
    rw [hrank hm, hrank hn, Nat.cast_lt, ← Binary64.unitsOfCode_strictMono.lt_iff_lt, htotal hm,
      htotal hn, hsame]
    exact Nat.add_lt_add_right (Binary64.unitsOfCode_strictMono hlt) _

/-! ## What A* search expands -/

/-- If the estimate is zero only where the current state satisfies the residual goal, then
everything that A* search expands costs less than any solution. -/
theorem Reachable.cost_lt_of_mem_expanded
    (hs : Reachable p ((Strategy.aStar limit).estimate p) s)
    (hwhole : ∀ a ∈ p.actions, a.cost.IsWhole) (hkeys : p.keys.card ≤ 2 ^ 53)
    (hsmall : s.IsSmall)
    (hpos : ∀ residual, p.current.satisfies residual = false → 0 < p.unmetUnits residual)
    (hn : n ∈ s.expanded) {run : List Action} (hrun : p.IsSolution run)
    (hle : totalUnits run ≤ 2 ^ 53 * Binary64.unitsPerOne) :
    n.cost.magnitude < Binary64.codeOfRatio (totalUnits run) 1 := by
  obtain ⟨k, hone, hgrid⟩ := Problem.exists_onGrid_of_isWhole hwhole
  obtain ⟨i, hi⟩ := (hs.inOrder (hs.monotone hwhole hkeys hsmall)).node n hn
  have hunsatisfied : p.current.satisfies n.residual = false :=
    hs.forall_expanded (P := fun x => p.current.satisfies x.residual = false)
      (fun _ _ _ _ _ _ h => h) n hn
  have htotal : n.total.magnitude ≤ Binary64.codeOfRatio (totalUnits run) 1 := by
    refine hs.forall_expanded
      (P := fun x => x.total.magnitude ≤ Binary64.codeOfRatio (totalUnits run) 1) ?_ n hn
    intro s e x rest hs htakes _
    exact hs.total_le (fun _ => Problem.unmet_isNonneg hkeys limit) hgrid
      (fun _ _ => Problem.units_unmet_le hgrid hkeys limit) htakes hrun (hone ▸ hle)
  refine lt_of_lt_of_le ?_ htotal
  have hestimate := hpos n.residual hunsatisfied
  rw [← Binary64.unitsOfCode_strictMono.lt_iff_lt, hs.units_total hwhole hkeys hsmall hi]
  omega

end Search

namespace Strategy

variable {p : Problem}

/-- If the estimate is zero everywhere, then A* search and Dijkstra's search expand the same
residual goals. -/
theorem expanded_dijkstra_eq (hkeys : p.keys.card ≤ 2 ^ 53)
    (hzero : ∀ residual, p.unmetUnits residual = 0) :
    ((dijkstra none).search p).final.expanded.map Node.residual =
      ((aStar none).search p).final.expanded.map Node.residual := by
  have hsame : p.SameTotals ((aStar none).estimate p) ((dijkstra none).estimate p) := by
    intro residual hmentions g hg
    obtain ⟨hnonneg, hmagnitude⟩ := hmentions.unmet_spec hkeys none
    rw [hzero residual] at hmagnitude
    have hcode : Binary64.codeOfRatio 0 1 = 0 := by decide
    rw [hg.add_eq_left hnonneg (hmagnitude.trans hcode)]
    exact (hg.add_eq_left Binary64.zero_isUnsigned.isNonneg rfl).symm
  let T := Translation.ofCurrent p p.current fun _ _ => rfl
  obtain ⟨-, hfinal⟩ := T.mirrors_ofSearch ((dijkstra none).estimate p) hsame
    ((dijkstra none).budget p)
  rw [search_eq, search_eq]
  exact hfinal.map_residual_expanded.trans (Array.map_id _)

/-- A* search stops where every residual goal has been expanded once at most. -/
theorem exists_inOrder (hwhole : ∀ a ∈ p.actions, a.cost.IsWhole) (hkeys : p.keys.card ≤ 2 ^ 53)
    (hsmall : ((aStar none).search p).final.IsSmall) :
    ∃ s, Search.Reachable p ((aStar none).estimate p) s ∧ s.IsSmall ∧ s.InOrder ∧
      ((aStar none).search p).final.expanded = s.expanded := by
  obtain ⟨s, hs, hstops, -⟩ := exists_stopsAt_of_unlimited (aStar none) rfl p
  obtain ⟨hnodes, hexpanded⟩ := hstops.eq
  rw [Search.IsSmall, hnodes] at hsmall
  exact ⟨s, hs, hsmall, hs.inOrder (hs.monotone hwhole hkeys hsmall), hexpanded⟩

/-- If the estimate is zero only where the current state satisfies the residual goal, then
everything that A* search expands is expanded by Dijkstra's search. -/
theorem exists_expanded_dijkstra (hwhole : ∀ a ∈ p.actions, a.cost.IsWhole)
    (hkeys : p.keys.card ≤ 2 ^ 53) (hsmall : ((aStar none).search p).final.IsSmall)
    (hsmall' : ((dijkstra none).search p).final.IsSmall)
    (hpos : ∀ residual, p.current.satisfies residual = false → 0 < p.unmetUnits residual)
    {n : Node} (hn : n ∈ ((aStar none).search p).final.expanded) :
    ∃ m ∈ ((dijkstra none).search p).final.expanded, m.residual = n.residual := by
  obtain ⟨s, hs, hs_small, hinorder, hexpanded⟩ := exists_inOrder hwhole hkeys hsmall
  obtain ⟨s', hs', hstops', hending⟩ := exists_stopsAt_of_unlimited (dijkstra none) rfl p
  obtain ⟨hnodes', hexpanded'⟩ := hstops'.eq
  rw [hexpanded] at hn
  obtain ⟨i, hi⟩ := hinorder.node n hn
  have hnonneg : ∀ residual, p.Mentions residual →
      ((dijkstra none).estimate p residual).IsNonneg := fun _ _ =>
    Binary64.zero_isUnsigned.isNonneg
  rw [hexpanded']
  apply hs'.exists_expanded n.residual
  cases hend : ((dijkstra none).search p).ending with
  | overBudget => exact absurd hend hending
  | noPlan => exact hs'.mem_closed_of_next?_eq_none hnonneg (hend ▸ hstops').1 hs.arena hi
  | found number =>
    rw [hend] at hstops'
    obtain ⟨m, hnext, hcovered⟩ := hstops'
    obtain ⟨e, rfl, htakes⟩ := Search.takes_of_next? hnext
    refine hs'.mem_closed_of_cost_lt hnonneg (fun _ _ => rfl) htakes hs.arena hi ?_
    have hrun := hs'.isSolution htakes.node hcovered
    have hunsigned := hs'.arena.cost_isUnsigned htakes.node
    have hs'_small : s'.IsSmall := by rwa [Search.IsSmall, ← hnodes']
    have hexact := hs'.units_cost hwhole hs'_small htakes.node
    have hlt := hs'.units_cost_lt hs'_small htakes.node
    have hbelow := hs.cost_lt_of_mem_expanded hwhole hkeys hs_small hpos hn hrun
      (hexact ▸ hlt.le)
    rwa [← hexact, hunsigned.codeOfRatio_units] at hbelow

/-- **The estimate never costs work.** Let all costs be whole numbers, and let all costs, estimates
and totals that A* search and Dijkstra's search write down, both without a limit, be below 2 ^ 53.
Then A* search expands no residual goal twice, and none that Dijkstra's search does not expand. So
it makes no more expansions, and answers within every limit within which Dijkstra's search
answers. -/
theorem aStar_effort_le (hwhole : ∀ a ∈ p.actions, a.cost.IsWhole)
    (hkeys : p.keys.card ≤ 2 ^ 53) (hsmall : ((aStar none).search p).final.IsSmall)
    (hsmall' : ((dijkstra none).search p).final.IsSmall) :
    let astar := ((aStar none).search p).final.expanded.toList.map Node.residual
    let dijkstra := ((dijkstra none).search p).final.expanded.toList.map Node.residual
    astar.Nodup ∧ astar ⊆ dijkstra ∧ astar.length ≤ dijkstra.length ∧
      ∀ limit, ((Strategy.dijkstra (some limit)).search p).Answers →
        ((Strategy.aStar (some limit)).search p).Answers := by
  intro astar dijkstra
  have hnodup : astar.Nodup := by
    obtain ⟨s, -, -, hinorder, hexpanded⟩ := exists_inOrder hwhole hkeys hsmall
    change (((aStar none).search p).final.expanded.toList.map Node.residual).Nodup
    rw [hexpanded]
    exact hinorder.nodup
  have hsubset : astar ⊆ dijkstra := by
    rcases p.unmetUnits_eq_zero_or_pos with hzero | hpos
    · have hsame := congrArg Array.toList (expanded_dijkstra_eq hkeys hzero)
      rw [Array.toList_map, Array.toList_map] at hsame
      exact (show dijkstra = astar from hsame) ▸ List.Subset.refl _
    · intro residual hmem
      obtain ⟨n, hn, rfl⟩ := List.mem_map.1 hmem
      obtain ⟨m, hm, hresidual⟩ := exists_expanded_dijkstra hwhole hkeys hsmall hsmall' hpos
        (Array.mem_toList_iff.1 hn)
      exact List.mem_map.2 ⟨m, Array.mem_toList_iff.2 hm, hresidual⟩
  have hlength : astar.length ≤ dijkstra.length := (hnodup.subperm hsubset).length_le
  have hanswers (strategy : Strategy) (hlimit : strategy.limit = none) :
      (strategy.search p).Answers := by
    obtain ⟨-, -, -, hending⟩ := exists_stopsAt_of_unlimited strategy hlimit p
    exact Report.answers_iff.2 hending
  refine ⟨hnodup, hsubset, hlength, fun limit h => ?_⟩
  -- A search answers within a limit if the limit allows for all its expansions.
  have hsize : ((Strategy.dijkstra none).search p).final.expanded.size ≤ limit :=
    (Report.answers_iff_size_le (hanswers (Strategy.dijkstra none) rfl) limit).1 h
  refine (Report.answers_iff_size_le (hanswers (Strategy.aStar none) rfl) limit).2 ?_
  rw [List.length_map, List.length_map, Array.length_toList, Array.length_toList] at hlength
  exact hlength.trans hsize

end Strategy

/-! A flight home is as cheap as the bus, but it takes five things that cost at least one each.
Dijkstra's search looks into it, A* search does not. -/

namespace WaysHome

/-- Flies home. -/
def fly : Action :=
  { ride with
    name := "fly"
    preconditions := ["passport", "seat", "ticket", "visa"].foldl
      (fun things name => things.insert name (.bool true)) (place "bag") }

/-- The problem of getting home where there is a flight too. -/
def problemWithFlight : Problem := { problem with actions := fly :: problem.actions }

/-- All costs are whole. -/
theorem isWhole_cost_withFlight : ∀ a ∈ problemWithFlight.actions, a.cost.IsWhole :=
  List.forall_mem_cons.2 ⟨Binary64.isWhole_ofNat (by norm_num), isWhole_cost⟩

/-- The search that follows the estimate is small. -/
theorem isSmall_aStar : ((Strategy.aStar none).search problemWithFlight).final.IsSmall := by
  unfold Search.IsSmall
  decide +kernel

/-- The search that follows the cost alone is small. -/
theorem isSmall_dijkstra : ((Strategy.dijkstra none).search problemWithFlight).final.IsSmall := by
  unfold Search.IsSmall
  decide +kernel

/-- The estimate saves an expansion, and a limit that is enough without it is enough with it. -/
theorem effort_withFlight :
    let astar :=
      ((Strategy.aStar none).search problemWithFlight).final.expanded.toList.map Node.residual
    let dijkstra :=
      ((Strategy.dijkstra none).search problemWithFlight).final.expanded.toList.map Node.residual
    (astar.Nodup ∧ astar ⊆ dijkstra ∧ astar.length = 3 ∧ dijkstra.length = 4) ∧
      ∀ limit, ((Strategy.dijkstra (some limit)).search problemWithFlight).Answers →
        ((Strategy.aStar (some limit)).search problemWithFlight).Answers := by
  intro astar dijkstra
  obtain ⟨hnodup, hsubset, -, hanswers⟩ := Strategy.aStar_effort_le isWhole_cost_withFlight
    (by decide +kernel) isSmall_aStar isSmall_dijkstra
  have hlength : astar.length = 3 ∧ dijkstra.length = 4 := by decide +kernel
  exact ⟨⟨hnodup, hsubset, hlength⟩, hanswers⟩

end WaysHome

end GoalPlanning
