import GoalPlanning.Proofs.Search.Budgets
import GoalPlanning.Proofs.Search.Exploration
import GoalPlanning.Proofs.Search.Renumbering
import GoalPlanning.Proofs.Search.Termination
import GoalPlanning.Proofs.UnmetConditions

/-!
# Actions that an earlier one makes superfluous

Of two actions with the same preconditions and the same effects the later one is never used if it
is no cheaper: wherever it leads, the earlier one has led at no higher cost by the time of its turn.
It can be taken out of the problem. The other actions get other numbers then, and the bounds that
estimates use stay the same, except that a least cost of zero may get another sign. A sum does not
show the sign of a zero, so the search goes the same way.
-/

namespace GoalPlanning

/-- An action does what another one does, and costs no more. -/
structure Action.Dominates (a b : Action) : Prop where
  /-- Both can be performed in the same states. -/
  preconditions_eq : b.preconditions = a.preconditions
  /-- Both make the same facts hold. -/
  effects_eq : b.effects = a.effects
  /-- As numbers the costs may be equal. -/
  cost_le : a.cost.numericLe b.cost = true

/-- The action with this number is superfluous: an earlier one dominates it. -/
def Problem.Superfluous (p : Problem) (j : ℕ) : Prop :=
  ∃ i a b, i < j ∧ p.actions[i]? = some a ∧ p.actions[j]? = some b ∧ a.Dominates b

/-- A problem without the action with this number. -/
def Problem.withoutAction (p : Problem) (j : ℕ) : Problem :=
  { p with actions := p.actions.eraseIdx j }

/-- What the number of another action becomes when the action with the number `j` is taken out. -/
def numberWithout (j k : ℕ) : ℕ := if k < j then k else k - 1

namespace Action.Dominates

variable {a b : Action}

/-- An action that is dominated regresses goals to the same conditions. -/
theorem regress?_eq (h : a.Dominates b) (residual : State) :
    b.regress? residual = a.regress? residual := by
  rw [regress?, regress?, isRelevantTo, isRelevantTo, h.preconditions_eq, h.effects_eq]

/-- An action that is dominated costs no less. -/
theorem magnitude_cost_le (h : a.Dominates b) : a.cost.magnitude ≤ b.cost.magnitude :=
  (a.cost_isNonneg.numericLe_iff b.cost_isNonneg).1 h.cost_le

end Action.Dominates

/-! ## Turns that change nothing -/

namespace Search

variable {p : Problem} {estimate : State → Binary64} {s rest : Search} {number j : ℕ} {n : Node}

/-- After the turn of an action the turns of all actions that it dominates change nothing. -/
theorem reachThrough_of_dominates (hledger : s.Ledger) (harena : Arena p estimate s.nodes)
    (hn : s.nodes[number]? = some n) {earlier : List (Action × ℕ)}
    (hearlier : ∀ a ∈ earlier, p.actions[a.2]? = some a.1) {a : Action × ℕ} (ha : a ∈ earlier)
    {b : Action} (h : a.1.Dominates b) (j : ℕ) :
    (earlier.foldl (fun s a => s.reachThrough estimate number n a.1 a.2) s).reachThrough estimate
      number n b j = earlier.foldl (fun s a => s.reachThrough estimate number n a.1 a.2) s := by
  have hgrows : Grows p estimate number n s _ := Grows.refl.foldl hearlier
  obtain ⟨harena', hn'⟩ := hgrows.arena harena hn
  have hunsigned := (hgrows.ledger hledger harena hn).unsigned harena'
  unfold reachThrough
  cases hregress : b.regress? n.residual with
  | none => rfl
  | some before =>
    rw [h.regress?_eq] at hregress
    obtain ⟨g, hg, hle⟩ := exists_best_foldl_le hledger harena hn hearlier ha hregress
    have hcost := harena'.cost_isUnsigned hn'
    have hcost_le := hcost.magnitude_add_mono_right a.1.cost_isNonneg b.cost_isNonneg
      h.magnitude_cost_le
    have hknown := isKnown_eq_true_iff.2 ⟨g, hg, ((hunsigned.2 before g hg).numericLe_iff
      (hcost.add b.cost_isNonneg)).2 (hle.trans hcost_le)⟩
    exact if_pos hknown

/-- An expansion can leave a superfluous action out. -/
theorem Reachable.expand_eq_foldl (hs : Reachable p estimate s)
    (hnext : s.next? = some ((number, n), rest)) (hj : p.Superfluous j) :
    rest.expand estimate p.actions number n = (p.actions.zipIdx.eraseIdx j).foldl
      (fun s a => s.reachThrough estimate number n a.1 a.2) (rest.close n) := by
  obtain ⟨i, a, b, hij, ha, hb, hdominates⟩ := hj
  obtain ⟨e, rfl, htakes⟩ := takes_of_next? hnext
  have hnumbered (k : ℕ) {c : Action} (hc : p.actions[k]? = some c) :
      p.actions.zipIdx[k]? = some (c, k) := by
    rw [List.getElem?_zipIdx, hc, Option.map_some, Nat.zero_add]
  obtain ⟨hlt, hturn⟩ := List.getElem?_eq_some_iff.1 (hnumbered j hb)
  have hearlier : (a, i) ∈ p.actions.zipIdx.take j := by
    apply List.mem_of_getElem?
    rw [List.getElem?_take_of_lt hij, hnumbered i ha]
  have hnothing := reachThrough_of_dominates (hs.ledger.close htakes)
    (htakes.arena_close hs.arena) htakes.node_close
    (fun c hc => List.mem_zipIdx_iff_getElem?.1 (List.mem_of_mem_take hc)) hearlier hdominates j
  have hsplit : p.actions.zipIdx =
      p.actions.zipIdx.take j ++ (b, j) :: p.actions.zipIdx.drop (j + 1) := by
    rw [← hturn, ← List.drop_eq_getElem_cons hlt, List.take_append_drop]
  rw [Search.expand, List.eraseIdx_eq_take_drop_succ, List.foldl_append]
  conv_lhs => rw [hsplit, List.foldl_append, List.foldl_cons, hnothing]

/-- The turns of some actions only add nodes that come from them. -/
theorem origin_of_mem_nodes_foldl {numbered : List (Action × ℕ)} {m : Node}
    (hm : m ∈ (numbered.foldl (fun s a => s.reachThrough estimate number n a.1 a.2) s).nodes) :
    m ∈ s.nodes ∨ ∃ a ∈ numbered, m.origin = some ⟨number, a.2⟩ := by
  induction numbered generalizing s with
  | nil => exact Or.inl hm
  | cons a numbered ih =>
    rw [List.foldl_cons] at hm
    rcases ih hm with hfirst | ⟨c, hc, horigin⟩
    · unfold reachThrough at hfirst
      split at hfirst
      · exact Or.inl hfirst
      · rw [reach] at hfirst
        split at hfirst
        · exact Or.inl hfirst
        · rcases Array.mem_push.1 hfirst with hold | rfl
          · exact Or.inl hold
          · exact Or.inr ⟨a, List.mem_cons_self, rfl⟩
    · exact Or.inr ⟨c, List.mem_cons_of_mem a hc, horigin⟩

/-- No node comes from a superfluous action. -/
theorem Reachable.action_ne (hs : Reachable p estimate s) (hj : p.Superfluous j) {m : Node}
    (hm : m ∈ s.nodes) {o : Origin} (horigin : m.origin = some o) : o.action ≠ j := by
  induction hs with
  | start =>
    rcases Array.mem_push.1 hm with hnone | rfl
    · simp at hnone
    · cases horigin
  | expand hs hnext hopen ih =>
    rw [hs.expand_eq_foldl hnext hj] at hm
    rcases origin_of_mem_nodes_foldl hm with hold | ⟨c, hc, horigin'⟩
    · obtain ⟨e, -, htakes⟩ := takes_of_next? hnext
      exact ih (htakes.nodes_close ▸ hold)
    · obtain rfl := Option.some.inj (horigin.symm.trans horigin')
      obtain ⟨k, hk, hc⟩ := List.mem_eraseIdx_iff_getElem?.1 hc
      rw [List.getElem?_zipIdx, Option.map_eq_some_iff] at hc
      obtain ⟨-, -, rfl⟩ := hc
      rwa [Nat.zero_add]

end Search

/-! ## Taking the action out -/

/-- Taking an action out gives the later actions other numbers. -/
theorem zipIdx_eraseIdx (actions : List Action) (j : ℕ) :
    (actions.eraseIdx j).zipIdx =
      (actions.zipIdx.eraseIdx j).map (Prod.map id (numberWithout j)) := by
  refine List.ext_getElem? fun k => ?_
  rw [List.getElem?_map, List.getElem?_zipIdx, List.getElem?_eraseIdx, List.getElem?_eraseIdx,
    Nat.zero_add]
  by_cases hk : k < j
  · have hsame : numberWithout j k = k := if_pos hk
    rw [if_pos hk, if_pos hk, List.getElem?_zipIdx, Option.map_map]
    simp [Function.comp_def, hsame]
  · have hprevious : numberWithout j (k + 1) = k := by
      rw [numberWithout, if_neg (by omega), Nat.add_sub_cancel]
    rw [if_neg hk, if_neg hk, List.getElem?_zipIdx, Option.map_map]
    simp [Function.comp_def, hprevious]

/-- Under their new numbers the other actions are the same. -/
theorem getElem?_eraseIdx_numberWithout (actions : List Action) {j k : ℕ} (hk : k ≠ j) :
    (actions.eraseIdx j)[numberWithout j k]? = actions[k]? := by
  rw [List.getElem?_eraseIdx, numberWithout]
  by_cases hlt : k < j
  · rw [if_pos hlt, if_pos hlt]
  · rw [if_neg hlt, if_neg (by omega), show k - 1 + 1 = k by omega]

variable {p : Problem} {j : ℕ}

/-- Expansions without a superfluous action only differ in numbers. -/
theorem Search.Reachable.expand_withoutAction {estimate : State → Binary64} {s rest : Search}
    (hs : Reachable p estimate s) {number : ℕ} {n : Node}
    (hnext : s.next? = some ((number, n), rest)) (hj : p.Superfluous j) :
    (rest.renumber (numberWithout j)).expand estimate (p.withoutAction j).actions number
        (n.renumber (numberWithout j)) =
      (rest.expand estimate p.actions number n).renumber (numberWithout j) := by
  rw [hs.expand_eq_foldl hnext hj, renumber_foldl, renumber_close, ← zipIdx_eraseIdx]
  rfl

namespace Problem.Superfluous

/-- For every action there is one among the others that has the same effects and costs no more. -/
theorem exists_mem_withoutAction (hj : p.Superfluous j) {c : Action} (hc : c ∈ p.actions) :
    ∃ a ∈ (p.withoutAction j).actions, a.effects = c.effects ∧
      a.cost.magnitude ≤ c.cost.magnitude := by
  have hother {k : ℕ} {c : Action} (hne : k ≠ j) (hk : p.actions[k]? = some c) :
      c ∈ (p.withoutAction j).actions :=
    List.mem_eraseIdx_iff_getElem?.2 ⟨k, hne, hk⟩
  obtain ⟨k, hk⟩ := List.getElem?_of_mem hc
  by_cases hkj : k = j
  · obtain ⟨i, a, b, hij, ha, hb, hdominates⟩ := hj
    obtain rfl : b = c := Option.some.inj (hb.symm.trans (hkj ▸ hk))
    exact ⟨a, hother hij.ne ha, hdominates.effects_eq.symm, hdominates.magnitude_cost_le⟩
  · exact ⟨c, hother hkj hk, rfl, le_rfl⟩

/-- Without a superfluous action the largest number of effects stays the same. -/
theorem maxEffects_withoutAction (hj : p.Superfluous j) :
    (Bounds.ofActions (p.withoutAction j).actions).maxEffects =
      (Bounds.ofActions p.actions).maxEffects := by
  refine le_antisymm (Bounds.maxEffects_le_iff.2 fun a ha => ?_)
    (Bounds.maxEffects_le_iff.2 fun c hc => ?_)
  · exact Bounds.size_effects_le (List.mem_of_mem_eraseIdx ha)
  · obtain ⟨a, ha, heffects, -⟩ := hj.exists_mem_withoutAction hc
    exact heffects ▸ Bounds.size_effects_le ha

/-- The least cost stays the same, up to the sign of a zero. -/
theorem magnitude_minCost_withoutAction (hj : p.Superfluous j) :
    (Bounds.ofActions (p.withoutAction j).actions).minCost.magnitude =
      (Bounds.ofActions p.actions).minCost.magnitude := by
  obtain ⟨i, a, -, -, ha, -⟩ := id hj
  have hp : p.actions ≠ [] := List.ne_nil_of_mem (List.mem_of_getElem? ha)
  obtain ⟨⟨c, hc, hleast⟩, -⟩ := Bounds.minCost_spec hp
  obtain ⟨a, ha, -, hle⟩ := hj.exists_mem_withoutAction hc
  obtain ⟨⟨c', hc', hleast'⟩, -⟩ := Bounds.minCost_spec (List.ne_nil_of_mem ha)
  apply le_antisymm
  · rw [← hleast]
    exact (Bounds.magnitude_minCost_le ha).trans hle
  · rw [← hleast']
    exact Bounds.magnitude_minCost_le (List.mem_of_mem_eraseIdx hc')

/-- The estimates add up to the same totals. -/
theorem sameTotals (hj : p.Superfluous j) {strategy : Strategy}
    (hheuristic : strategy.heuristic = Heuristic.unmet ∨ strategy.heuristic = Heuristic.zero) :
    p.SameTotals (strategy.estimate p) (strategy.estimate (p.withoutAction j)) := by
  intro residual _ g hg
  have hleast := hj.magnitude_minCost_withoutAction
  unfold Strategy.estimate
  rcases hheuristic with hunmet | hzero
  · simp only [hunmet, Heuristic.unmet, hj.maxEffects_withoutAction]
    rw [show (p.withoutAction j).current = p.current from rfl]
    split
    · rfl
    · rcases (Bounds.minCost_isNonneg _).1.eq_or_magnitude_eq_zero
        (Bounds.minCost_isNonneg _).1 hleast.symm with heq | hnothing
      · rw [heq]
      · exact hg.add_mul_zero _ (hleast.symm.trans hnothing) hnothing
  · rw [hzero]
    rfl

end Problem.Superfluous

/-! ## Whole searches -/

/-- Within one budget, a search without a superfluous action goes the same way. -/
theorem Report.sameWay_withoutAction (hj : p.Superfluous j)
    {estimate estimate' : State → Binary64} (hsame : p.SameTotals estimate estimate')
    (budget : ℕ) :
    SameWay (numberWithout j) (ofSearch p estimate budget)
      (ofSearch (p.withoutAction j) estimate' budget) := by
  -- First the estimates change while the actions stay, then the other way round.
  let T := Translation.ofCurrent p p.current fun _ _ => rfl
  obtain ⟨hending, hfinal⟩ := T.mirrors_ofSearch estimate' hsame budget
  have hstart : Search.Reachable p estimate' _ := .start
  have hrun := Search.run_renumber (p := p) (q := p.withoutAction j) rfl
    (fun _ _ _ _ hs hnext => hs.expand_withoutAction hnext hj) hstart budget
  rw [Search.renumber_start] at hrun
  have hreport : ofSearch (p.withoutAction j) estimate' budget =
      ⟨p.withoutAction j, budget, (ofSearch p estimate' budget).ending,
        (ofSearch p estimate' budget).final.renumber (numberWithout j)⟩ := by
    unfold ofSearch
    rw [show (p.withoutAction j).goal = p.goal from rfl, hrun]
  rw [hreport]
  refine ⟨hending, fun _ => rfl, fun number => ?_, ?_, ?_⟩
  · exact (Node.path_map (fun _ => rfl) _ number).trans
      (congrArg (List.map _) (hfinal.nodes_eq ▸ T.path_map_node _ number))
  · exact (Node.map_residual_renumber _ _).trans
      (hfinal.map_residual_expanded.trans (Array.map_id _))
  · exact Array.size_map.trans hfinal.size_nodes

/-- Without a limit the budget depends on the problem, but it is never used up. -/
theorem Strategy.sameWay_withoutAction {strategy : Strategy}
    (hheuristic : strategy.heuristic = Heuristic.unmet ∨ strategy.heuristic = Heuristic.zero)
    (hj : p.Superfluous j) :
    Report.SameWay (numberWithout j) (strategy.search p)
      (strategy.search (p.withoutAction j)) := by
  have hway (budget : ℕ) := Report.sameWay_withoutAction hj (hj.sameTotals hheuristic) budget
  cases hlimit : strategy.limit with
  | some limit =>
    have hbudget (p : Problem) : strategy.budget p = limit := by
      rw [budget, hlimit, Option.getD_some]
    rw [search_eq, search_eq, hbudget, hbudget]
    exact hway limit
  | none =>
    obtain ⟨-, -, -, hover⟩ := exists_stopsAt_of_unlimited strategy hlimit p
    obtain ⟨-, -, -, hover'⟩ := exists_stopsAt_of_unlimited strategy hlimit (p.withoutAction j)
    have h := hway (strategy.budget p)
    have hanswers := Report.answers_iff.2 (h.ending_eq ▸ hover)
    have hle := (Report.answers_iff_size_le hanswers _).1 (Report.answers_iff.2 hover')
    obtain ⟨hending, hfinal⟩ := Report.ofSearch_eq_of_size_le hanswers hle
    refine ⟨hending.trans h.ending_eq, fun hend => absurd hend hover, ?_, ?_, ?_⟩
    · exact hfinal ▸ h.path_eq
    · exact hfinal ▸ h.expanded_eq
    · exact hfinal ▸ h.size_nodes

/-- **A superfluous action is inert.** Let an action have the same preconditions and effects as an
earlier one that is no more expensive. Then the search that follows the usual estimate, or none,
within a limit or without one, comes to no node through it. If the action is taken out, then the
search makes the same plan or fails in the same way. It expands the same residual goals in the same
order and makes the same number of nodes. -/
theorem Strategy.search_withoutAction {heuristic : Heuristic}
    (hheuristic : heuristic = Heuristic.unmet ∨ heuristic = Heuristic.zero) (limit : Option ℕ)
    {p : Problem} {j : ℕ} (hj : p.Superfluous j) :
    let report := Strategy.search ⟨heuristic, limit⟩ p
    let report' := Strategy.search ⟨heuristic, limit⟩ (p.withoutAction j)
    (∀ n ∈ report.final.nodes, ∀ o, n.origin = some o → o.action ≠ j) ∧
      report'.plan = report.plan ∧
      report'.final.expanded.map Node.residual = report.final.expanded.map Node.residual ∧
      report'.final.nodes.size = report.final.nodes.size := by
  intro report report'
  have hinert : ∀ n ∈ report.final.nodes, ∀ o, n.origin = some o → o.action ≠ j := by
    intro n hn o horigin
    obtain ⟨s, hs, hstops, -⟩ := Report.exists_stopsAt p (estimate ⟨heuristic, limit⟩ p)
      (budget ⟨heuristic, limit⟩ p)
    exact hs.action_ne hj (hstops.eq.1 ▸ hn) horigin
  have hway : Report.SameWay (numberWithout j) report report' :=
    sameWay_withoutAction hheuristic hj
  have hplan : report'.plan = report.plan := by
    refine hway.plan_eq fun number k hk => ?_
    obtain ⟨n, hn, o, horigin, rfl⟩ := Node.exists_of_mem_path hk
    exact getElem?_eraseIdx_numberWithout p.actions (hinert n hn o horigin)
  exact ⟨hinert, hplan, hway.expanded_eq, hway.size_nodes⟩

/-! A latch that costs nothing to lift. Another action does the same for a cost of negative zero,
and its number comes before that of the action which opens the door. -/

namespace Latch

/-- The latch is up. -/
def up : State := State.empty.insert "latch" (.string "up")

/-- The door is open. -/
def goal : State := State.empty.insert "doorOpen" (.bool true)

/-- Lifts the latch. -/
def lift : Action := ⟨"lift", Binary64.zero, State.empty, up, by decide, by decide⟩

/-- Lifts the latch, too. -/
def flick : Action := ⟨"flick", Binary64.signedZero true, State.empty, up, by decide, by decide⟩

/-- Opens the door. -/
def pull : Action := ⟨"pull", Binary64.ofNat 2, up, goal, by decide +kernel, by decide⟩

/-- The problem of opening the door. -/
def problem : Problem := ⟨[lift, flick, pull], State.empty, goal⟩

/-- The second action does what the first one does, at a cost that is no lower. -/
theorem superfluous_flick : problem.Superfluous 1 :=
  ⟨0, lift, flick, Nat.one_pos, rfl, rfl, rfl, rfl, by decide⟩

/-- Without the second action the plan is the same, although the least cost has another sign. -/
theorem plan_withoutFlick :
    problem.Superfluous 1 ∧
      (Bounds.ofActions (problem.withoutAction 1).actions).minCost ≠
        (Bounds.ofActions problem.actions).minCost ∧
      ((Strategy.aStar none).search (problem.withoutAction 1)).plan = .ok [lift, pull] := by
  obtain ⟨-, hplan, -⟩ := Strategy.search_withoutAction (.inl rfl) none superfluous_flick
  have hboth : ((Strategy.aStar none).search problem).plan = .ok [lift, pull] := by
    decide +kernel
  exact ⟨superfluous_flick, by decide +kernel, hplan.trans hboth⟩

end Latch

end GoalPlanning
