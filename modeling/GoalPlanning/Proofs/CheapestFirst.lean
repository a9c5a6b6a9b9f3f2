import GoalPlanning.Proofs.Completeness

/-!
# Following the cost alone

A search takes a node whose total is at most what remains of any solution costs, with an estimate
of what comes before it. If all estimates are zero, then this bounds the cost of the node by the
cost of every solution. It also means that the residual goals that can be reached at lower costs
are all closed. Nothing is assumed of the costs. Their sums may be rounded, may absorb small costs
and may overflow. The bounds rest on three facts about addition of unsigned numbers: it is monotone,
it is never below its operands, and adding zero leaves a cost as it is.
-/

namespace GoalPlanning

namespace Search

variable {p : Problem} {estimate estimate' : State → Binary64} {s rest : Search} {e : Entry}
  {n m : Node} {nodes : Array Node} {i bound : ℕ}

/-- With estimates that are at least zero, all totals are unsigned. -/
theorem Reachable.total_isUnsigned (hs : Reachable p estimate s)
    (hnonneg : ∀ residual, p.Mentions residual → (estimate residual).IsNonneg)
    (hn : s.nodes[i]? = some n) : n.total.IsUnsigned :=
  hs.arena.total_isUnsigned hnonneg hn

/-- With estimates that are at least zero, no total is below the cost of its node. -/
theorem Reachable.cost_le_total (hs : Reachable p estimate s)
    (hnonneg : ∀ residual, p.Mentions residual → (estimate residual).IsNonneg)
    (hn : s.nodes[i]? = some n) : n.cost.magnitude ≤ n.total.magnitude := by
  rw [Node.total, hs.arena.estimate_eq i n hn]
  exact (hs.arena.cost_isUnsigned hn).magnitude_le_add (hnonneg _ (hs.arena.mentions hn))

/-- The total of the node that is taken is at most that of every open node that waits. -/
theorem Reachable.total_le_of_waits (hs : Reachable p estimate s)
    (hnonneg : ∀ residual, p.Mentions residual → (estimate residual).IsNonneg)
    (htakes : s.Takes e n rest) {residual : State} {cost : Binary64} (hopen : residual ∉ s.closed)
    (hwaits : s.Waits residual cost) :
    n.total.magnitude ≤ (cost + estimate residual).magnitude := by
  obtain ⟨i, m, hm, rfl, rfl, hentry⟩ := hwaits
  have hfirst : n.total.rank ≤ m.total.rank := by
    have hrank := htakes.rank_le hs.ledger hm hentry hopen
    omega
  rw [(hs.total_isUnsigned hnonneg htakes.node).rank_eq,
    (hs.total_isUnsigned hnonneg hm).rank_eq, Node.total, Node.total,
    hs.arena.estimate_eq i m hm] at hfirst
  exact_mod_cast hfirst

/-- Every solution passes a residual goal by which it bounds the total of the node that is taken:
what the rest of the solution costs, and the estimate for the beginning of it. -/
theorem Reachable.exists_total_le (hs : Reachable p estimate s)
    (hnonneg : ∀ residual, p.Mentions residual → (estimate residual).IsNonneg)
    (htakes : s.Takes e n rest) {run : List Action} (hrun : p.IsSolution run) :
    ∃ earlier later residual, run = earlier ++ later ∧ p.Mentions residual ∧
      (p.withGoal residual).IsSolution earlier ∧
      n.total.magnitude ≤ (summedCost later + estimate residual).magnitude := by
  obtain ⟨earlier, later, residual, cost, rfl, hearlier, hopen, hwaits, hcost⟩ :=
    hs.exists_waits hrun
  have htotal := hs.total_le_of_waits hnonneg htakes hopen hwaits
  obtain ⟨i, m, hm, rfl, rfl, -⟩ := hwaits
  have hmentions := hs.arena.mentions hm
  refine ⟨earlier, later, m.residual, rfl, hmentions, hearlier, htotal.trans ?_⟩
  exact (hs.arena.cost_isUnsigned hm).magnitude_add_mono (summedCost_isUnsigned later)
    (hnonneg _ hmentions) (hcost (Problem.steady_of_isNonneg hnonneg))

/-- If all estimates are zero, of either sign, then the node that is taken costs no more than any
solution. -/
theorem Reachable.cost_le (hs : Reachable p estimate s)
    (hnonneg : ∀ residual, p.Mentions residual → (estimate residual).IsNonneg)
    (hzero : ∀ residual, p.Mentions residual → (estimate residual).magnitude = 0)
    (htakes : s.Takes e n rest) {run : List Action} (hrun : p.IsSolution run) :
    n.cost.magnitude ≤ (summedCost run).magnitude := by
  obtain ⟨earlier, later, residual, rfl, hmentions, -, hle⟩ :=
    hs.exists_total_le hnonneg htakes hrun
  rw [(summedCost_isUnsigned later).add_eq_left (hnonneg _ hmentions) (hzero _ hmentions)] at hle
  calc n.cost.magnitude ≤ n.total.magnitude := hs.cost_le_total hnonneg htakes.node
    _ ≤ (summedCost later).magnitude := hle
    _ ≤ (summedCost (earlier ++ later)).magnitude := summedCost_le_append earlier later

/-! ## What has been closed -/

/-- Every open node that waits costs at least a bound. -/
def OpenFrom (s : Search) (bound : ℕ) : Prop :=
  ∀ residual cost, residual ∉ s.closed → s.Waits residual cost → bound ≤ cost.magnitude

/-- Residual goals that are reached below the bound of what is open are closed. -/
theorem Reachable.mem_closed_of_reachedBy (hs : Reachable p estimate s)
    (hsteady : p.Steady estimate) (hbound : s.OpenFrom bound) {residual : State}
    {later : List Action} (hreached : ReachedBy p estimate s residual later)
    (hlt : (summedCost later).magnitude < bound) : residual ∈ s.closed := by
  obtain ⟨g, hg, hle⟩ := hreached
  obtain ⟨cost, hcost, haccounted⟩ := hs.explored residual g hg
  cases haccounted with
  | settled hclosed => exact hclosed
  | waiting hopen hwaits =>
    have hwaits_le := hbound residual cost hopen hwaits
    have hreached_le := hle hsteady
    rw [hcost hsteady] at hwaits_le
    omega

/-- A search has closed the residual goals of all nodes that any search of the problem, with
whatever estimate, makes below the bound of what is open. -/
theorem Reachable.mem_closed_of_arena (hs : Reachable p estimate s) (hsteady : p.Steady estimate)
    (hbound : s.OpenFrom bound) (harena : Arena p estimate' nodes) (hn : nodes[i]? = some n)
    (hlt : n.cost.magnitude < bound) : n.residual ∈ s.closed := by
  have hreached : (summedCost (actionsFrom p nodes i)).magnitude < bound →
      ReachedBy p estimate s n.residual (actionsFrom p nodes i) := by
    refine harena.induction (P := fun residual _ run => (summedCost run).magnitude < bound →
      ReachedBy p estimate s residual run) ?_ ?_ hn
    · intro _
      obtain ⟨g, hg, hzero⟩ := hs.exists_best_goal
      exact ⟨g, hg, fun _ => hzero ▸ Nat.zero_le _⟩
    · intro residual before cost run a ih ha hregress hrun_lt
      have hlt := (summedCost_le_cons a run).trans_lt hrun_lt
      have hreached := ih hlt
      have hclosed := hs.mem_closed_of_reachedBy hsteady hbound hreached hlt
      exact hs.reachedBy_cons hreached hclosed ha hregress
  rw [harena.cost_eq hn] at hlt
  exact hs.mem_closed_of_reachedBy hsteady hbound (hreached hlt) hlt

/-- A search that runs out of nodes has closed the residual goals of all nodes that any search of
the problem makes. -/
theorem Reachable.mem_closed_of_next?_eq_none (hs : Reachable p estimate s)
    (hnonneg : ∀ residual, p.Mentions residual → (estimate residual).IsNonneg)
    (hnone : s.next? = none) (harena : Arena p estimate' nodes) (hn : nodes[i]? = some n) :
    n.residual ∈ s.closed := by
  have hopen : s.OpenFrom (Binary64.infinityCode + 1) := by
    rintro residual cost hopen ⟨j, m, hm, rfl, rfl, hentry⟩
    exact absurd (Search.mem_closed_of_next?_eq_none hnone hentry hm) hopen
  exact hs.mem_closed_of_arena (Problem.steady_of_isNonneg hnonneg) hopen harena hn
    (Nat.lt_succ_of_le (harena.cost_isUnsigned hn).le_infinity)

/-- A search that follows the cost alone has closed the residual goals of all nodes that any search
of the problem makes at a lower cost than that of the node that is taken. -/
theorem Reachable.mem_closed_of_cost_lt (hs : Reachable p estimate s)
    (hnonneg : ∀ residual, p.Mentions residual → (estimate residual).IsNonneg)
    (hzero : ∀ residual, p.Mentions residual → (estimate residual).magnitude = 0)
    (htakes : s.Takes e m rest) (harena : Arena p estimate' nodes) (hn : nodes[i]? = some n)
    (hlt : n.cost.magnitude < m.cost.magnitude) : n.residual ∈ s.closed := by
  have hopen : s.OpenFrom m.cost.magnitude := by
    intro residual cost hopen hwaits
    have htotal := hs.total_le_of_waits hnonneg htakes hopen hwaits
    obtain ⟨j, k, hk, rfl, rfl, -⟩ := hwaits
    have hmentions := hs.arena.mentions hk
    rw [(hs.arena.cost_isUnsigned hk).add_eq_left (hnonneg _ hmentions)
      (hzero _ hmentions)] at htotal
    exact (hs.cost_le_total hnonneg htakes.node).trans htotal
  exact hs.mem_closed_of_arena (Problem.steady_of_isNonneg hnonneg) hopen harena hn hlt

end Search

/-! ## Plans -/

/-- A plan that Dijkstra's search finds costs at most as much as every solution. -/
theorem Strategy.magnitude_dijkstra_le {limit : Option ℕ} {p : Problem} {steps run : List Action}
    (hplan : ((Strategy.dijkstra limit).search p).plan = .ok steps) (hrun : p.IsSolution run) :
    (summedCost steps).magnitude ≤ (summedCost run).magnitude := by
  obtain ⟨s, hs, houtcome⟩ := (Strategy.dijkstra limit).exists_outcome p
  rw [hplan] at houtcome
  cases houtcome with
  | found hnext hcovered =>
    obtain ⟨e, rfl, htakes⟩ := Search.takes_of_next? hnext
    have hle := hs.cost_le (fun _ _ => Binary64.zero_isUnsigned.isNonneg) (fun _ _ => rfl)
      htakes hrun
    rwa [hs.arena.cost_eq htakes.node] at hle

/-- **Optimality of Dijkstra's search for all costs.** A plan that Dijkstra's search finds costs at
most as much as every solution, where costs are summed from the last action to the first and every
sum is rounded. -/
theorem Strategy.summedCost_dijkstra_le {limit : Option ℕ} {p : Problem} {steps run : List Action}
    (hplan : ((Strategy.dijkstra limit).search p).plan = .ok steps) (hrun : p.IsSolution run) :
    (summedCost steps).numericLe (summedCost run) = true :=
  ((summedCost_isUnsigned steps).numericLe_iff (summedCost_isUnsigned run)).2
    (Strategy.magnitude_dijkstra_le hplan hrun)

/-! A table can be bought for 1.8, or be made of three parts that are made one after another for
0.4 each and put together for 0.6. Made from the last step to the first, the sum is rounded to the
number below 1.8. -/

namespace Table

/-- The state that has the given parts. -/
def parts (names : List String) : State := State.ofList (names.map fun name => (name, .bool true))

/-- What a step of the work costs: two fifths. -/
def wage : Binary64 := Binary64.ofNat 2 / Binary64.ofNat 5

/-- Makes the frame. -/
def makeFrame : Action :=
  ⟨"make the frame", wage, parts [], parts ["frame"], by decide +kernel, by decide⟩

/-- Makes legs that fit the frame. -/
def makeLegs : Action :=
  ⟨"make the legs", wage, parts ["frame"], parts ["legs"], by decide +kernel, by decide⟩

/-- Makes a top that fits the legs. -/
def makeTop : Action :=
  ⟨"make the top", wage, parts ["legs"], parts ["top"], by decide +kernel, by decide⟩

/-- Puts all parts together. -/
def assemble : Action :=
  ⟨"assemble", Binary64.ofNat 3 / Binary64.ofNat 5, parts ["frame", "legs", "top"],
    parts ["table"], by decide +kernel, by decide⟩

/-- Buys the whole table. -/
def buy : Action :=
  ⟨"buy", Binary64.ofNat 9 / Binary64.ofNat 5, parts [], parts ["table"], by decide +kernel,
    by decide⟩

/-- The problem of getting a table. -/
def problem : Problem :=
  ⟨[assemble, makeFrame, makeLegs, makeTop, buy], parts [], parts ["table"]⟩

/-- Making the table is cheaper than buying it. -/
theorem summedCost_make_le :
    ((Strategy.dijkstra none).search problem).plan =
        .ok [makeFrame, makeLegs, makeTop, assemble] ∧
      problem.IsSolution [buy] ∧
      (summedCost [makeFrame, makeLegs, makeTop, assemble]).numericLe (summedCost [buy]) =
        true := by
  have hplan : ((Strategy.dijkstra none).search problem).plan =
      .ok [makeFrame, makeLegs, makeTop, assemble] := by decide +kernel
  have hbuy : problem.IsSolution [buy] := ⟨by simp [problem], _, rfl⟩
  exact ⟨hplan, hbuy, Strategy.summedCost_dijkstra_le hplan hbuy⟩

end Table

end GoalPlanning
