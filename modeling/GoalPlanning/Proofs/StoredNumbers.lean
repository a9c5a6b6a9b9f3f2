import GoalPlanning.Proofs.ResidualGoals
import GoalPlanning.Proofs.UnmetEstimate

/-!
# The numbers that a search handles

A search compares numbers in two ways. Whether a residual goal is known at a cost is a numerical
comparison, and which entry of the frontier comes first is a matter of the total order. The two
disagree where zeros have different signs and where a number is NaN. Neither is far away: an action
may cost negative zero, so the estimate may be negative zero as well; costs may add up to infinity,
and infinity times zero is NaN. But costs are summed from positive zero on, and an estimate is a
finite number of actions at a finite cost each. So whatever is stored or compared has a clear sign
bit and is no NaN, and on such numbers both comparisons are the same.
-/

namespace GoalPlanning

/-! ## The estimates -/

/-- If a count is converted to a finite number, then so is every smaller one. -/
theorem Binary64.ofNat_lt_infinity {n m : ℕ} (hle : n ≤ m) (hm : (ofNat m).isFinite = true) :
    (ofNat n).magnitude < infinityCode := by
  have hmono : (ofNat n).magnitude ≤ (ofNat m).magnitude :=
    codeOfRatio_mono Nat.one_pos Nat.one_pos
      (Nat.mul_le_mul_right 1 (Nat.mul_le_mul_right unitsPerOne hle))
  exact hmono.trans_lt (of_decide_eq_true hm)

/-- The usual estimate is at least zero, for every count that is converted to a finite number. It
may be infinite, and it may be negative zero. -/
theorem Heuristic.unmet_isNonneg {residual current : State} {bounds : Bounds}
    (hcost : bounds.minCost.IsNonneg) (hfinite : bounds.minCost.magnitude < Binary64.infinityCode)
    (hcount : (Binary64.ofNat (residual.without current).size).magnitude < Binary64.infinityCode) :
    (unmet residual current bounds).IsNonneg := by
  unfold unmet
  dsimp only
  split
  case isTrue => exact Binary64.zero_isUnsigned.isNonneg
  case isFalse hne =>
    simp only [Bool.or_eq_true, decide_eq_true_eq, not_or] at hne
    -- The divisor is at least one, so the quotient is no larger than the count.
    have hone : Binary64.unitsPerOne ≤
        Binary64.unitsOfCode (Binary64.ofNat bounds.maxEffects).magnitude := by
      have hunits := Binary64.le_mul_unitsOfCode_ofNat (k := 1) (Nat.one_le_two_pow (n := 53))
        (Nat.mul_one bounds.maxEffects ▸ Nat.pos_of_ne_zero hne.2)
      rwa [Nat.one_mul, Nat.one_mul] at hunits
    obtain ⟨hquotient, hle⟩ := (Binary64.ofNat_isUnsigned _).div_le_left hcount
      (Binary64.ofNat_isUnsigned bounds.maxEffects) hone
    obtain ⟨hceil, hceil_finite⟩ := hquotient.ceil_lt_infinity (hle.trans_lt hcount)
    exact hceil.mul_isNonneg hceil_finite hcost hfinite

/-- The estimates of both strategies are at least zero. -/
theorem Strategy.estimate_isNonneg {strategy : Strategy} {p : Problem}
    (hheuristic : strategy.heuristic = Heuristic.zero ∨
      strategy.heuristic = Heuristic.unmet ∧ (Binary64.ofNat p.keys.card).isFinite = true)
    {residual : State} (hmentions : p.Mentions residual) :
    (strategy.estimate p residual).IsNonneg := by
  unfold Strategy.estimate
  rcases hheuristic with hzero | ⟨hunmet, hkeys⟩
  · rw [hzero]
    exact Binary64.zero_isUnsigned.isNonneg
  · rw [hunmet]
    obtain ⟨hcost, hfinite⟩ := Bounds.minCost_isNonneg p.actions
    exact Heuristic.unmet_isNonneg hcost hfinite
      (Binary64.ofNat_lt_infinity (hmentions.size_without_le p.current) hkeys)

/-! ## The books at every moment -/

namespace Search

variable {p : Problem} {estimate : State → Binary64} {s : Search} {n : Node} {x y : Binary64}

/-- Books that agree with the nodes when a node has been closed have done so before. -/
theorem Ledger.of_close (h : (s.close n).Ledger) : s.Ledger where
  entry := h.entry
  best_le := h.best_le
  reached := h.reached
  decreasing := h.decreasing
  size_le := by
    have hsize : s.expanded.size + 1 + s.frontier.size ≤ s.nodes.size := by
      rw [← Array.size_push n]
      exact h.size_le
    omega

/-- At every moment the books agree with the nodes. -/
theorem Moment.ledger (h : Moment p estimate s) : s.Ledger := by
  cases h with
  | before hs => exact hs.ledger
  | taken hs hnext =>
    obtain ⟨e, -, htakes⟩ := takes_of_next? hnext
    exact (hs.ledger.close htakes).of_close
  | expanding hs hnext _ hearlier =>
    obtain ⟨e, rfl, htakes⟩ := takes_of_next? hnext
    exact (grows_turns _ hearlier).ledger (hs.ledger.close htakes) (htakes.arena_close hs.arena)
      htakes.node_close

/-- A number that is stored or compared at some moment of a run. -/
inductive Handled (p : Problem) (estimate : State → Binary64) : Binary64 → Prop
  /-- What a node costs. -/
  | cost {s : Search} {i : ℕ} {n : Node} : Moment p estimate s → s.nodes[i]? = some n →
      Handled p estimate n.cost
  /-- Cost and estimate of a node together. -/
  | total {s : Search} {i : ℕ} {n : Node} : Moment p estimate s → s.nodes[i]? = some n →
      Handled p estimate n.total
  /-- The cost in an entry of the frontier. -/
  | entryCost {s : Search} {e : Entry} : Moment p estimate s → e ∈ s.frontier →
      Handled p estimate e.cost
  /-- The total in an entry of the frontier. -/
  | entryTotal {s : Search} {e : Entry} : Moment p estimate s → e ∈ s.frontier →
      Handled p estimate e.total
  /-- The least cost at which a residual goal has been reached. -/
  | best {s : Search} {residual : State} {g : Binary64} : Moment p estimate s →
      s.best[residual]? = some g → Handled p estimate g
  /-- What a way through a node and an action costs, whether it turns out to count or not. -/
  | offered {s : Search} {i : ℕ} {n : Node} {a : Action} : Moment p estimate s →
      s.nodes[i]? = some n → a ∈ p.actions → Handled p estimate (n.cost + a.cost)

/-- With estimates that are at least zero, all numbers that are handled are unsigned. -/
theorem Handled.isUnsigned (h : Handled p estimate x)
    (hnonneg : ∀ residual, p.Mentions residual → (estimate residual).IsNonneg) :
    x.IsUnsigned := by
  cases h with
  | cost hs hn => exact hs.arena.cost_isUnsigned hn
  | total hs hn => exact hs.arena.total_isUnsigned hnonneg hn
  | entryCost hs he =>
    obtain ⟨n, hn, hentry⟩ := hs.ledger.entry _ he
    rw [hentry]
    exact hs.arena.cost_isUnsigned hn
  | entryTotal hs he =>
    obtain ⟨n, hn, hentry⟩ := hs.ledger.entry _ he
    rw [hentry]
    exact hs.arena.total_isUnsigned hnonneg hn
  | best hs hg => exact (hs.ledger.unsigned hs.arena).2 _ _ hg
  | @offered s i n a hs hn ha => exact (hs.arena.cost_isUnsigned hn).add a.cost_isNonneg

/-- Whether a residual goal is known at a cost may be decided in the total order as well. -/
theorem Handled.isKnown_iff (h : Handled p estimate x)
    (hnonneg : ∀ residual, p.Mentions residual → (estimate residual).IsNonneg)
    (hs : Moment p estimate s) (residual : State) :
    s.isKnown residual x = true ↔
      ∃ g, s.best[residual]? = some g ∧ (compare g x).isLE = true := by
  rw [isKnown_eq_true_iff]
  refine exists_congr fun g => and_congr_right fun hg => ?_
  have hbest : Handled p estimate g := .best hs hg
  exact (hbest.isUnsigned hnonneg).numericLe_iff_isLE_compare (h.isUnsigned hnonneg)

/-- A node with an origin has a parent, and costs no less than its parent. -/
theorem Moment.exists_parent_le (hs : Moment p estimate s) {i : ℕ} {o : Origin}
    (hn : s.nodes[i]? = some n) (horigin : n.origin = some o) :
    ∃ parent, s.nodes[o.parent]? = some parent ∧ parent.cost.numericLe n.cost = true := by
  obtain ⟨parent, -, -, hparent, -⟩ := hs.arena.exists_parent hn horigin
  refine ⟨parent, hparent, ?_⟩
  rw [(hs.arena.cost_isUnsigned hparent).numericLe_iff (hs.arena.cost_isUnsigned hn)]
  exact hs.arena.magnitude_parent_le hn horigin hparent

end Search

/-- **The two comparisons of a search never disagree.** Let the estimates be zero, or count the
unmet conditions of at most so many keys as are converted to a finite number, which a count of 64
bits always is. Then at every moment of a run, whatever limit it has, all numbers that are stored
or compared have a clear sign bit, are not NaN and are at least zero, although some may be infinite.
On all of them the numerical comparison and the total order are the same, so whether a residual
goal is known at a cost may be decided in either; and no node costs less than its parent. -/
theorem Strategy.comparisons_agree {strategy : Strategy} {p : Problem}
    (hheuristic : strategy.heuristic = Heuristic.zero ∨
      strategy.heuristic = Heuristic.unmet ∧ (Binary64.ofNat p.keys.card).isFinite = true) :
    Search.Moment p (strategy.estimate p) (strategy.search p).final ∧
      (∀ x, Search.Handled p (strategy.estimate p) x →
        x.isNaN = false ∧ x.negative = false ∧ Binary64.zero.numericLe x = true) ∧
      (∀ x y, Search.Handled p (strategy.estimate p) x → Search.Handled p (strategy.estimate p) y →
        (x.numericLe y = true ↔ (compare x y).isLE = true)) ∧
      ∀ s, Search.Moment p (strategy.estimate p) s →
        (∀ residual x, Search.Handled p (strategy.estimate p) x →
          (s.isKnown residual x = true ↔
            ∃ g, s.best[residual]? = some g ∧ (compare g x).isLE = true)) ∧
        ∀ (i : ℕ) (n : Node) (o : Origin), s.nodes[i]? = some n → n.origin = some o →
          ∃ parent : Node, s.nodes[o.parent]? = some parent ∧
            parent.cost.numericLe n.cost = true := by
  have hnonneg : ∀ residual, p.Mentions residual → (strategy.estimate p residual).IsNonneg :=
    fun _ => Strategy.estimate_isNonneg hheuristic
  refine ⟨Report.moment_final p _ _, ?_, ?_, ?_⟩
  · intro x hx
    have hunsigned := hx.isUnsigned hnonneg
    exact ⟨Binary64.isNaN_eq_false hunsigned.le_infinity, hunsigned.sign,
      Binary64.isNonneg_iff.1 hunsigned.isNonneg⟩
  · intro x y hx hy
    exact (hx.isUnsigned hnonneg).numericLe_iff_isLE_compare (hy.isUnsigned hnonneg)
  · intro s hs
    exact ⟨fun residual x hx => hx.isKnown_iff hnonneg hs residual,
      fun i n o hn horigin => hs.exists_parent_le hn horigin⟩

/-- Counts of 64 bits are converted to finite numbers. -/
example : (Binary64.ofNat (2 ^ 64)).isFinite = true := by decide +kernel

/-- The two comparisons do disagree on the estimates, one of which may be negative zero. -/
example : Binary64.zero.numericLe (Binary64.signedZero true) = true ∧
    (compare Binary64.zero (Binary64.signedZero true)).isLE = false := by
  decide

/-! A voyage begins by casting off, which costs negative zero, so the usual estimate is negative
zero. Each of the two crossings after it costs as much as an action may, so that both together
cost infinitely much. -/

namespace Voyage

/-- The state of being at a place. -/
def place (name : String) : State := State.ofList [("place", .string name)]

/-- The largest finite number. -/
def largest : Binary64 := ⟨false, Binary64.infinityCode - 1, by decide⟩

/-- Negative zero is allowed as a cost. -/
theorem isCost_signedZero : (Binary64.signedZero true).isCost = true := by decide

/-- Leaves the harbour, at negative zero. -/
def castOff : Action :=
  ⟨"cast off", Binary64.signedZero true, place "harbour", place "sea", isCost_signedZero,
    by decide⟩

/-- Crosses the sea. -/
def crossSea : Action :=
  ⟨"cross the sea", largest, place "sea", place "shore", by decide, by decide⟩

/-- Crosses the desert. -/
def crossDesert : Action :=
  ⟨"cross the desert", largest, place "shore", place "oasis", by decide, by decide⟩

/-- The problem of getting from the harbour to the oasis. -/
def problem : Problem := ⟨[castOff, crossSea, crossDesert], place "harbour", place "oasis"⟩

/-- The node that is reached when both crossings remain. -/
def seaNode : Node :=
  ⟨place "sea", Binary64.infinity false, Binary64.signedZero true, some ⟨1, 1⟩⟩

/-- From the sea on the voyage costs infinitely much, and to get there is estimated at negative
zero. Both together come after zero in either comparison. -/
theorem seaNode_total :
    let final := ((Strategy.aStar none).search problem).final
    (Binary64.ofNat problem.keys.card).isFinite = true ∧ final.nodes[2]? = some seaNode ∧
      (seaNode.total.isNaN = false ∧ seaNode.total.negative = false ∧
        Binary64.zero.numericLe seaNode.total = true) ∧
      (Binary64.zero.numericLe seaNode.total = true ↔
        (compare Binary64.zero seaNode.total).isLE = true) ∧
      ∃ parent : Node, final.nodes[1]? = some parent ∧
        parent.cost.numericLe seaNode.cost = true := by
  intro final
  have hkeys : (Binary64.ofNat problem.keys.card).isFinite = true := by decide +kernel
  have hnode : final.nodes[2]? = some seaNode := by decide +kernel
  have hroot : final.nodes[0]?.map Node.cost = some Binary64.zero := by decide +kernel
  obtain ⟨root, hroot, hzero⟩ := Option.map_eq_some_iff.1 hroot
  have hheuristic : (Strategy.aStar none).heuristic = Heuristic.zero ∨
      (Strategy.aStar none).heuristic = Heuristic.unmet ∧
        (Binary64.ofNat problem.keys.card).isFinite = true := Or.inr ⟨rfl, hkeys⟩
  obtain ⟨hfinal, hnonneg, horders, hbooks⟩ := Strategy.comparisons_agree hheuristic
  have htotal : Search.Handled problem ((Strategy.aStar none).estimate problem) seaNode.total :=
    .total hfinal hnode
  have hcost := Search.Handled.cost hfinal hroot
  rw [hzero] at hcost
  exact ⟨hkeys, hnode, hnonneg _ htotal, horders _ _ hcost htotal,
    (hbooks final hfinal).2 2 seaNode ⟨1, 1⟩ hnode rfl⟩

end Voyage

end GoalPlanning
