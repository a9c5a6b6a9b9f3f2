import GoalPlanning.Proofs.Binary64.SignedSums
import GoalPlanning.Proofs.Search.Ledger

/-!
# What a search has explored

A residual goal that has been reached is either open, and then a node for it waits in the
frontier, or it is closed, and then everything from which one action leads to it has been reached
as well. Entries are never deleted, so a node that waits may be stale, and a residual goal may
even be expanded at a cost that is not its best one. This does not happen if adding an estimate
keeps the order of costs: the cheapest node for a residual goal then comes before all others.
-/

namespace GoalPlanning

/-- An estimate is steady if adding it to costs keeps their order. Negative infinity does not: added
to infinity it gives a NaN that comes first. -/
def Problem.Steady (p : Problem) (estimate : State → Binary64) : Prop :=
  ∀ residual, p.Mentions residual → ∀ g g' : Binary64, g.IsUnsigned → g'.IsUnsigned →
    g.magnitude ≤ g'.magnitude → (g + estimate residual).rank ≤ (g' + estimate residual).rank

/-- Estimates are steady if none of them is negative infinity. -/
theorem Problem.steady_of_ne {p : Problem} {estimate : State → Binary64}
    (h : ∀ residual, p.Mentions residual → estimate residual ≠ Binary64.infinity true) :
    p.Steady estimate :=
  fun residual hmentions _ _ hg hg' hle => hg.rank_add_mono hg' (h residual hmentions) hle

/-- Estimates that are at least zero are steady. -/
theorem Problem.steady_of_isNonneg {p : Problem} {estimate : State → Binary64}
    (h : ∀ residual, p.Mentions residual → (estimate residual).IsNonneg) : p.Steady estimate := by
  refine Problem.steady_of_ne fun residual hmentions heq => ?_
  have hzero := (h residual hmentions).sign (congrArg Binary64.negative heq)
  rw [heq] at hzero
  exact absurd hzero (by decide)

namespace Search

/-- A node for the residual goal waits in the frontier at this cost. -/
def Waits (s : Search) (residual : State) (cost : Binary64) : Prop :=
  ∃ (i : ℕ) (n : Node), s.nodes[i]? = some n ∧ n.residual = residual ∧ n.cost = cost ∧
    n.entry i ∈ s.frontier

/-- Whatever one of the actions leads from to the residual goal has been reached, at a cost no
higher than by way of the residual goal at this cost. -/
def Settled (s : Search) (actions : List Action) (residual : State) (cost : Binary64) : Prop :=
  ∀ a ∈ actions, ∀ before, a.regress? residual = some before →
    ∃ g, s.best[before]? = some g ∧ g.magnitude ≤ (cost + a.cost).magnitude

/-- How a residual goal that has been reached is accounted for: it waits at this cost, or it has
been expanded at this cost. -/
inductive Accounted (p : Problem) (s : Search) (residual : State) (cost : Binary64) : Prop
  /-- An open residual goal waits. -/
  | waiting : residual ∉ s.closed → s.Waits residual cost → Accounted p s residual cost
  /-- A closed residual goal has been expanded, because it was not satisfied. -/
  | settled : residual ∈ s.closed → p.current.satisfies residual = false →
      s.Settled p.actions residual cost → Accounted p s residual cost

/-- A residual goal is explored if it is accounted for at some cost, which is the best one if the
estimate is steady. -/
def Explored (p : Problem) (estimate : State → Binary64) (s : Search) (residual : State)
    (best : Binary64) : Prop :=
  ∃ cost, (p.Steady estimate → cost = best) ∧ Accounted p s residual cost

/-- All residual goals that have been reached are explored. -/
def AllExplored (p : Problem) (estimate : State → Binary64) (s : Search) : Prop :=
  ∀ residual g, s.best[residual]? = some g → Explored p estimate s residual g

/-- While the node `n` is expanded, its residual goal need not be explored if it is closed and has
not been reached again since the search `s`. -/
def ExploredBut (p : Problem) (estimate : State → Binary64) (n : Node) (s s' : Search) : Prop :=
  ∀ residual g, s'.best[residual]? = some g →
    (residual = n.residual ∧ residual ∈ s'.closed ∧ s.best[residual]? = some g) ∨
      Explored p estimate s' residual g

variable {p : Problem} {estimate : State → Binary64} {number : ℕ} {n m : Node} {s s' : Search}
  {residual : State} {cost g : Binary64}

/-! ## Growing -/

/-- A push never makes a best cost worse. -/
theorem exists_best_push_le (hunsigned : s.Unsigned) (hcost : m.cost.IsUnsigned)
    (hknown : s.isKnown m.residual m.cost = false) (hg : s.best[residual]? = some g) :
    ∃ g', (s.push m).best[residual]? = some g' ∧ g'.magnitude ≤ g.magnitude := by
  rw [getElem?_best_push]
  split
  case isTrue hsame =>
    have hlt := hunsigned.lt_of_isKnown_eq_false hcost hknown (hsame ▸ hg)
    exact ⟨m.cost, rfl, hlt.le⟩
  case isFalse => exact ⟨g, hg, le_rfl⟩

/-- Growing never makes a best cost worse. -/
theorem Grows.exists_best_le (hgrows : Grows p estimate number n s s') (hledger : s.Ledger)
    (harena : Arena p estimate s.nodes) (hn : s.nodes[number]? = some n)
    (hg : s.best[residual]? = some g) :
    ∃ g', s'.best[residual]? = some g' ∧ g'.magnitude ≤ g.magnitude := by
  refine hgrows.invariant hledger harena hn
    (P := fun s' => ∃ g', s'.best[residual]? = some g' ∧ g'.magnitude ≤ g.magnitude)
    ⟨g, hg, le_rfl⟩ ?_
  rintro s' m hunsigned hcost hknown ⟨g', hg', hle⟩
  obtain ⟨g'', hg'', hle'⟩ := exists_best_push_le hunsigned hcost hknown hg'
  exact ⟨g'', hg'', hle'.trans hle⟩

/-- A push keeps how other residual goals are accounted for. -/
theorem Accounted.push (h : Accounted p s residual cost) (hunsigned : s.Unsigned)
    (hcost : m.cost.IsUnsigned) (hknown : s.isKnown m.residual m.cost = false)
    (hother : m.residual ≠ residual) : Accounted p (s.push m) residual cost := by
  cases h with
  | waiting hopen hwaits =>
    obtain ⟨i, n, hn, hresidual, hn_cost, hentry⟩ := hwaits
    apply Accounted.waiting
    · intro hmem
      exact hopen (mem_closed_push.1 hmem).2
    · exact ⟨i, n, getElem?_nodes_push_of_eq_some hn m, hresidual, hn_cost,
        mem_frontier_push.2 (Or.inr hentry)⟩
  | settled hclosed hunsatisfied hsettled =>
    apply Accounted.settled (mem_closed_push.2 ⟨hother, hclosed⟩) hunsatisfied
    intro a ha before hregress
    obtain ⟨g, hg, hle⟩ := hsettled a ha before hregress
    obtain ⟨g', hg', hle'⟩ := exists_best_push_le hunsigned hcost hknown hg
    exact ⟨g', hg', hle'.trans hle⟩

/-- The residual goal of a node that is pushed waits at its best cost. -/
theorem explored_push (p : Problem) (estimate : State → Binary64) (s : Search) (m : Node) :
    Explored p estimate (s.push m) m.residual m.cost := by
  have hentry : m.entry s.nodes.size ∈ (s.push m).frontier := mem_frontier_push.2 (Or.inl rfl)
  have hwaits : (s.push m).Waits m.residual m.cost :=
    ⟨s.nodes.size, m, getElem?_nodes_push_size s m, rfl, rfl, hentry⟩
  exact ⟨m.cost, fun _ => rfl, .waiting (by simp) hwaits⟩

/-- A push keeps all residual goals explored but that of the node that is expanded. -/
theorem ExploredBut.push (h : ExploredBut p estimate n s s') (hunsigned : s'.Unsigned)
    (hcost : m.cost.IsUnsigned) (hknown : s'.isKnown m.residual m.cost = false) :
    ExploredBut p estimate n s (s'.push m) := by
  intro residual g hg
  rw [getElem?_best_push] at hg
  split at hg
  case isTrue hsame =>
    obtain ⟨rfl, rfl⟩ := And.intro hsame (Option.some.inj hg)
    exact Or.inr (explored_push p estimate s' m)
  case isFalse hother =>
    rcases h residual g hg with ⟨hself, hmem, hold⟩ | ⟨cost, hsteady, haccounted⟩
    · exact Or.inl ⟨hself, mem_closed_push.2 ⟨hother, hmem⟩, hold⟩
    · exact Or.inr ⟨cost, hsteady, haccounted.push hunsigned hcost hknown hother⟩

/-- While a node is expanded, all residual goals but its own stay explored. -/
theorem Grows.exploredBut (hgrows : Grows p estimate number n s s') (hledger : s.Ledger)
    (harena : Arena p estimate s.nodes) (hn : s.nodes[number]? = some n)
    (h : ExploredBut p estimate n s s) : ExploredBut p estimate n s s' :=
  hgrows.invariant hledger harena hn (P := ExploredBut p estimate n s) h
    fun _ _ hunsigned hcost hknown ih => ih.push hunsigned hcost hknown

/-- After its turn an action has been used: what it leads from to the residual goal of the node
has been reached. -/
theorem exists_best_reachThrough_le (hunsigned : s.Unsigned) {a : Action}
    (hcost : (n.cost + a.cost).IsUnsigned) {before : State}
    (hregress : a.regress? n.residual = some before) (action : ℕ) :
    ∃ g, (s.reachThrough estimate number n a action).best[before]? = some g ∧
      g.magnitude ≤ (n.cost + a.cost).magnitude := by
  simp only [reachThrough, hregress, reach]
  split
  case isTrue hknown =>
    obtain ⟨g, hg, hle⟩ := isKnown_eq_true_iff.1 hknown
    exact ⟨g, hg, ((hunsigned.2 before g hg).numericLe_iff hcost).1 hle⟩
  case isFalse => exact ⟨n.cost + a.cost, by simp, le_rfl⟩

/-- After the turns of some actions each of them has been used. -/
theorem exists_best_foldl_le (hledger : s.Ledger) (harena : Arena p estimate s.nodes)
    (hn : s.nodes[number]? = some n) {numbered : List (Action × ℕ)}
    (hnumbered : ∀ a ∈ numbered, p.actions[a.2]? = some a.1) {a : Action × ℕ}
    (ha : a ∈ numbered) {before : State} (hregress : a.1.regress? n.residual = some before) :
    ∃ g, (numbered.foldl (fun s a => s.reachThrough estimate number n a.1 a.2) s).best[before]? =
      some g ∧ g.magnitude ≤ (n.cost + a.1.cost).magnitude := by
  obtain ⟨s', hearlier, hlater⟩ := exists_grows_reachThrough s hnumbered ha
  obtain ⟨harena', hn'⟩ := hearlier.arena harena hn
  have hledger' := hearlier.ledger hledger harena hn
  have hturn := hearlier.reachThrough (hnumbered a ha)
  obtain ⟨harena'', hn''⟩ := hturn.arena harena hn
  have hcost := (harena'.cost_isUnsigned hn').add a.1.cost_isNonneg
  obtain ⟨g, hg, hle⟩ := exists_best_reachThrough_le (hledger'.unsigned harena') hcost hregress a.2
  obtain ⟨g', hg', hle'⟩ :=
    hlater.exists_best_le (hturn.ledger hledger harena hn) harena'' hn'' hg
  exact ⟨g', hg', hle'.trans hle⟩

/-- An expansion settles the residual goal of the node at the cost of the node. -/
theorem settled_expand (hledger : (s.close n).Ledger) (harena : Arena p estimate s.nodes)
    (hn : s.nodes[number]? = some n) :
    (s.expand estimate p.actions number n).Settled p.actions n.residual n.cost := by
  intro a ha before hregress
  obtain ⟨i, hi⟩ := List.mem_iff_getElem?.1 ha
  have hmem : (a, i) ∈ p.actions.zipIdx := List.mem_zipIdx_iff_getElem?.2 hi
  exact exists_best_foldl_le hledger (show Arena p estimate (s.close n).nodes from harena) hn
    (fun b hb => List.mem_zipIdx_iff_getElem?.1 hb) hmem hregress

/-! ## Taking a node -/

/-- Taking a node and closing it keeps how other residual goals are accounted for. -/
theorem Accounted.close (h : Accounted p s residual cost) {e : Entry} {rest : Search}
    (htakes : s.Takes e n rest) (hother : residual ≠ n.residual) :
    Accounted p (rest.close n) residual cost := by
  have hclosed : residual ∈ (rest.close n).closed ↔ residual ∈ s.closed := by
    rw [mem_closed_close, htakes.closed_eq, or_iff_right hother.symm]
  cases h with
  | waiting hopen hwaits =>
    obtain ⟨i, m, hm, hresidual, hcost, hentry⟩ := hwaits
    have hle := htakes.least _ hentry m hm (hresidual ▸ hopen)
    have hne : compare e (m.entry i) ≠ .eq := by
      intro heq
      have hnode := htakes.node
      rw [Std.LawfulEqCmp.eq_of_compare heq] at hnode
      exact hother (hresidual ▸ congrArg Node.residual (Option.some.inj (hm.symm.trans hnode)))
    have hlt : compare e (m.entry i) = .lt := by
      cases hcompare : compare e (m.entry i) <;> simp_all
    have hleft : m.entry i ∈ (rest.close n).frontier := (htakes.frontier _).2 ⟨hentry, hlt⟩
    exact .waiting (hclosed.not.2 hopen)
      ⟨i, m, htakes.nodes_close ▸ hm, hresidual, hcost, hleft⟩
  | settled hmem hunsatisfied hsettled =>
    apply Accounted.settled (hclosed.2 hmem) hunsatisfied
    intro a ha before hregress
    rw [htakes.best_close]
    exact hsettled a ha before hregress

/-- If the estimate is steady, then a node is taken at the best cost of its residual goal: a stale
node comes after the one that made it stale. -/
theorem Takes.cost_eq {e : Entry} {rest : Search} (htakes : s.Takes e n rest) (hledger : s.Ledger)
    (harena : Arena p estimate s.nodes) (hsteady : p.Steady estimate)
    (hexplored : AllExplored p estimate s) : s.best[n.residual]? = some n.cost := by
  obtain ⟨g, hg, hle⟩ := hledger.best_le e.node n htakes.node
  obtain ⟨cost, hcost, haccounted⟩ := hexplored n.residual g hg
  cases haccounted with
  | settled hclosed => exact absurd hclosed htakes.isOpen
  | waiting hopen hwaits =>
    obtain ⟨i, m, hm, hresidual, rfl, hentry⟩ := hwaits
    obtain rfl := hcost hsteady
    have hm_unsigned := harena.cost_isUnsigned hm
    have hn_unsigned := harena.cost_isUnsigned htakes.node
    have hfirst := htakes.rank_le hledger hm hentry (hresidual ▸ hopen)
    -- The totals of both nodes are made with the same estimate.
    have htotal : m.total.rank ≤ n.total.rank := by
      unfold Node.total
      rw [harena.estimate_eq i m hm, harena.estimate_eq e.node n htakes.node, hresidual]
      exact hsteady _ (harena.mentions htakes.node) _ _ hm_unsigned hn_unsigned hle
    have hm_rank := hm_unsigned.rank_eq
    have hn_rank := hn_unsigned.rank_eq
    have hcosts : m.cost.magnitude = n.cost.magnitude := by omega
    rw [hg, hm_unsigned.ext hn_unsigned hcosts]

/-! ## Runs -/

/-- An expansion never makes a best cost worse. -/
theorem Reachable.exists_best_expand_le (hs : Reachable p estimate s) {e : Entry} {rest : Search}
    (htakes : s.Takes e n rest) (hg : s.best[residual]? = some g) :
    ∃ g', (rest.expand estimate p.actions e.node n).best[residual]? = some g' ∧
      g'.magnitude ≤ g.magnitude :=
  (grows_expand rest).exists_best_le (hs.ledger.close htakes) (htakes.arena_close hs.arena)
    htakes.node_close (htakes.best_close ▸ hg)

/-- An expansion keeps all residual goals explored. -/
theorem AllExplored.expand (h : AllExplored p estimate s) (hs : Reachable p estimate s) {e : Entry}
    {rest : Search} (htakes : s.Takes e n rest)
    (hunsatisfied : p.current.satisfies n.residual = false) :
    AllExplored p estimate (rest.expand estimate p.actions e.node n) := by
  have harena := htakes.arena_close hs.arena
  have hledger := hs.ledger.close htakes
  have hn := htakes.node_close
  have hclose : ExploredBut p estimate n (rest.close n) (rest.close n) := by
    intro residual g hg
    by_cases hsame : residual = n.residual
    · exact Or.inl ⟨hsame, mem_closed_close.2 (Or.inl hsame.symm), hg⟩
    · rw [htakes.best_close] at hg
      obtain ⟨cost, hcost, haccounted⟩ := h residual g hg
      exact Or.inr ⟨cost, hcost, haccounted.close htakes hsame⟩
  intro residual g hg
  rcases (grows_expand rest).exploredBut hledger harena hn hclose residual g hg with
    ⟨rfl, hclosed, hold⟩ | hexplored
  · have hbest : p.Steady estimate → n.cost = g := by
      intro hsteady
      rw [htakes.best_close, htakes.cost_eq hs.ledger hs.arena hsteady h] at hold
      exact Option.some.inj hold
    exact ⟨n.cost, hbest, .settled hclosed hunsatisfied (settled_expand hledger harena hn)⟩
  · exact hexplored

/-- In every search that a run goes through, all residual goals that have been reached are
explored. -/
theorem Reachable.explored (h : Reachable p estimate s) : AllExplored p estimate s := by
  apply h.invariant (P := AllExplored p estimate)
  · intro residual g hg
    rw [Search.start, getElem?_best_push] at hg
    split at hg
    case isTrue hsame =>
      obtain ⟨rfl, rfl⟩ := And.intro hsame (Option.some.inj hg)
      exact explored_push p estimate {} _
    case isFalse => simp at hg
  · intro s e n rest hs htakes hunsatisfied ih
    exact ih.expand hs htakes hunsatisfied

/-- The goal stays reached at no cost. -/
theorem Reachable.exists_best_goal (h : Reachable p estimate s) :
    ∃ g, s.best[p.goal]? = some g ∧ g.magnitude = 0 := by
  refine h.invariant (P := fun s => ∃ g, s.best[p.goal]? = some g ∧ g.magnitude = 0) ?_ ?_
  · exact ⟨Binary64.zero, by simp [Search.start], rfl⟩
  · rintro s e n rest hs htakes - ⟨g, hg, hzero⟩
    obtain ⟨g', hg', hle⟩ := hs.exists_best_expand_le htakes hg
    exact ⟨g', hg', by omega⟩

end Search

end GoalPlanning
