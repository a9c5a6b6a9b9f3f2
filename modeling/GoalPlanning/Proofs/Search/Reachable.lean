import GoalPlanning.Proofs.Search.FrontierOrder
import GoalPlanning.Search.Run

/-!
# The searches that a run goes through

A run starts at the goal, takes the most promising open node again and again, and expands it
unless the current state satisfies its residual goal. `Search.Reachable` holds of the searches
between two such steps, so what is true at the start and kept by every expansion is true whenever
a run stops. An expansion closes one node and then grows the search by pushes, each of a node
whose residual goal has not been reached at its cost before.
-/

namespace GoalPlanning

/-- The entry of a node in the frontier. -/
def Node.entry (n : Node) (number : ℕ) : Entry := ⟨n.total, n.cost, number⟩

namespace Search

/-! ## Taking a node -/

/-- Taking the node `n` behind the entry `e` from a search leaves the search `rest`. -/
structure Takes (s : Search) (e : Entry) (n : Node) (rest : Search) : Prop where
  /-- The entry was in the frontier. -/
  mem : e ∈ s.frontier
  /-- It stands for the node. -/
  node : s.nodes[e.node]? = some n
  /-- The residual goal of the node is open. -/
  isOpen : n.residual ∉ s.closed
  /-- No entry of an open node comes before it. -/
  least : ∀ f ∈ s.frontier, ∀ m, s.nodes[f.node]? = some m → m.residual ∉ s.closed →
    (compare e f).isLE
  /-- The entries after it are left in the frontier. -/
  frontier : ∀ f, f ∈ rest.frontier ↔ f ∈ s.frontier ∧ compare e f = .lt
  /-- The frontier gets smaller. -/
  size_lt : rest.frontier.size < s.frontier.size
  /-- The nodes stay. -/
  nodes_eq : rest.nodes = s.nodes
  /-- The closed residual goals stay. -/
  closed_eq : rest.closed = s.closed
  /-- The costs reached stay. -/
  best_eq : rest.best = s.best
  /-- The nodes that have been expanded stay. -/
  expanded_eq : rest.expanded = s.expanded

/-- Taking and closing a node leaves the nodes as they are. -/
theorem Takes.nodes_close {s : Search} {e : Entry} {n : Node} {rest : Search}
    (h : s.Takes e n rest) : (rest.close n).nodes = s.nodes :=
  h.nodes_eq

/-- The node that is taken and closed keeps its number. -/
theorem Takes.node_close {s : Search} {e : Entry} {n : Node} {rest : Search}
    (h : s.Takes e n rest) : (rest.close n).nodes[e.node]? = some n :=
  h.nodes_close ▸ h.node

/-- Taking and closing a node leaves the best costs as they are. -/
theorem Takes.best_close {s : Search} {e : Entry} {n : Node} {rest : Search}
    (h : s.Takes e n rest) : (rest.close n).best = s.best :=
  h.best_eq

/-- The node that is taken and closed is the last one that has been expanded. -/
theorem Takes.expanded_close {s : Search} {e : Entry} {n : Node} {rest : Search}
    (h : s.Takes e n rest) : (rest.close n).expanded = s.expanded.push n :=
  congrArg (Array.push · n) h.expanded_eq

/-- An entry stands for an open node if the residual goal of its node is not closed. -/
theorem openNode?_eq_some_iff {s : Search} {e : Entry} {number : ℕ} {n : Node} :
    s.openNode? e = some (number, n) ↔
      e.node = number ∧ s.nodes[e.node]? = some n ∧ n.residual ∉ s.closed := by
  unfold openNode?
  rw [Option.bind_eq_some_iff]
  constructor
  · rintro ⟨m, hm, hopen⟩
    split at hopen
    · cases hopen
    case isFalse hclosed =>
      simp only [Option.some.injEq, Prod.mk.injEq] at hopen
      obtain ⟨rfl, rfl⟩ := hopen
      exact ⟨rfl, hm, fun hmem => hclosed (Std.TreeSet.mem_iff_contains.1 hmem)⟩
  · rintro ⟨rfl, hn, hopen⟩
    exact ⟨n, hn, if_neg fun hcontains => hopen (Std.TreeSet.mem_iff_contains.2 hcontains)⟩

/-- What is taken is the most promising open node. -/
theorem takes_of_next? {s rest : Search} {number : ℕ} {n : Node}
    (h : s.next? = some ((number, n), rest)) : ∃ e, e.node = number ∧ s.Takes e n rest := by
  rw [next?, Option.map_eq_some_iff] at h
  obtain ⟨⟨found, frontier⟩, hnext, hrest⟩ := h
  simp only [Prod.mk.injEq] at hrest
  obtain ⟨rfl, rfl⟩ := hrest
  obtain ⟨e, he⟩ := Frontier.next?_eq_some hnext
  obtain ⟨hnumber, hn, hopen⟩ := openNode?_eq_some_iff.1 he.worth_eq
  have hleast : ∀ f ∈ s.frontier, ∀ m, s.nodes[f.node]? = some m → m.residual ∉ s.closed →
      (compare e f).isLE := by
    intro f hf m hm hmopen
    apply he.least f hf
    rw [openNode?_eq_some_iff.2 ⟨rfl, hm, hmopen⟩, Option.isSome_some]
  exact ⟨e, hnumber, he.mem, hn, hopen, hleast, he.mem_rest, he.size_lt, rfl, rfl, rfl, rfl⟩

/-- Nothing is taken only if every node in the frontier is closed. -/
theorem mem_closed_of_next?_eq_none {s : Search} (h : s.next? = none) {e : Entry}
    (he : e ∈ s.frontier) {n : Node} (hn : s.nodes[e.node]? = some n) : n.residual ∈ s.closed := by
  rw [next?, Option.map_eq_none_iff] at h
  by_contra hopen
  have hnone := Frontier.next?_eq_none_iff.1 h e he
  rw [openNode?_eq_some_iff.2 ⟨rfl, hn, hopen⟩] at hnone
  cases hnone

/-! ## Pushing a node -/

/-- Of the nodes after a push all but the last have been there before. -/
theorem getElem?_nodes_push {s : Search} {m n : Node} {i : ℕ}
    (h : (s.push m).nodes[i]? = some n) :
    s.nodes[i]? = some n ∨ (i = s.nodes.size ∧ n = m) := by
  change (s.nodes.push m)[i]? = some n at h
  rw [Array.getElem?_push] at h
  split at h
  case isTrue hlast => exact Or.inr ⟨hlast, (Option.some.inj h).symm⟩
  case isFalse => exact Or.inl h

/-- A push keeps the nodes that have been there before. -/
theorem getElem?_nodes_push_of_eq_some {s : Search} {n : Node} {i : ℕ}
    (h : s.nodes[i]? = some n) (m : Node) : (s.push m).nodes[i]? = some n := by
  obtain ⟨hlt, rfl⟩ := Array.getElem?_eq_some_iff.1 h
  exact Array.getElem?_push_lt hlt

/-- The next number is that of the node that is pushed. -/
@[simp] theorem getElem?_nodes_push_size (s : Search) (m : Node) :
    (s.push m).nodes[s.nodes.size]? = some m :=
  Array.getElem?_push_size

/-- Pushing a node adds its entry to the frontier. -/
@[simp] theorem mem_frontier_push {s : Search} {m : Node} {e : Entry} :
    e ∈ (s.push m).frontier ↔ e = m.entry s.nodes.size ∨ e ∈ s.frontier := by
  change e ∈ s.frontier.insert _ ↔ _
  rw [Std.TreeSet.mem_insert, Std.compare_eq_iff_eq, eq_comm]
  rfl

/-- Pushing a node opens its residual goal again. -/
@[simp] theorem mem_closed_push {s : Search} {m : Node} {residual : State} :
    residual ∈ (s.push m).closed ↔ m.residual ≠ residual ∧ residual ∈ s.closed := by
  change residual ∈ s.closed.erase _ ↔ _
  rw [Std.TreeSet.mem_erase, ne_eq, Std.compare_eq_iff_eq]

/-- Pushing a node sets the best cost of its residual goal. -/
@[simp] theorem getElem?_best_push (s : Search) (m : Node) (residual : State) :
    (s.push m).best[residual]? = if m.residual = residual then some m.cost
      else s.best[residual]? := by
  change (s.best.insert _ _)[residual]? = _
  simp only [Std.TreeMap.getElem?_insert, Std.compare_eq_iff_eq]

/-- Closing a node adds its residual goal to the closed ones. -/
@[simp] theorem mem_closed_close {s : Search} {n : Node} {residual : State} :
    residual ∈ (s.close n).closed ↔ n.residual = residual ∨ residual ∈ s.closed := by
  change residual ∈ s.closed.insert _ ↔ _
  rw [Std.TreeSet.mem_insert, Std.compare_eq_iff_eq]

/-- A residual goal is known at a cost if it has been reached at this cost or a lower one. -/
theorem isKnown_eq_true_iff {s : Search} {residual : State} {cost : Binary64} :
    s.isKnown residual cost = true ↔
      ∃ g, s.best[residual]? = some g ∧ g.numericLe cost = true := by
  rw [isKnown, Option.any_eq_true]

/-! ## Expanding a node -/

section

variable {p : Problem} {estimate : State → Binary64} {number : ℕ} {n : Node}

/-- The search `s` grows to the second one by pushes of residual goals from which one action leads
to that of the node `n`, which has the given number. -/
inductive Grows (p : Problem) (estimate : State → Binary64) (number : ℕ) (n : Node) (s : Search) :
    Search → Prop
  /-- There need not be any push. -/
  | refl : Grows p estimate number n s s
  /-- A residual goal is pushed if it is not known at its cost. -/
  | push {s' : Search} {i : ℕ} {a : Action} {before : State} : Grows p estimate number n s s' →
      p.actions[i]? = some a → a.regress? n.residual = some before →
      s'.isKnown before (n.cost + a.cost) = false →
      Grows p estimate number n s
        (s'.push ⟨before, n.cost + a.cost, estimate before, some ⟨number, i⟩⟩)

/-- Reaching through one of the actions makes a search grow. -/
theorem Grows.reachThrough {s s' : Search} (h : Grows p estimate number n s s') {i : ℕ}
    {a : Action} (ha : p.actions[i]? = some a) :
    Grows p estimate number n s (s'.reachThrough estimate number n a i) := by
  unfold Search.reachThrough
  cases hregress : a.regress? n.residual with
  | none => exact h
  | some before =>
    cases hknown : s'.isKnown before (n.cost + a.cost) with
    | true => simpa [reach, hknown] using h
    | false => simpa [reach, hknown] using h.push ha hregress hknown

/-- Reaching through a list of actions makes a search grow. -/
theorem Grows.foldl {s s' : Search} (h : Grows p estimate number n s s')
    {numbered : List (Action × ℕ)} (hnumbered : ∀ a ∈ numbered, p.actions[a.2]? = some a.1) :
    Grows p estimate number n s
      (numbered.foldl (fun s a => s.reachThrough estimate number n a.1 a.2) s') := by
  induction numbered generalizing s' with
  | nil => exact h
  | cons a numbered ih =>
    obtain ⟨ha, hnumbered⟩ := List.forall_mem_cons.1 hnumbered
    exact ih (h.reachThrough ha) hnumbered

/-- The turns of the first actions make a search grow. -/
theorem grows_turns (s : Search) {earlier : List (Action × ℕ)}
    (hearlier : earlier <+: p.actions.zipIdx) :
    Grows p estimate number n s
      (earlier.foldl (fun s a => s.reachThrough estimate number n a.1 a.2) s) :=
  Grows.refl.foldl fun _ ha => List.mem_zipIdx_iff_getElem?.1 (hearlier.subset ha)

/-- An expansion closes the node and then makes the search grow. -/
theorem grows_expand (s : Search) :
    Grows p estimate number n (s.close n) (s.expand estimate p.actions number n) :=
  grows_turns (s.close n) List.prefix_rfl

/-- Every action has its turn when a search reaches through a list of actions, with growth before it
and after it. -/
theorem exists_grows_reachThrough (s : Search) {numbered : List (Action × ℕ)}
    (hnumbered : ∀ a ∈ numbered, p.actions[a.2]? = some a.1) {a : Action × ℕ}
    (ha : a ∈ numbered) :
    ∃ s', Grows p estimate number n s s' ∧
      Grows p estimate number n (s'.reachThrough estimate number n a.1 a.2)
        (numbered.foldl (fun s a => s.reachThrough estimate number n a.1 a.2) s) := by
  obtain ⟨earlier, later, rfl⟩ := List.append_of_mem ha
  refine ⟨_, Grows.refl.foldl fun b hb => hnumbered b (List.mem_append_left _ hb), ?_⟩
  rw [List.foldl_append, List.foldl_cons]
  exact Grows.refl.foldl fun b hb =>
    hnumbered b (List.mem_append_right _ (List.mem_cons_of_mem _ hb))

/-- Growing does not change which nodes have been expanded. -/
theorem Grows.expanded_eq {s s' : Search} (h : Grows p estimate number n s s') :
    s'.expanded = s.expanded := by
  induction h with
  | refl => rfl
  | push _ _ _ _ ih => exact ih

/-- An expansion adds one node to those that have been expanded. -/
theorem expanded_expand (s : Search) :
    (s.expand estimate p.actions number n).expanded = s.expanded.push n :=
  (grows_expand s).expanded_eq

end

/-! ## Runs -/

variable {p : Problem} {estimate : State → Binary64}

section

variable {s rest : Search} {number : ℕ} {n : Node}

/-- Taking a node makes no expansion. -/
theorem expanded_of_next? (hnext : s.next? = some ((number, n), rest)) :
    rest.expanded = s.expanded := by
  obtain ⟨e, -, htakes⟩ := takes_of_next? hnext
  exact htakes.expanded_eq

/-- Expanding the node that is taken makes one. -/
theorem expanded_expand_of_next? (hnext : s.next? = some ((number, n), rest)) :
    (rest.expand estimate p.actions number n).expanded = s.expanded.push n := by
  rw [expanded_expand, expanded_of_next? hnext]

/-- A run ends where there is no node to take. -/
theorem run_of_next?_eq_none (hnext : s.next? = none) (budget : ℕ) :
    run p estimate budget s = (.noPlan, s) := by
  unfold run
  simp only [hnext]

/-- A run ends where the node that is taken makes a plan. -/
theorem run_of_satisfies (hnext : s.next? = some ((number, n), rest))
    (hcovered : p.current.satisfies n.residual = true) (budget : ℕ) :
    run p estimate budget s = (.found number, rest) := by
  unfold run
  simp only [hnext, if_pos hcovered]

/-- Without any budget left, a node that does not make a plan ends the run too. -/
theorem run_zero_of_next? (hnext : s.next? = some ((number, n), rest))
    (hopen : ¬p.current.satisfies n.residual = true) :
    run p estimate 0 s = (.overBudget, rest) := by
  unfold run
  simp only [hnext, if_neg hopen]

/-- Otherwise it is expanded, and the run goes on. -/
theorem run_succ_of_next? (hnext : s.next? = some ((number, n), rest))
    (hopen : ¬p.current.satisfies n.residual = true) (budget : ℕ) :
    run p estimate (budget + 1) s =
      run p estimate budget (rest.expand estimate p.actions number n) := by
  rw [run]
  simp only [hnext, if_neg hopen]

end

/-- The searches that a run goes through, each before a node is taken from it. -/
inductive Reachable (p : Problem) (estimate : State → Binary64) : Search → Prop
  /-- A run starts at the goal. -/
  | start : Reachable p estimate (Search.start estimate p.goal)
  /-- A node that does not make a plan is expanded. -/
  | expand {s rest : Search} {number : ℕ} {n : Node} : Reachable p estimate s →
      s.next? = some ((number, n), rest) → p.current.satisfies n.residual = false →
      Reachable p estimate (rest.expand estimate p.actions number n)

/-- What is true of the start, and of a search after an expansion if it was before, is true of
every search that a run goes through. -/
theorem Reachable.invariant {P : Search → Prop} {s : Search} (h : Reachable p estimate s)
    (hstart : P (Search.start estimate p.goal))
    (hexpand : ∀ s e n rest, Reachable p estimate s → s.Takes e n rest →
      p.current.satisfies n.residual = false → P s →
      P (rest.expand estimate p.actions e.node n)) : P s := by
  induction h with
  | start => exact hstart
  | expand hs hnext hopen ih =>
    obtain ⟨e, rfl, htakes⟩ := takes_of_next? hnext
    exact hexpand _ e _ _ hs htakes hopen ih

/-- How a run stops at the search `s`, and what is known then. -/
def StopsAt (p : Problem) (s : Search) (final : Search) : Ending → Prop
  | .found number => ∃ n, s.next? = some ((number, n), final) ∧
      p.current.satisfies n.residual = true
  | .noPlan => s.next? = none ∧ final = s
  | .overBudget => ∃ number n, s.next? = some ((number, n), final) ∧
      p.current.satisfies n.residual = false

/-- Nothing but the frontier changes when a run stops. -/
theorem StopsAt.eq {s final : Search} {ending : Ending} (h : StopsAt p s final ending) :
    final.nodes = s.nodes ∧ final.expanded = s.expanded := by
  cases ending with
  | found _ =>
    obtain ⟨n, hnext, -⟩ := h
    obtain ⟨e, -, htakes⟩ := takes_of_next? hnext
    exact ⟨htakes.nodes_eq, htakes.expanded_eq⟩
  | noPlan => exact h.2 ▸ ⟨rfl, rfl⟩
  | overBudget =>
    obtain ⟨number, n, hnext, -⟩ := h
    obtain ⟨e, -, htakes⟩ := takes_of_next? hnext
    exact ⟨htakes.nodes_eq, htakes.expanded_eq⟩

/-- A run stops at a reachable search, and it stops over budget only after as many expansions as
its budget allows. -/
theorem run_reachable {s : Search} (hs : Reachable p estimate s) (budget : ℕ) :
    ∃ s', Reachable p estimate s' ∧
      StopsAt p s' (run p estimate budget s).2 (run p estimate budget s).1 ∧
      ((run p estimate budget s).1 = .overBudget →
        s'.expanded.size = s.expanded.size + budget) := by
  fun_induction run p estimate budget s with
  | case1 budget s hnext => exact ⟨s, hs, ⟨hnext, rfl⟩, by simp⟩
  | case2 budget s number n rest hnext hcovered =>
    exact ⟨s, hs, ⟨n, hnext, hcovered⟩, by simp⟩
  | case3 s number n rest hnext hopen =>
    exact ⟨s, hs, ⟨number, n, hnext, Bool.eq_false_iff.2 hopen⟩, fun _ => rfl⟩
  | case4 s number n rest hnext hopen budget ih =>
    obtain ⟨s', hs', hstops, hbudget⟩ := ih (hs.expand hnext (Bool.eq_false_iff.2 hopen))
    refine ⟨s', hs', hstops, fun hover => ?_⟩
    rw [hbudget hover, expanded_expand_of_next? hnext, Array.size_push]
    omega

end Search

/-- Every search for a plan stops at a search that its run goes through, and over budget only after
as many expansions as it may make. -/
theorem Report.exists_stopsAt (p : Problem) (estimate : State → Binary64) (budget : ℕ) :
    ∃ s, Search.Reachable p estimate s ∧
      Search.StopsAt p s (ofSearch p estimate budget).final (ofSearch p estimate budget).ending ∧
      ((ofSearch p estimate budget).ending = .overBudget → s.expanded.size = budget) := by
  obtain ⟨s, hs, hstops, hbudget⟩ := Search.run_reachable (Search.Reachable.start) budget
  exact ⟨s, hs, hstops, fun hover => (hbudget hover).trans (Nat.zero_add budget)⟩

end GoalPlanning
