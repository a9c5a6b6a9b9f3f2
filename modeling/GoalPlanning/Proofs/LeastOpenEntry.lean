import GoalPlanning.Proofs.Search.QueuedRuns
import GoalPlanning.Proofs.ResidualGoals

/-!
# The least open entry is taken

Pushing a node adds its entry to the frontier, and taking a node removes entries until one is open.
Residual goals may be closed and opened again in any way between these steps, and totals may be any
numbers, infinite ones, NaNs and zeros of either sign among them: of two entries one comes before
the other, so there is always one least entry among the open ones. It is the one that is taken.
Since no two entries tie, this is so however entries are kept, and every priority queue leads a
search to the same expansions in the same order.
-/

namespace GoalPlanning

namespace Search

/-- The searches that come from pushing and taking nodes in any order. What else they know, such as
the residual goals that are closed, may be changed in any way in between. -/
inductive Worked : Search → Prop
  /-- At first there are no nodes. -/
  | empty : Worked {}
  /-- A node is pushed. -/
  | push {s : Search} (n : Node) : Worked s → Worked (s.push n)
  /-- A node is taken. -/
  | take {s rest : Search} {found : ℕ × Node} : Worked s → s.next? = some (found, rest) →
      Worked rest
  /-- There is no node to take, and all entries have been removed. -/
  | exhaust {s : Search} : Worked s → s.next? = none → Worked s.withoutFrontier
  /-- Neither the nodes nor the frontier are touched. -/
  | change {s t : Search} : Worked s → t.nodes = s.nodes → t.frontier = s.frontier → Worked t

/-- An entry is open if the residual goal of its node is not closed. -/
def IsOpen (s : Search) (e : Entry) : Prop :=
  ∃ n, s.nodes[e.node]? = some n ∧ n.residual ∉ s.closed

/-- What taking a node from a search has to give. -/
inductive TakesLeast (s : Search) : Option ((ℕ × Node) × Search) → Prop
  /-- The node of the open entry that comes before all other open entries. This entry is removed
  with those before it, which are not open, and all others stay. -/
  | taken {e : Entry} {n : Node} {rest : Search} : e ∈ s.frontier → s.IsOpen e →
      (∀ f ∈ s.frontier, s.IsOpen f → f ≠ e → e.Before f) → s.nodes[e.node]? = some n →
      (∀ f, f ∈ rest.frontier ↔ f ∈ s.frontier ∧ f ≠ e ∧ ¬(f.Before e ∧ ¬s.IsOpen f)) →
      rest.withoutFrontier = s.withoutFrontier → TakesLeast s (some ((e.node, n), rest))
  /-- Nothing, if no entry is open. -/
  | nothing : (∀ e ∈ s.frontier, ¬s.IsOpen e) → TakesLeast s none

/-- The frontier of a search is in order. -/
structure Orderly (s : Search) : Prop where
  /-- Every entry stands for a node. -/
  entry : ∀ e ∈ s.frontier, ∃ n, s.nodes[e.node]? = some n ∧ e = n.entry e.node
  /-- Different entries stand for different nodes and never tie. -/
  not_tied : ∀ e ∈ s.frontier, ∀ f ∈ s.frontier, e ≠ f → e.node ≠ f.node ∧ compare e f ≠ .eq
  /-- The least open entry is taken. -/
  takesLeast : s.TakesLeast s.next?
  /-- Nothing is taken exactly if no entry is open. -/
  next?_eq_none_iff : s.next? = none ↔ ∀ e ∈ s.frontier, ¬s.IsOpen e
  /-- A queue that holds the entries of the frontier goes on holding them when a node is pushed, and
  when one is taken from it, which is the one that is taken from the frontier. -/
  queue : ∀ {σ : Type} (Q : PriorityQueue σ) (q : σ), Q.Holds q s.frontier →
    (∀ n : Node, Q.Holds (Q.insert q (n.entry s.nodes.size)) (s.push n).frontier) ∧
    (Q.next s.openNode? q).1 = s.next?.map Prod.fst ∧
    Q.Holds (Q.next s.openNode? q).2 ((s.next?.map fun taken => taken.2.frontier).getD ∅)

variable {p : Problem} {estimate : State → Binary64} {s rest : Search} {e : Entry} {n : Node}

/-! ## Pushing and taking in any order -/

/-- However nodes are pushed and taken, every entry stands for a node. -/
theorem Worked.exists_node (hs : s.Worked) :
    ∀ e ∈ s.frontier, ∃ n, s.nodes[e.node]? = some n ∧ e = n.entry e.node := by
  induction hs with
  | empty => simp
  | @push s m _ ih =>
    intro e he
    rcases mem_frontier_push.1 he with rfl | he
    · exact ⟨m, getElem?_nodes_push_size s m, rfl⟩
    · obtain ⟨n, hn, heq⟩ := ih e he
      exact ⟨n, getElem?_nodes_push_of_eq_some hn m, heq⟩
  | take _ hnext ih =>
    obtain ⟨_, -, htakes⟩ := takes_of_next? hnext
    intro e he
    rw [htakes.nodes_eq]
    exact ih e ((htakes.frontier e).1 he).1
  | exhaust => simp [withoutFrontier]
  | change _ hnodes hfrontier ih => rwa [hnodes, hfrontier]

/-- The entry of the node that is pushed is new. -/
theorem Worked.entry_not_mem_frontier (hs : s.Worked) (n : Node) :
    n.entry s.nodes.size ∉ s.frontier := by
  intro hmem
  obtain ⟨m, hm, -⟩ := hs.exists_node _ hmem
  exact Nat.lt_irrefl _ (Array.getElem?_eq_some_iff.1 hm).1

/-- Reaching new nodes consists of pushing nodes. -/
theorem Grows.worked {number : ℕ} {t : Search} (hgrows : Grows p estimate number n s t)
    (hs : s.Worked) : t.Worked := by
  induction hgrows with
  | refl => exact hs
  | push _ _ _ _ ih => exact ih.push _

/-- Every search that a run goes through comes from pushing and taking nodes. -/
theorem Reachable.worked (hs : Reachable p estimate s) : s.Worked := by
  induction hs with
  | start => exact Worked.empty.push _
  | @expand s rest number n _ hnext _ ih =>
    have hclosed : (rest.close n).Worked := (ih.take hnext).change rfl rfl
    exact (grows_expand rest).worked hclosed

/-- At every moment of a run the search comes from pushing and taking nodes. -/
theorem Moment.worked (h : Moment p estimate s) : s.Worked := by
  cases h with
  | before hs => exact hs.worked
  | taken hs hnext => exact hs.worked.take hnext
  | @expanding s rest number n earlier hs hnext _ hearlier =>
    have hclosed : (rest.close n).Worked := (hs.worked.take hnext).change rfl rfl
    exact (grows_turns (rest.close n) hearlier).worked hclosed

/-! ## The least open entry -/

/-- After the node of an entry has been taken, those entries are left that have not been in front of
it without being open. -/
theorem Takes.mem_frontier_iff (htakes : s.Takes e n rest) {f : Entry} :
    f ∈ rest.frontier ↔ f ∈ s.frontier ∧ f ≠ e ∧ ¬(f.Before e ∧ ¬s.IsOpen f) := by
  rw [htakes.frontier, Entry.compare_eq_lt_iff]
  refine and_congr_right fun hf => ⟨fun hbefore => ⟨?_, ?_⟩, ?_⟩
  · rintro rfl
    exact hbefore.not_isLE Std.ReflCmp.isLE_rfl
  · exact fun h => h.1.not_isLE hbefore.isLE
  · rintro ⟨hne, hnot⟩
    rcases Entry.isLE_or_isLE e f with hle | hge
    · exact Entry.before_of_isLE hle hne
    · have hfirst := Entry.before_of_isLE hge hne.symm
      obtain ⟨m, hm, hopen⟩ := not_not.1 fun hclosed => hnot ⟨hfirst, hclosed⟩
      exact absurd (htakes.least f hf m hm hopen) hfirst.not_isLE

/-- Taking a node changes nothing but the frontier. -/
theorem Takes.withoutFrontier_eq (htakes : s.Takes e n rest) :
    rest.withoutFrontier = s.withoutFrontier := by
  simp only [withoutFrontier, htakes.nodes_eq, htakes.closed_eq, htakes.best_eq,
    htakes.expanded_eq]

/-- What is taken is the least open entry. -/
theorem takesLeast_next? (s : Search) : s.TakesLeast s.next? := by
  cases hnext : s.next? with
  | none =>
    refine .nothing fun e he => ?_
    rintro ⟨n, hn, hopen⟩
    exact hopen (mem_closed_of_next?_eq_none hnext he hn)
  | some taken =>
    obtain ⟨⟨number, n⟩, rest⟩ := taken
    obtain ⟨e, rfl, htakes⟩ := takes_of_next? hnext
    refine .taken htakes.mem ⟨n, htakes.node, htakes.isOpen⟩ ?_ htakes.node
      (fun f => htakes.mem_frontier_iff) htakes.withoutFrontier_eq
    rintro f hf ⟨m, hm, hopen⟩ hne
    exact Entry.before_of_isLE (htakes.least f hf m hm hopen) hne

/-- No node can be taken exactly if no entry is open. -/
theorem next?_eq_none_iff_not_isOpen (s : Search) :
    s.next? = none ↔ ∀ e ∈ s.frontier, ¬s.IsOpen e := by
  have hleast := s.takesLeast_next?
  generalize s.next? = taken at hleast
  cases hleast with
  | taken he hopen => exact iff_of_false (by simp) fun h => h _ he hopen
  | nothing h => exact iff_of_true rfl h

/-- A queue that holds the entries of a frontier goes on doing so. -/
theorem Worked.holds (hs : s.Worked) {σ : Type} {Q : PriorityQueue σ} {q : σ}
    (h : Q.Holds q s.frontier) :
    (∀ n : Node, Q.Holds (Q.insert q (n.entry s.nodes.size)) (s.push n).frontier) ∧
      (Q.next s.openNode? q).1 = s.next?.map Prod.fst ∧
      Q.Holds (Q.next s.openNode? q).2 ((s.next?.map fun taken => taken.2.frontier).getD ∅) := by
  refine ⟨fun n => h.insert (hs.entry_not_mem_frontier n), ?_⟩
  cases hnext : s.next? with
  | none =>
    obtain ⟨q', hqueue, hq'⟩ := h.exists_next_eq_none hnext
    rw [hqueue]
    exact ⟨rfl, hq'⟩
  | some taken =>
    obtain ⟨-, q', hqueue, hq'⟩ := h.exists_next_eq_some hnext
    rw [hqueue]
    exact ⟨rfl, hq'⟩

/-- **The least open entry is taken.** Entries are in a total order, by total, by cost and by
number, and they are equal exactly if they compare as equal. However nodes are pushed and taken and
whatever is closed in between, no two entries of a frontier tie, and taking a node finds the least
open entry, removes it and the entries before it, which are not open, and leaves all others; it
finds nothing exactly if no entry is open. This is true at every moment of every run. How entries
are kept does not matter: with every priority queue a search makes the same expansions in the same
order, and ends in the same way. -/
theorem orderly_of_worked :
    IsLinearOrder Entry (fun e f => (compare e f).isLE = true) ∧
    (∀ e f : Entry, (compare e f = .lt ↔ e.Before f) ∧
      ((e == f) = true ↔ compare e f = .eq)) ∧
    (∀ s : Search, s.Worked → s.Orderly) ∧
    ∀ (p : Problem) (estimate : State → Binary64), (∀ s, Moment p estimate s → s.Worked) ∧
      ∀ (budget : ℕ) {σ : Type} (Q : PriorityQueue σ), Q.report p estimate budget =
        { Report.ofSearch p estimate budget with
          final := (Report.ofSearch p estimate budget).final.withoutFrontier } := by
  refine ⟨Entry.isLinearOrder_compare, fun e f => ⟨Entry.compare_eq_lt_iff, ?_⟩,
    fun s hs => ?_, fun p estimate => ⟨fun s hs => hs.worked, fun budget σ Q => ?_⟩⟩
  · rw [beq_iff_eq, Std.compare_eq_iff_eq]
  · refine ⟨hs.exists_node, fun e he f hf hne => ⟨fun hnode => ?_, ?_⟩, s.takesLeast_next?,
      s.next?_eq_none_iff_not_isOpen, fun Q q hq => hs.holds hq⟩
    · obtain ⟨m, hm, hem⟩ := hs.exists_node e he
      obtain ⟨n, hn, hfn⟩ := hs.exists_node f hf
      obtain rfl := Option.some.inj (hm.symm.trans (hnode ▸ hn))
      exact hne (hem.trans (hnode ▸ hfn.symm))
    · rwa [ne_eq, Std.compare_eq_iff_eq]
  · exact Q.report_eq p estimate budget

end Search

/-! Four nodes with totals of all kinds: a NaN, the two zeros, and negative infinity. -/

namespace AllKinds

/-- A node that asks for one thing. -/
def asking (thing : String) (cost estimate : Binary64) : Node :=
  ⟨State.empty.insert thing (.bool true), cost, estimate, none⟩

/-- A node whose total is NaN, with a clear sign bit. -/
def undefined : Node :=
  asking "coffee" Binary64.one { Binary64.invalid with negative := false }

/-- A node whose total is zero. -/
def nothing : Node := asking "bread" Binary64.zero Binary64.zero

/-- A node whose total is negative infinity. -/
def endless : Node := asking "warmth" Binary64.zero (Binary64.infinity true)

/-- A node whose total is negative zero. -/
def lessThanNothing : Node :=
  asking "butter" (Binary64.signedZero true) (Binary64.signedZero true)

/-- The search that has made these nodes, in this order. -/
def pushed : Search := (((({} : Search).push undefined).push nothing).push endless).push
  lessThanNothing

/-- The same search after the third node has been closed. -/
def search : Search := { pushed with closed := (∅ : Std.TreeSet State).insert endless.residual }

/-- The third node would come first, but it is closed, so the fourth one is taken. A list finds the
same node. Another list leads the search for the way to open the chest to the same plan. -/
theorem next?_search :
    search.Orderly ∧ search.next?.map Prod.fst = some (3, lessThanNothing) ∧
      (PriorityQueue.unsorted.next search.openNode? [lessThanNothing.entry 3, endless.entry 2,
        nothing.entry 1, undefined.entry 0]).1 = some (3, lessThanNothing) ∧
      (PriorityQueue.unsorted.report Chest.problem (fun _ => Binary64.invalid) 4).plan =
        .ok [Chest.openChest, Chest.forgeKey] := by
  obtain ⟨-, -, hall, hruns⟩ := Search.orderly_of_worked
  have h₀ : ({} : Search).Worked := .empty
  have h₁ := h₀.push undefined
  have h₂ := h₁.push nothing
  have h₃ := h₂.push endless
  have hsearch : search.Worked := (h₃.push lessThanNothing).change rfl rfl
  have hholds : PriorityQueue.unsorted.Holds [lessThanNothing.entry 3, endless.entry 2,
      nothing.entry 1, undefined.entry 0] search.frontier :=
    (h₃.holds ((h₂.holds ((h₁.holds ((h₀.holds PriorityQueue.holds_empty).1 _)).1 _)).1 _)).1 _
  have hnext : search.next?.map Prod.fst = some (3, lessThanNothing) := by decide +kernel
  have horderly := hall search hsearch
  refine ⟨horderly, hnext, (horderly.queue _ _ hholds).2.1.trans hnext, ?_⟩
  rw [(hruns Chest.problem _).2]
  decide +kernel

end AllKinds

end GoalPlanning
