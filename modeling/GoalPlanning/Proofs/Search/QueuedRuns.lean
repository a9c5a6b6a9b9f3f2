import GoalPlanning.Proofs.Search.Ledger
import GoalPlanning.Proofs.Search.Queues
import GoalPlanning.Search.Trace
import Mathlib.Data.List.Nodup

/-!
# Runs with a queue

A search may keep its open nodes in any priority queue in place of its frontier. An expansion adds
the entries of the nodes that it makes, one by one. No entry of a new node has been there before,
because its number is new, so the queue goes on holding what the frontier would list. The run takes
the same nodes, makes the same nodes of them, and ends in the same way.
-/

namespace GoalPlanning

namespace Search

/-! ## Searches without a frontier -/

/-- A search that does not know which nodes are still to be looked at. -/
def withoutFrontier (s : Search) : Search := { s with frontier := ∅ }

variable {p : Problem} {estimate : State → Binary64} {number : ℕ} {n : Node} {s s' : Search}

/-- What a push changes apart from the frontier does not depend on the frontier. -/
theorem withoutFrontier_push (s : Search) (m : Node) :
    (s.withoutFrontier.push m).withoutFrontier = (s.push m).withoutFrontier := rfl

/-- What reaching a node changes apart from the frontier does not depend on the frontier. -/
theorem withoutFrontier_reachThrough (s : Search) (number : ℕ) (n : Node) (a : Action)
    (action : ℕ) :
    (s.withoutFrontier.reachThrough estimate number n a action).withoutFrontier =
      (s.reachThrough estimate number n a action).withoutFrontier := by
  have hknown (before : State) (cost : Binary64) :
      s.withoutFrontier.isKnown before cost = s.isKnown before cost := rfl
  unfold reachThrough
  cases a.regress? n.residual with
  | none => rfl
  | some before =>
    dsimp only
    rw [reach, reach, hknown]
    split
    · rfl
    · exact withoutFrontier_push s _

/-- What else an expansion makes of a search does not depend on its frontier. -/
theorem withoutFrontier_expand (s : Search) (actions : List Action) (number : ℕ) (n : Node) :
    (s.withoutFrontier.expand estimate actions number n).withoutFrontier =
      (s.expand estimate actions number n).withoutFrontier := by
  have hfoldl (numbered : List (Action × ℕ)) (s : Search) :
      (numbered.foldl (fun s a => s.reachThrough estimate number n a.1 a.2)
          s.withoutFrontier).withoutFrontier =
        (numbered.foldl (fun s a => s.reachThrough estimate number n a.1 a.2)
          s).withoutFrontier := by
    induction numbered generalizing s with
    | nil => rfl
    | cons a numbered ih =>
      rw [List.foldl_cons, List.foldl_cons, ← ih, withoutFrontier_reachThrough, ih]
  exact hfoldl actions.zipIdx (s.close n)

/-! ## New entries -/

/-- The entries of the nodes from the one with the given number on. -/
def entriesFrom (s : Search) (number : ℕ) : List Entry :=
  (List.range' number (s.nodes.size - number)).filterMap fun i => s.nodes[i]?.map (·.entry i)

/-- An entry of a node from some number on. -/
theorem mem_entriesFrom {e : Entry} :
    e ∈ s.entriesFrom number ↔
      number ≤ e.node ∧ ∃ n, s.nodes[e.node]? = some n ∧ e = n.entry e.node := by
  simp only [entriesFrom, List.mem_filterMap, List.mem_range'_1, Option.map_eq_some_iff]
  constructor
  · rintro ⟨i, ⟨hle, -⟩, n, hn, rfl⟩
    exact ⟨hle, n, hn, rfl⟩
  · rintro ⟨hle, n, hn, heq⟩
    have hlt := (Array.getElem?_eq_some_iff.1 hn).1
    exact ⟨e.node, ⟨hle, by omega⟩, n, hn, heq.symm⟩

/-- No two new entries are equal. -/
theorem nodup_entriesFrom (s : Search) (number : ℕ) : (s.entriesFrom number).Nodup := by
  refine List.Nodup.filterMap (fun i j e hi hj => ?_) List.nodup_range'
  obtain ⟨m, -, rfl⟩ := Option.map_eq_some_iff.1 hi
  obtain ⟨n, -, heq⟩ := Option.map_eq_some_iff.1 hj
  exact (congrArg Entry.node heq).symm

/-- Growing keeps all nodes. -/
theorem Grows.getElem?_nodes {i : ℕ} {m : Node} (hgrows : Grows p estimate number n s s')
    (hm : s.nodes[i]? = some m) : s'.nodes[i]? = some m := by
  induction hgrows with
  | refl => exact hm
  | push _ _ _ _ ih => exact getElem?_nodes_push_of_eq_some ih _

/-- Growing adds the entries of the new nodes to the frontier. -/
theorem Grows.mem_frontier_iff {e : Entry} (hgrows : Grows p estimate number n s s') :
    e ∈ s'.frontier ↔ e ∈ s.frontier ∨ e ∈ s'.entriesFrom s.nodes.size := by
  induction hgrows with
  | refl =>
    rw [or_iff_left]
    rw [mem_entriesFrom]
    rintro ⟨hle, n, hn, -⟩
    have hlt := (Array.getElem?_eq_some_iff.1 hn).1
    omega
  | @push s' i a before hgrows _ _ _ ih =>
    generalize (⟨before, n.cost + a.cost, estimate before, some ⟨number, i⟩⟩ : Node) = m
    have hsize : s.nodes.size ≤ s'.nodes.size := by
      by_contra hlt
      have hlast := hgrows.getElem?_nodes (Array.getElem?_eq_getElem (Nat.lt_of_not_le hlt))
      have hlt' := (Array.getElem?_eq_some_iff.1 hlast).1
      omega
    rw [mem_frontier_push, ih, mem_entriesFrom, mem_entriesFrom]
    constructor
    · rintro (rfl | hold | ⟨hle, k, hk, heq⟩)
      · exact .inr ⟨hsize, m, getElem?_nodes_push_size s' m, rfl⟩
      · exact .inl hold
      · exact .inr ⟨hle, k, getElem?_nodes_push_of_eq_some hk m, heq⟩
    · rintro (hold | ⟨hle, k, hk, heq⟩)
      · exact .inr (.inl hold)
      · rcases getElem?_nodes_push hk with hk | ⟨hlast, rfl⟩
        · exact .inr (.inr ⟨hle, k, hk, heq⟩)
        · exact .inl (hlast ▸ heq)

end Search

namespace PriorityQueue

variable {σ : Type} {Q : PriorityQueue σ} {q : σ} {frontier : Frontier}
  {p : Problem} {estimate : State → Binary64}

/-! ## Adding entries -/

/-- Inserting entries one after another adds all of them. -/
theorem entries_foldl_insert (q : σ) (es : List Entry) :
    Q.entries (es.foldl Q.insert q) = (es : Multiset Entry) + Q.entries q := by
  induction es generalizing q with
  | nil => simp
  | cons e es ih =>
    rw [List.foldl_cons, ih, Q.entries_insert, Multiset.add_cons, ← Multiset.cons_coe,
      Multiset.cons_add]

/-- Entries that are new to a frontier may be added. -/
theorem Holds.foldl_insert (h : Q.Holds q frontier) {es : List Entry} (hnodup : es.Nodup)
    (hnew : ∀ e ∈ es, e ∉ frontier) {frontier' : Frontier}
    (hfrontier' : ∀ e, e ∈ frontier' ↔ e ∈ frontier ∨ e ∈ es) :
    Q.Holds (es.foldl Q.insert q) frontier' where
  nodup := by
    rw [entries_foldl_insert, Multiset.nodup_add]
    refine ⟨Multiset.coe_nodup.2 hnodup, h.nodup, Multiset.disjoint_left.2 fun hes hq => ?_⟩
    exact hnew _ hes ((h.mem_iff _).1 hq)
  mem_iff e := by
    rw [entries_foldl_insert, Multiset.mem_add, h.mem_iff, hfrontier', Multiset.mem_coe, or_comm]

/-- An expansion adds the entries of the new nodes. -/
theorem Holds.expand {s s₀ rest : Search} {e : Entry} {n : Node} (h : Q.Holds q rest.frontier)
    (htakes : s₀.Takes e n rest) (hledger : s₀.Ledger)
    (hs : s = rest.expand estimate p.actions e.node n) :
    Q.Holds ((s.entriesFrom rest.nodes.size).foldl Q.insert q) s.frontier := by
  refine h.foldl_insert (s.nodup_entriesFrom _) (fun f hf hmem => ?_) fun f => ?_
  · obtain ⟨m, hm, -⟩ := hledger.entry f ((htakes.frontier f).1 hmem).1
    have hlt := (Array.getElem?_eq_some_iff.1 hm).1
    have hle := (Search.mem_entriesFrom.1 hf).1
    rw [htakes.nodes_eq] at hle
    omega
  · rw [hs]
    exact (Search.grows_expand rest).mem_frontier_iff

/-! ## Runs -/

/-- Goes on with a search whose open nodes are kept in a queue. The search has no frontier of its
own. -/
def run (Q : PriorityQueue σ) (p : Problem) (estimate : State → Binary64) (budget : ℕ) (s : Search)
    (q : σ) : Ending × Search :=
  match Q.next s.openNode? q with
  | (none, _) => (.noPlan, s)
  | (some (number, n), q') =>
    if p.current.satisfies n.residual then (.found number, s)
    else
      match budget with
      | 0 => (.overBudget, s)
      | budget + 1 =>
        let s' := (s.expand estimate p.actions number n).withoutFrontier
        run Q p estimate budget s' ((s'.entriesFrom s.nodes.size).foldl Q.insert q')

/-- Searches for a plan with a queue, which holds the goal at first. -/
def report (Q : PriorityQueue σ) (p : Problem) (estimate : State → Binary64) (budget : ℕ) :
    Report :=
  let root : Node := ⟨p.goal, Binary64.zero, estimate p.goal, none⟩
  let (ending, final) := Q.run p estimate budget (Search.start estimate p.goal).withoutFrontier
    (Q.insert Q.empty (root.entry 0))
  ⟨p, budget, ending, final⟩

/-- If no node is taken from the frontier, then none is taken from the queue. -/
theorem Holds.exists_next_eq_none {s : Search} (h : Q.Holds q s.frontier)
    (hnext : s.next? = none) : ∃ q', Q.next s.openNode? q = (none, q') ∧ Q.Holds q' ∅ := by
  obtain ⟨hfound, hrest⟩ := h.next s.openNode?
  rw [Search.next?, Option.map_eq_none_iff] at hnext
  rw [hnext] at hfound hrest
  exact ⟨_, Prod.ext hfound rfl, hrest⟩

/-- The node that is taken from the frontier is the one that is taken from the queue. -/
theorem Holds.exists_next_eq_some {s rest : Search} {found : ℕ × Node}
    (h : Q.Holds q s.frontier) (hnext : s.next? = some (found, rest)) :
    rest.withoutFrontier = s.withoutFrontier ∧
      ∃ q', Q.next s.openNode? q = (some found, q') ∧ Q.Holds q' rest.frontier := by
  obtain ⟨hfound, hrest⟩ := h.next s.openNode?
  rw [Search.next?, Option.map_eq_some_iff] at hnext
  obtain ⟨⟨found, frontier⟩, htaken, heq⟩ := hnext
  obtain ⟨rfl, rfl⟩ := Prod.mk.inj heq
  rw [htaken] at hfound hrest
  exact ⟨rfl, _, Prod.ext hfound rfl, hrest⟩

/-- A run with a queue that holds the frontier of a search ends like that of the search. -/
theorem Holds.run_eq {s : Search} (h : Q.Holds q s.frontier) (hs : Search.Reachable p estimate s)
    (budget : ℕ) :
    Q.run p estimate budget s.withoutFrontier q =
      ((Search.run p estimate budget s).1,
        (Search.run p estimate budget s).2.withoutFrontier) := by
  have hopenNode (s : Search) : s.withoutFrontier.openNode? = s.openNode? := rfl
  fun_induction Search.run p estimate budget s generalizing q with
  | case1 budget s hnext =>
    obtain ⟨q', hqueue, -⟩ := h.exists_next_eq_none hnext
    unfold run
    simp only [hopenNode, hqueue]
  | case2 budget s number n rest hnext hcovered =>
    obtain ⟨hrest, q', hqueue, -⟩ := h.exists_next_eq_some hnext
    unfold run
    simp only [hopenNode, hqueue, if_pos hcovered, hrest]
  | case3 s number n rest hnext hcovered =>
    obtain ⟨hrest, q', hqueue, -⟩ := h.exists_next_eq_some hnext
    unfold run
    simp only [hopenNode, hqueue, if_neg hcovered, hrest]
  | case4 s number n rest hnext hcovered budget ih =>
    obtain ⟨hrest, q', hqueue, hq'⟩ := h.exists_next_eq_some hnext
    obtain ⟨e, rfl, htakes⟩ := Search.takes_of_next? hnext
    have hexpand : (s.withoutFrontier.expand estimate p.actions e.node n).withoutFrontier =
        (rest.expand estimate p.actions e.node n).withoutFrontier := by
      rw [← hrest, Search.withoutFrontier_expand]
    have hsize : s.withoutFrontier.nodes.size = rest.nodes.size :=
      congrArg Array.size htakes.nodes_eq.symm
    unfold run
    simp only [hopenNode, hqueue, if_neg hcovered, hexpand, hsize]
    exact ih (hq'.expand htakes hs.ledger rfl) (hs.expand hnext (Bool.eq_false_iff.2 hcovered))

/-- A search with a queue ends like one with a frontier, after the same expansions. -/
theorem report_eq (Q : PriorityQueue σ) (p : Problem) (estimate : State → Binary64) (budget : ℕ) :
    Q.report p estimate budget =
      { Report.ofSearch p estimate budget with
        final := (Report.ofSearch p estimate budget).final.withoutFrontier } := by
  let root : Node := ⟨p.goal, Binary64.zero, estimate p.goal, none⟩
  have hstart : Q.Holds (Q.insert Q.empty (root.entry 0)) (Search.start estimate p.goal).frontier :=
    holds_empty.insert (by simp)
  rw [report, hstart.run_eq .start]
  rfl

end PriorityQueue

end GoalPlanning
