import GoalPlanning.Proofs.PlanCost
import GoalPlanning.Proofs.Search.Reachable

/-!
# The nodes of a search

Every node but the root is made by regressing the residual goal of an earlier node through an
action, and costs this action more. Following the origins of a node therefore ends at the root and
lists actions in the order in which they are performed. The residual goal of a node is exactly
what must hold for these actions to reach the goal, and its cost is what they cost together.
-/

namespace GoalPlanning

/-- Where the node number `i` comes from: it is the root, or made from an earlier node. -/
inductive Node.Derived (p : Problem) (nodes : Array Node) : ℕ → Node → Prop
  /-- The root is the goal, at no cost. -/
  | root {n : Node} : n.origin = none → n.residual = p.goal → n.cost = Binary64.zero →
      Derived p nodes 0 n
  /-- Another node is made by regression through an action. -/
  | child {i : ℕ} {n parent : Node} {o : Origin} {a : Action} : n.origin = some o →
      o.parent < i → nodes[o.parent]? = some parent → p.actions[o.action]? = some a →
      a.regress? parent.residual = some n.residual → n.cost = parent.cost + a.cost →
      Derived p nodes i n

/-- A node stays derived when a node is added. -/
theorem Node.Derived.push {p : Problem} {nodes : Array Node} {i : ℕ} {n : Node}
    (h : Node.Derived p nodes i n) (m : Node) : Node.Derived p (nodes.push m) i n := by
  cases h with
  | root horigin hresidual hcost => exact .root horigin hresidual hcost
  | child horigin hlt hparent haction hregress hcost =>
    refine .child horigin hlt ?_ haction hregress hcost
    rw [Array.getElem?_push_lt (Array.getElem?_eq_some_iff.1 hparent).1]
    exact congrArg some (Array.getElem?_eq_some_iff.1 hparent).2

/-- The nodes of a search form a tree, and their estimates are those of their residual goals. -/
structure Arena (p : Problem) (estimate : State → Binary64) (nodes : Array Node) : Prop where
  /-- Every node comes from the root. -/
  derived : ∀ (i : ℕ) (n : Node), nodes[i]? = some n → Node.Derived p nodes i n
  /-- The estimate of a node is that of its residual goal. -/
  estimate_eq : ∀ (i : ℕ) (n : Node), nodes[i]? = some n → n.estimate = estimate n.residual

/-- A residual goal that only asks for facts of the vocabulary. -/
def Problem.Mentions (p : Problem) (residual : State) : Prop :=
  ∀ e ∈ residual.entries, e ∈ p.vocabulary

/-- The goal asks for facts of the vocabulary alone. -/
theorem Problem.mentions_goal (p : Problem) : p.Mentions p.goal :=
  fun _ he => List.mem_append_left _ he

/-- Regression through an action asks for nothing but facts of the vocabulary. -/
theorem Problem.Mentions.regress? {p : Problem} {a : Action} {residual before : State}
    (h : p.Mentions residual) (ha : a ∈ p.actions) (hregress : a.regress? residual = some before) :
    p.Mentions before := by
  intro e he
  rcases Action.mem_of_regress?_eq_some hregress he with he | he
  · exact h e he
  · exact List.mem_append_right _ (List.mem_flatMap.2 ⟨a, ha, he⟩)

/-- The actions from a node to the goal, in the order in which they are performed. -/
def actionsFrom (p : Problem) (nodes : Array Node) (node : ℕ) : List Action :=
  (Node.path nodes node).filterMap fun i => p.actions[i]?

namespace Arena

variable {p : Problem} {estimate : State → Binary64} {nodes : Array Node} {i : ℕ} {n : Node}

/-- A derived node with the right estimate can be added. -/
theorem push (h : Arena p estimate nodes) {m : Node}
    (hderived : Node.Derived p nodes nodes.size m) (hestimate : m.estimate = estimate m.residual) :
    Arena p estimate (nodes.push m) := by
  have hcases {i : ℕ} {n : Node} (hn : (nodes.push m)[i]? = some n) :
      nodes[i]? = some n ∨ (i = nodes.size ∧ n = m) := by
    rw [Array.getElem?_push] at hn
    split at hn
    case isTrue hlast => exact Or.inr ⟨hlast, (Option.some.inj hn).symm⟩
    case isFalse => exact Or.inl hn
  constructor
  · intro i n hn
    rcases hcases hn with hold | ⟨rfl, rfl⟩
    · exact (h.derived i n hold).push m
    · exact hderived.push n
  · intro i n hn
    rcases hcases hn with hold | ⟨-, rfl⟩
    · exact h.estimate_eq i n hold
    · exact hestimate

/-- A node with an origin is made from an earlier node through the action that the origin names. -/
theorem exists_parent (h : Arena p estimate nodes) {o : Origin} (hn : nodes[i]? = some n)
    (horigin : n.origin = some o) :
    ∃ parent a, o.parent < i ∧ nodes[o.parent]? = some parent ∧ p.actions[o.action]? = some a ∧
      a.regress? parent.residual = some n.residual ∧ n.cost = parent.cost + a.cost := by
  cases h.derived i n hn with
  | root hroot => simp [hroot] at horigin
  | child hchild hlt hparent haction hregress hcost =>
    obtain rfl := Option.some.inj (hchild.symm.trans horigin)
    exact ⟨_, _, hlt, hparent, haction, hregress, hcost⟩

/-- A node with an origin is made from its parent through an action. -/
theorem exists_action (h : Arena p estimate nodes) {o : Origin} {parent : Node}
    (hn : nodes[i]? = some n) (horigin : n.origin = some o)
    (hparent : nodes[o.parent]? = some parent) :
    ∃ a ∈ p.actions, a.regress? parent.residual = some n.residual ∧
      n.cost = parent.cost + a.cost := by
  obtain ⟨parent', a, -, hparent', haction, hregress, hcost⟩ := h.exists_parent hn horigin
  obtain rfl := Option.some.inj (hparent'.symm.trans hparent)
  exact ⟨a, List.mem_of_getElem? haction, hregress, hcost⟩

/-! ## Following origins -/

/-- More steps than the number of a node do not lengthen the walk from it. -/
theorem walk_eq (h : Arena p estimate nodes) {steps : ℕ} (hle : i ≤ steps) :
    Node.walk nodes steps i = Node.path nodes i := by
  unfold Node.path
  induction i using Nat.strong_induction_on generalizing steps with
  | h i ih =>
    have hzero {steps : ℕ} (hnone : nodes[i]?.bind Node.origin = none) :
        Node.walk nodes steps i = [] := by
      cases steps <;> simp [Node.walk, hnone]
    have hsucc {steps : ℕ} {o : Origin} (hpos : 0 < steps)
        (hsome : nodes[i]?.bind Node.origin = some o) :
        Node.walk nodes steps i = o.action :: Node.walk nodes (steps - 1) o.parent := by
      obtain ⟨steps, rfl⟩ := Nat.exists_eq_succ_of_ne_zero hpos.ne'
      simp [Node.walk, hsome]
    cases horigin : nodes[i]?.bind Node.origin with
    | none => rw [hzero horigin, hzero horigin]
    | some o =>
      obtain ⟨n, hn, ho⟩ := Option.bind_eq_some_iff.1 horigin
      cases h.derived i n hn with
      | root hroot => simp [hroot] at ho
      | child hchild hlt =>
        rw [hchild, Option.some.injEq] at ho
        rw [ho] at hlt
        rw [hsucc (by omega) horigin, hsucc (by omega) horigin,
          ih _ hlt (show o.parent ≤ steps - 1 by omega), ih _ hlt (show o.parent ≤ i - 1 by omega)]

/-- The path from a node that is no root starts with its action and goes on from its parent. -/
theorem path_eq_cons (h : Arena p estimate nodes) {o : Origin} (hn : nodes[i]? = some n)
    (horigin : n.origin = some o) (hlt : o.parent < i) :
    Node.path nodes i = o.action :: Node.path nodes o.parent := by
  obtain ⟨k, rfl⟩ := Nat.exists_eq_succ_of_ne_zero (by omega : i ≠ 0)
  rw [Node.path, Node.walk, hn, Option.bind_some, horigin]
  exact congrArg (List.cons o.action) (h.walk_eq (Nat.le_of_lt_succ hlt))

/-- What holds of the goal without any action, and is kept when an action is put in front by
regression, holds of every node and the actions from it to the goal. -/
theorem induction (h : Arena p estimate nodes) {P : State → Binary64 → List Action → Prop}
    (hgoal : P p.goal Binary64.zero [])
    (hregress : ∀ residual before cost run a, P residual cost run → a ∈ p.actions →
      a.regress? residual = some before → P before (cost + a.cost) (a :: run))
    (hn : nodes[i]? = some n) : P n.residual n.cost (actionsFrom p nodes i) := by
  induction i using Nat.strong_induction_on generalizing n with
  | h i ih =>
    cases h.derived i n hn with
    | root horigin hresidual hcost =>
      rw [hresidual, hcost]
      exact hgoal
    | child horigin hlt hparent haction hregressed hcost =>
      rw [actionsFrom, h.path_eq_cons hn horigin hlt, List.filterMap_cons, haction, hcost]
      exact hregress _ _ _ _ _ (ih _ hlt hparent) (List.mem_of_getElem? haction) hregressed

/-- The cost of a node is what the actions from it to the goal cost together. -/
theorem cost_eq (h : Arena p estimate nodes) (hn : nodes[i]? = some n) :
    n.cost = summedCost (actionsFrom p nodes i) := by
  refine h.induction (P := fun _ cost run => cost = summedCost run) rfl ?_ hn
  rintro residual before cost run a rfl - -
  rfl

/-- All costs of nodes are unsigned. -/
theorem cost_isUnsigned (h : Arena p estimate nodes) (hn : nodes[i]? = some n) :
    n.cost.IsUnsigned :=
  h.cost_eq hn ▸ summedCost_isUnsigned _

/-- A node costs no less than the one that it was made from. -/
theorem magnitude_parent_le (h : Arena p estimate nodes) {o : Origin} {parent : Node}
    (hn : nodes[i]? = some n) (horigin : n.origin = some o)
    (hparent : nodes[o.parent]? = some parent) : parent.cost.magnitude ≤ n.cost.magnitude := by
  obtain ⟨a, -, -, hcost⟩ := h.exists_action hn horigin hparent
  rw [hcost]
  exact (h.cost_isUnsigned hparent).magnitude_le_add a.cost_isNonneg

/-- The path of a node consists of actions of the problem. -/
theorem mem_actions (h : Arena p estimate nodes) (hn : nodes[i]? = some n) :
    ∀ a ∈ actionsFrom p nodes i, a ∈ p.actions := by
  refine h.induction (P := fun _ _ run => ∀ a ∈ run, a ∈ p.actions) (by simp) ?_ hn
  intro residual before cost run a hrun ha _
  exact List.forall_mem_cons.2 ⟨ha, hrun⟩

/-- Every number on the path of a node is that of an action. -/
theorem map_path (h : Arena p estimate nodes) (hn : nodes[i]? = some n) :
    (Node.path nodes i).map (fun k => p.actions[k]?) = (actionsFrom p nodes i).map some := by
  induction i using Nat.strong_induction_on generalizing n with
  | h i ih =>
    cases h.derived i n hn with
    | root horigin hresidual hcost => rfl
    | child horigin hlt hparent haction hregressed hcost =>
      rw [actionsFrom, h.path_eq_cons hn horigin hlt, List.map_cons, ih _ hlt hparent,
        List.filterMap_cons, haction]
      rfl

/-- The residual goals of nodes only ask for facts of the vocabulary. -/
theorem mentions (h : Arena p estimate nodes) (hn : nodes[i]? = some n) :
    p.Mentions n.residual := by
  refine h.induction (P := fun residual _ _ => p.Mentions residual) p.mentions_goal ?_ hn
  intro residual before cost run a hresidual ha hregress
  exact hresidual.regress? ha hregress

/-- With estimates that are at least zero, all totals of nodes are unsigned. -/
theorem total_isUnsigned (h : Arena p estimate nodes)
    (hnonneg : ∀ residual, p.Mentions residual → (estimate residual).IsNonneg)
    (hn : nodes[i]? = some n) : n.total.IsUnsigned := by
  rw [Node.total, h.estimate_eq i n hn]
  exact (h.cost_isUnsigned hn).add (hnonneg _ (h.mentions hn))

/-- The residual goal of a node is exactly the condition under which the actions from it reach
the goal. -/
theorem satisfies_iff (h : Arena p estimate nodes) (hn : nodes[i]? = some n) (start : State) :
    start.satisfies n.residual = true ↔
      ∃ t, simulate (actionsFrom p nodes i) start p.goal = .ok t := by
  refine h.induction (P := fun residual _ run => ∀ start : State,
    start.satisfies residual = true ↔ ∃ t, simulate run start p.goal = .ok t) ?_ ?_ hn start
  · intro start
    simp [simulate_eq_ok_iff, perform]
  · intro residual before cost run a hrun _ hregress start
    simp only [Action.satisfies_regress?_iff hregress, hrun, simulate_eq_ok_iff,
      perform_cons_eq_ok_iff, and_assoc, exists_and_left]

end Arena

/-! ## The nodes of a run -/

namespace Search

variable {p : Problem} {estimate : State → Binary64} {number : ℕ} {n : Node}

/-- Growing keeps the tree: each push hangs a node below the one that is expanded. -/
theorem Grows.arena {s s' : Search} (hgrows : Grows p estimate number n s s')
    (h : Arena p estimate s.nodes) (hn : s.nodes[number]? = some n) :
    Arena p estimate s'.nodes ∧ s'.nodes[number]? = some n := by
  induction hgrows with
  | refl => exact ⟨h, hn⟩
  | push _ ha hregress _ ih =>
    obtain ⟨harena, hnode⟩ := ih
    constructor
    · apply harena.push _ rfl
      exact .child rfl (Array.getElem?_eq_some_iff.1 hnode).1 hnode ha hregress rfl
    · exact getElem?_nodes_push_of_eq_some hnode _

/-- Taking a node and closing it keeps the tree. -/
theorem Takes.arena_close {s rest : Search} {e : Entry} (htakes : s.Takes e n rest)
    (h : Arena p estimate s.nodes) : Arena p estimate (rest.close n).nodes :=
  htakes.nodes_close ▸ h

/-- The nodes of every search that a run goes through form a tree. -/
theorem Reachable.arena {s : Search} (h : Reachable p estimate s) : Arena p estimate s.nodes := by
  refine h.invariant (P := fun s => Arena p estimate s.nodes) ?_ ?_
  · have hempty : Arena p estimate #[] := ⟨by simp, by simp⟩
    exact hempty.push (.root rfl rfl rfl) rfl
  · intro s e n rest _ htakes _ harena
    exact ((grows_expand rest).arena (htakes.arena_close harena) htakes.node_close).1

end Search

end GoalPlanning
