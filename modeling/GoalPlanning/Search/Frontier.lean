import GoalPlanning.Binary64.Basic
import Std.Data.TreeSet

/-!
# The frontier of a search

The frontier holds the nodes that are still to be looked at, the most promising one first: the
one with the least total of cost and estimate, of those the one with the least cost, of those the
one that was made first. No two entries of one search agree in all three, so which entry comes
next never depends on how the frontier is stored. Entries that have become stale stay in the
frontier until it is their turn and are passed over then.
-/

namespace GoalPlanning

/-- A node in the frontier. -/
structure Entry where
  /-- Cost and estimate of the node together. -/
  total : Binary64
  /-- The cost from the node to the goal. -/
  cost : Binary64
  /-- The number of the node. Later nodes have larger numbers. -/
  node : Nat
  deriving DecidableEq

namespace Entry

/-- Entries are ordered by total, then by cost, both in the total order of numbers, and last by
the number of the node. -/
instance : Ord Entry :=
  ⟨compareLex (compareOn total) (compareLex (compareOn cost) (compareOn node))⟩

instance : Std.TransOrd Entry :=
  inferInstanceAs (Std.TransCmp
    (compareLex (compareOn total) (compareLex (compareOn cost) (compareOn node))))

instance : Std.LawfulEqOrd Entry where
  eq_of_compare {e f} h := by
    have hparts : compareLex (compareOn total)
        (compareLex (compareOn cost) (compareOn node)) e f = .eq := h
    simp only [compareLex_eq_eq, compareOn, Std.compare_eq_iff_eq] at hparts
    obtain ⟨htotal, hcost, hnode⟩ := hparts
    cases e
    cases f
    simp_all

end Entry

/-- The entries still to be looked at, in their order. -/
abbrev Frontier := Std.TreeSet Entry

namespace Frontier

/-- The first entry. Going through the entries in their order stops at once. -/
def first? (frontier : Frontier) : Option Entry :=
  Id.run (forIn frontier none fun e _ => pure (.done (some e)))

/-- The first entry is the least one. -/
theorem first?_eq_min? (frontier : Frontier) : frontier.first? = frontier.min? := by
  rw [first?, Std.TreeSet.min?_eq_head?_toList, Std.TreeSet.forIn_eq_forIn_toList]
  cases frontier.toList <;> rfl

/-- Takes at most `count` entries, least first, until one is worth something. -/
def takeFirst? {α : Type} (worth : Entry → Option α) : Nat → Frontier → Option (α × Frontier)
  | 0, _ => none
  | count + 1, frontier =>
    match frontier.first? with
    | none => none
    | some e =>
      match worth e with
      | some a => some (a, frontier.erase e)
      | none => takeFirst? worth count (frontier.erase e)

/-- What the first entry that is worth something is worth, with the frontier without this entry
and those before it. There is nothing if no entry is worth anything. -/
def next? {α : Type} (frontier : Frontier) (worth : Entry → Option α) :
    Option (α × Frontier) :=
  takeFirst? worth frontier.size frontier

end Frontier

end GoalPlanning
