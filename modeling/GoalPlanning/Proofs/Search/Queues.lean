import GoalPlanning.Proofs.Search.FrontierOrder
import Mathlib.Data.Multiset.AddSub
import Mathlib.Order.Defs.Unbundled

/-!
# Priority queues of entries

A frontier lists its entries in their order. A priority queue may keep them in any arrangement; all
that is known of it is that what it hands out comes no later than what it keeps. If two entries
tied, then the arrangement would decide between them. But the order of entries is total, and no two
different ones tie, so every queue that holds the entries of a frontier hands them out one by one
as the frontier lists them.
-/

namespace GoalPlanning

/-! ## The order of entries -/

namespace Entry

/-- One entry comes before another one if its total is less, or its cost at the same total, or its
number at the same total and cost. Totals and costs are compared in the total order of numbers. -/
def Before (e f : Entry) : Prop :=
  e.total.rank < f.total.rank ∨ (e.total.rank = f.total.rank ∧
    (e.cost.rank < f.cost.rank ∨ (e.cost.rank = f.cost.rank ∧ e.node < f.node)))

/-- Comparing entries says whether one comes before the other. -/
theorem compare_eq_lt_iff {e f : Entry} : compare e f = .lt ↔ e.Before f := by
  have hparts : compare e f = (compare e.total.rank f.total.rank).then
      ((compare e.cost.rank f.cost.rank).then (compare e.node f.node)) := rfl
  rw [hparts, Ordering.then_eq_lt, Ordering.then_eq_lt]
  simp only [Std.compare_eq_lt, Std.compare_eq_iff_eq, Before]

/-- An entry that comes before another one is at most as large. -/
theorem Before.isLE {e f : Entry} (h : e.Before f) : (compare e f).isLE := by
  rw [compare_eq_lt_iff.2 h]
  rfl

/-- Of two different entries the one that comes no later comes before. -/
theorem before_of_isLE {e f : Entry} (hle : (compare e f).isLE) (hne : f ≠ e) : e.Before f := by
  rw [← compare_eq_lt_iff]
  rcases Ordering.isLE_iff_eq_lt_or_eq_eq.1 hle with hlt | heq
  · exact hlt
  · exact absurd (Std.LawfulEqCmp.eq_of_compare heq).symm hne

/-- What comes before an entry does not come after it. -/
theorem Before.not_isLE {e f : Entry} (h : e.Before f) : ¬(compare f e).isLE := by
  have hlt := compare_eq_lt_iff.2 h
  rw [Std.OrientedCmp.gt_of_lt hlt]
  decide

/-- Any two entries can be compared. -/
theorem isLE_or_isLE (e f : Entry) : (compare e f).isLE ∨ (compare f e).isLE := by
  have hswap : compare f e = (compare e f).swap := Std.OrientedCmp.eq_swap
  rw [hswap]
  cases compare e f <;> simp

/-- The order of entries is total, whatever their numbers are. -/
theorem isLinearOrder_compare : IsLinearOrder Entry fun e f => (compare e f).isLE = true where
  refl _ := Std.ReflCmp.isLE_rfl
  trans _ _ _ := Std.TransCmp.isLE_trans
  antisymm _ _ hef hfe := Std.LawfulEqCmp.eq_of_compare (Std.OrientedCmp.isLE_antisymm hef hfe)
  total := isLE_or_isLE

/-- The entry of two that comes first. -/
def first (e f : Entry) : Entry := if (compare e f).isLE then e else f

/-- The first of two entries is one of them, and at most as large as both. -/
theorem first_spec (e f : Entry) :
    (first e f = e ∨ first e f = f) ∧ (compare (first e f) e).isLE ∧
      (compare (first e f) f).isLE := by
  unfold first
  split
  case isTrue hle => exact ⟨Or.inl rfl, Std.ReflCmp.isLE_rfl, hle⟩
  case isFalse hgt =>
    exact ⟨Or.inr rfl, (isLE_or_isLE e f).resolve_left hgt, Std.ReflCmp.isLE_rfl⟩

/-- Going through a list finds one of its entries that comes no later than all others. -/
theorem foldl_first_spec (q : List Entry) (e : Entry) :
    q.foldl first e ∈ e :: q ∧ ∀ f ∈ e :: q, (compare (q.foldl first e) f).isLE := by
  induction q generalizing e with
  | nil => simp
  | cons d q ih =>
    obtain ⟨hmem, hleast⟩ := ih (first e d)
    obtain ⟨hfirst, hle, hle'⟩ := first_spec e d
    rw [List.forall_mem_cons] at hleast
    rw [List.foldl_cons]
    constructor
    · rcases List.mem_cons.1 hmem with heq | hmem
      · rw [heq, List.mem_cons, List.mem_cons]
        exact hfirst.imp_right Or.inl
      · exact List.mem_cons_of_mem e (List.mem_cons_of_mem d hmem)
    · refine List.forall_mem_cons.2 ⟨Std.TransCmp.isLE_trans hleast.1 hle, ?_⟩
      exact List.forall_mem_cons.2 ⟨Std.TransCmp.isLE_trans hleast.1 hle', hleast.2⟩

end Entry

/-! ## Queues -/

/-- A way of keeping entries such that one that comes no later than all others can always be had.
How they are arranged, and which one of several such entries is handed out, is left open. -/
structure PriorityQueue (σ : Type) where
  /-- The entries that are kept. -/
  entries : σ → Multiset Entry
  /-- A queue without entries. -/
  empty : σ
  /-- Adds an entry. -/
  insert : σ → Entry → σ
  /-- Hands out an entry. -/
  pop? : σ → Option (Entry × σ)
  /-- The queue without entries keeps none. -/
  entries_empty : entries empty = 0
  /-- An entry that is added is kept once more. -/
  entries_insert (q : σ) (e : Entry) : entries (insert q e) = e ::ₘ entries q
  /-- Nothing is handed out only if nothing is kept. -/
  entries_eq_zero {q : σ} : pop? q = none → entries q = 0
  /-- What is handed out is not kept any more. -/
  entries_eq_cons {q q' : σ} {e : Entry} : pop? q = some (e, q') → entries q = e ::ₘ entries q'
  /-- What is handed out comes no later than what is kept. -/
  isLE_compare {q q' : σ} {e : Entry} :
    pop? q = some (e, q') → ∀ f ∈ entries q', (compare e f).isLE

namespace PriorityQueue

/-- The simplest queue is a list that is looked through for its least entry. -/
def unsorted : PriorityQueue (List Entry) where
  entries q := q
  empty := []
  insert q e := e :: q
  pop?
    | [] => none
    | e :: q => some (q.foldl Entry.first e, (e :: q).erase (q.foldl Entry.first e))
  entries_empty := rfl
  entries_insert _ _ := rfl
  entries_eq_zero {q} h := by
    cases q with
    | nil => rfl
    | cons e q => cases h
  entries_eq_cons {q _ _} h := by
    cases q with
    | nil => cases h
    | cons e q =>
      obtain ⟨rfl, rfl⟩ := Prod.mk.inj (Option.some.inj h)
      exact Multiset.coe_eq_coe.2 (List.perm_cons_erase (Entry.foldl_first_spec q e).1)
  isLE_compare {q _ _} h f hf := by
    cases q with
    | nil => cases h
    | cons e q =>
      obtain ⟨rfl, rfl⟩ := Prod.mk.inj (Option.some.inj h)
      exact (Entry.foldl_first_spec q e).2 f (List.mem_of_mem_erase (Multiset.mem_coe.1 hf))

variable {σ : Type} (Q : PriorityQueue σ) {α : Type}

/-- Takes entries out until one is worth something, and says what it is worth and which queue is
left. -/
def next (worth : Entry → Option α) (q : σ) : Option α × σ :=
  match _hpop : Q.pop? q with
  | none => (none, q)
  | some (e, q') =>
    match worth e with
    | some a => (some a, q')
    | none => next worth q'
termination_by (Q.entries q).card
decreasing_by
  rw [Q.entries_eq_cons _hpop, Multiset.card_cons]
  exact Nat.lt_succ_self _

/-- A queue holds the entries of a frontier, each of them once. -/
structure Holds (q : σ) (frontier : Frontier) : Prop where
  /-- No entry is kept twice. -/
  nodup : (Q.entries q).Nodup
  /-- The same entries are kept. -/
  mem_iff : ∀ e, e ∈ Q.entries q ↔ e ∈ frontier

variable {Q} {q q' : σ} {frontier : Frontier} {e : Entry}

/-- An empty queue holds nothing. -/
theorem holds_empty : Q.Holds Q.empty ∅ := by
  constructor <;> simp [Q.entries_empty]

/-- An entry that is new to the frontier may be added. -/
theorem Holds.insert (h : Q.Holds q frontier) (he : e ∉ frontier) :
    Q.Holds (Q.insert q e) (frontier.insert e) where
  nodup := by
    rw [Q.entries_insert, Multiset.nodup_cons, h.mem_iff]
    exact ⟨he, h.nodup⟩
  mem_iff f := by
    rw [Q.entries_insert, Multiset.mem_cons, h.mem_iff, Std.TreeSet.mem_insert,
      Std.compare_eq_iff_eq, eq_comm]

/-- Nothing is handed out only for a frontier without entries. -/
theorem Holds.not_mem_of_pop?_eq_none (h : Q.Holds q frontier) (hpop : Q.pop? q = none) :
    ∀ e, e ∉ frontier := by
  intro e he
  rw [← h.mem_iff, Q.entries_eq_zero hpop] at he
  exact Multiset.notMem_zero e he

/-- What is handed out is the first entry of the frontier, and the others are kept. -/
theorem Holds.of_pop? (h : Q.Holds q frontier) (hpop : Q.pop? q = some (e, q')) :
    frontier.first? = some e ∧ Q.Holds q' (frontier.erase e) := by
  have hentries := Q.entries_eq_cons hpop
  have hnodup := h.nodup
  rw [hentries, Multiset.nodup_cons] at hnodup
  have hmem (f : Entry) : f ∈ frontier ↔ f = e ∨ f ∈ Q.entries q' := by
    rw [← h.mem_iff, hentries, Multiset.mem_cons]
  refine ⟨Frontier.first?_eq_some_iff.2 ⟨(hmem e).2 (.inl rfl), fun f hf => ?_⟩, hnodup.2, ?_⟩
  · rcases (hmem f).1 hf with rfl | hf
    · exact Std.ReflCmp.isLE_rfl
    · exact Q.isLE_compare hpop f hf
  · intro f
    rw [Std.TreeSet.mem_erase, hmem, ne_eq, Std.compare_eq_iff_eq]
    constructor
    · intro hf
      exact ⟨fun heq => hnodup.1 (heq ▸ hf), .inr hf⟩
    · rintro ⟨hne, rfl | hf⟩
      · exact absurd rfl hne
      · exact hf

/-- A queue gives what the frontier gives, and then holds the entries that the frontier is left
with. If nothing is given, then all entries have been taken out. -/
theorem Holds.next (h : Q.Holds q frontier) (worth : Entry → Option α) :
    (Q.next worth q).1 = (frontier.next? worth).map Prod.fst ∧
      Q.Holds (Q.next worth q).2 (((frontier.next? worth).map Prod.snd).getD ∅) := by
  fun_induction Q.next worth q generalizing frontier with
  | case1 q hpop =>
    have hempty := h.not_mem_of_pop?_eq_none hpop
    have hnone : frontier.next? worth = none :=
      Frontier.next?_eq_none_iff.2 fun e he => absurd he (hempty e)
    rw [hnone]
    exact ⟨rfl, h.nodup, fun e => by simp [h.mem_iff, hempty]⟩
  | case2 q e q' hpop a hworth =>
    obtain ⟨hfirst, hrest⟩ := h.of_pop? hpop
    rw [Frontier.next?_of_worth_eq_some hfirst hworth]
    exact ⟨rfl, hrest⟩
  | case3 q e q' hpop hworth ih =>
    obtain ⟨hfirst, hrest⟩ := h.of_pop? hpop
    rw [Frontier.next?_of_worth_eq_none hfirst hworth]
    exact ih hrest

end PriorityQueue

end GoalPlanning
