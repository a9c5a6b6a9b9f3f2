import GoalPlanning.Search.Frontier
import Mathlib.Data.Nat.Basic

/-!
# Taking from the frontier

Taking from the frontier finds the least entry that is worth something. It removes this entry and
those before it, which are worth nothing, and leaves all later ones. That entries are ordered by
total, by cost and by number turns this into inequalities between totals and costs.
-/

namespace GoalPlanning

/-- One entry comes no later than another one if its total is less, or its cost at the same total,
or its number is no larger at the same total and cost. -/
theorem Entry.isLE_compare_iff {e f : Entry} :
    (compare e f).isLE ↔
      e.total.rank < f.total.rank ∨ (e.total.rank = f.total.rank ∧
        (e.cost.rank < f.cost.rank ∨ (e.cost.rank = f.cost.rank ∧ e.node ≤ f.node))) := by
  have hparts : compare e f = (compare e.total.rank f.total.rank).then
      ((compare e.cost.rank f.cost.rank).then (compare e.node f.node)) := rfl
  rw [hparts, Ordering.isLE_then_iff_or, Ordering.isLE_then_iff_or]
  simp only [Std.compare_eq_lt, Std.compare_eq_iff_eq, Std.isLE_compare]

namespace Frontier

variable {α : Type} {worth : Entry → Option α}

/-- The first entry is in the frontier and comes no later than any other. -/
theorem first?_eq_some_iff {frontier : Frontier} {e : Entry} :
    frontier.first? = some e ↔ e ∈ frontier ∧ ∀ f ∈ frontier, (compare e f).isLE := by
  rw [first?_eq_min?]
  exact Std.TreeSet.min?_eq_some_iff_mem_and_forall

/-- There is no first entry exactly if there is no entry at all. -/
theorem first?_eq_none_iff {frontier : Frontier} :
    frontier.first? = none ↔ ∀ e, e ∉ frontier := by
  rw [first?_eq_min?, Std.TreeSet.min?_eq_none_iff, Std.TreeSet.isEmpty_iff_forall_not_mem]

/-- Without one of its entries the frontier is smaller. -/
theorem size_erase_lt {frontier : Frontier} {e : Entry} (he : e ∈ frontier) :
    (frontier.erase e).size < frontier.size := by
  have hpos : frontier.size ≠ 0 := by
    intro hzero
    have hempty : frontier.isEmpty = true := by simp [Std.TreeSet.isEmpty_eq_size_eq_zero, hzero]
    exact Std.TreeSet.not_mem_of_isEmpty hempty he
  rw [Std.TreeSet.size_erase, if_pos (Std.TreeSet.mem_iff_contains.1 he)]
  omega

/-- Without its first entry a frontier consists of the entries after it. -/
theorem mem_erase_first_iff {frontier : Frontier} {e : Entry} (h : frontier.first? = some e)
    {f : Entry} : f ∈ frontier.erase e ↔ f ∈ frontier ∧ compare e f = .lt := by
  rw [Std.TreeSet.mem_erase, and_comm]
  apply and_congr_right
  intro hf
  have hle := (first?_eq_some_iff.1 h).2 f hf
  cases hcompare : compare e f <;> simp_all

/-- The entry `e` is the first one of a frontier that is worth something, and taking it leaves the
frontier `rest`. -/
structure FirstWorth (worth : Entry → Option α) (frontier rest : Frontier) (e : Entry) (a : α) :
    Prop where
  /-- The entry is in the frontier. -/
  mem : e ∈ frontier
  /-- This is what it is worth. -/
  worth_eq : worth e = some a
  /-- No entry that is worth something comes before it. -/
  least : ∀ f ∈ frontier, (worth f).isSome → (compare e f).isLE
  /-- The entries after it are left. -/
  mem_rest : ∀ f, f ∈ rest ↔ f ∈ frontier ∧ compare e f = .lt
  /-- The frontier gets smaller. -/
  size_lt : rest.size < frontier.size

/-- If the first entry is worth something, it is the first one that is. -/
theorem FirstWorth.of_first {frontier : Frontier} {e : Entry} {a : α}
    (hfirst : frontier.first? = some e) (hworth : worth e = some a) :
    FirstWorth worth frontier (frontier.erase e) e a := by
  obtain ⟨he, hleast⟩ := first?_eq_some_iff.1 hfirst
  exact ⟨he, hworth, fun f hf _ => hleast f hf, fun _ => mem_erase_first_iff hfirst,
    size_erase_lt he⟩

/-- If the first entry is worth nothing, it can be left out. -/
theorem FirstWorth.skip {frontier rest : Frontier} {m e : Entry} {a : α}
    (hfirst : frontier.first? = some m) (hworth : worth m = none)
    (h : FirstWorth worth (frontier.erase m) rest e a) : FirstWorth worth frontier rest e a where
  mem := (mem_erase_first_iff hfirst).1 h.mem |>.1
  worth_eq := h.worth_eq
  least f hf hsome := by
    have hne : compare m f ≠ .eq := by
      intro heq
      rw [← Std.LawfulEqCmp.eq_of_compare heq, hworth] at hsome
      cases hsome
    exact h.least f (Std.TreeSet.mem_erase.2 ⟨hne, hf⟩) hsome
  mem_rest f := by
    rw [h.mem_rest, mem_erase_first_iff hfirst]
    constructor
    · rintro ⟨⟨hf, -⟩, hlt⟩
      exact ⟨hf, hlt⟩
    · rintro ⟨hf, hlt⟩
      have hfirst_lt := ((mem_erase_first_iff hfirst).1 h.mem).2
      exact ⟨⟨hf, Std.TransCmp.lt_trans hfirst_lt hlt⟩, hlt⟩
  size_lt := Nat.lt_trans h.size_lt (size_erase_lt (first?_eq_some_iff.1 hfirst).1)

/-- Taking at most `count` entries gives what the first one is worth that is worth something. -/
theorem takeFirst?_eq_some {count : ℕ} {frontier rest : Frontier} {a : α}
    (h : takeFirst? worth count frontier = some (a, rest)) :
    ∃ e, FirstWorth worth frontier rest e a := by
  induction count generalizing frontier with
  | zero => simp [takeFirst?] at h
  | succ count ih =>
    rw [takeFirst?] at h
    cases hfirst : frontier.first? with
    | none => simp [hfirst] at h
    | some m =>
      simp only [hfirst] at h
      cases hworth : worth m with
      | some b =>
        simp only [hworth, Option.some.injEq, Prod.mk.injEq] at h
        obtain ⟨rfl, rfl⟩ := h
        exact ⟨m, .of_first hfirst hworth⟩
      | none =>
        simp only [hworth] at h
        obtain ⟨e, he⟩ := ih h
        exact ⟨e, he.skip hfirst hworth⟩

/-- Taking from the frontier gives what the first entry is worth that is worth something. -/
theorem next?_eq_some {frontier rest : Frontier} {a : α}
    (h : frontier.next? worth = some (a, rest)) : ∃ e, FirstWorth worth frontier rest e a :=
  takeFirst?_eq_some h

/-- Nothing is taken only if no entry is worth anything. -/
theorem eq_none_of_takeFirst?_eq_none {count : ℕ} {frontier : Frontier}
    (h : takeFirst? worth count frontier = none) (hsize : frontier.size ≤ count) :
    ∀ e ∈ frontier, worth e = none := by
  induction count generalizing frontier with
  | zero =>
    have hempty : frontier.isEmpty = true := by
      rw [Std.TreeSet.isEmpty_eq_size_eq_zero]
      simpa using hsize
    exact fun e he => absurd he (Std.TreeSet.not_mem_of_isEmpty hempty)
  | succ count ih =>
    rw [takeFirst?] at h
    cases hfirst : frontier.first? with
    | none => exact fun e he => absurd he (first?_eq_none_iff.1 hfirst e)
    | some m =>
      simp only [hfirst] at h
      cases hworth : worth m with
      | some b => simp [hworth] at h
      | none =>
        simp only [hworth] at h
        have hlt := size_erase_lt (first?_eq_some_iff.1 hfirst).1
        have herase := ih h (by omega)
        intro e he
        by_cases heq : compare m e = .eq
        · rw [← Std.LawfulEqCmp.eq_of_compare heq, hworth]
        · exact herase e (Std.TreeSet.mem_erase.2 ⟨heq, he⟩)

/-- Nothing is taken from the frontier exactly if no entry is worth anything. -/
theorem next?_eq_none_iff {frontier : Frontier} :
    frontier.next? worth = none ↔ ∀ e ∈ frontier, worth e = none := by
  constructor
  · intro h
    exact eq_none_of_takeFirst?_eq_none h le_rfl
  · intro h
    cases hnext : frontier.next? worth with
    | none => rfl
    | some found =>
      obtain ⟨e, he⟩ := next?_eq_some hnext
      have hworth := he.worth_eq
      simp [h e he.mem] at hworth

/-- If the first entry is worth something, then nothing else is taken. -/
theorem next?_of_worth_eq_some {frontier : Frontier} {e : Entry} {a : α}
    (hfirst : frontier.first? = some e) (hworth : worth e = some a) :
    frontier.next? worth = some (a, frontier.erase e) := by
  have hlt := size_erase_lt (first?_eq_some_iff.1 hfirst).1
  obtain ⟨count, hcount⟩ := Nat.exists_eq_succ_of_ne_zero (by omega : frontier.size ≠ 0)
  simp only [next?, hcount, Nat.succ_eq_add_one, takeFirst?, hfirst, hworth]

/-- If the first entry is worth nothing, then the search goes on without it. -/
theorem next?_of_worth_eq_none {frontier : Frontier} {e : Entry}
    (hfirst : frontier.first? = some e) (hworth : worth e = none) :
    frontier.next? worth = next? (frontier.erase e) worth := by
  have he := (first?_eq_some_iff.1 hfirst).1
  have hlt := size_erase_lt he
  have hsize : (frontier.erase e).size = frontier.size - 1 := by
    rw [Std.TreeSet.size_erase, if_pos (Std.TreeSet.mem_iff_contains.1 he)]
  obtain ⟨count, hcount⟩ := Nat.exists_eq_succ_of_ne_zero (by omega : frontier.size ≠ 0)
  rw [next?, hcount, Nat.succ_eq_add_one, takeFirst?, hfirst]
  simp only [hworth]
  rw [next?, hsize, hcount, Nat.succ_sub_one]

end Frontier

end GoalPlanning
