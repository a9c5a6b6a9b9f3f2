import GoalPlanning.State.Basic

/-!
# An order on states

Searching keeps tables whose keys are states. States are compared fact by fact, facts by key and
then by value. The order is total and two states compare as equal only if they are equal, which
is all that the tables need.
-/

namespace GoalPlanning

namespace State

/-- Facts are ordered by key, then by value. -/
def factOrder : Fact → Fact → Ordering := compareLex (compareOn Prod.fst) (compareOn Prod.snd)

instance : Std.TransCmp factOrder :=
  inferInstanceAs (Std.TransCmp (compareLex (compareOn Prod.fst) (compareOn Prod.snd)))

instance : Std.LawfulEqCmp factOrder where
  eq_of_compare {e f} h := by
    simp only [factOrder, compareLex_eq_eq, compareOn, Std.compare_eq_iff_eq] at h
    exact Prod.ext h.1 h.2

/-- The lexicographic order of the facts. -/
def order (s t : State) : Ordering := List.compareLex factOrder s.entries t.entries

instance : Ord State := ⟨order⟩

instance : Std.TransOrd State where
  eq_swap {s t} := Std.OrientedCmp.eq_swap (a := s.entries) (b := t.entries)
  isLE_trans {s t u} := Std.TransCmp.isLE_trans (a := s.entries) (b := t.entries) (c := u.entries)

instance : Std.LawfulEqOrd State where
  compare_self {s} := Std.ReflCmp.compare_self (a := s.entries)
  eq_of_compare {s t} h := by
    have hentries : s.entries = t.entries := Std.LawfulEqCmp.eq_of_compare (a := s.entries) h
    cases s
    cases t
    exact (State.mk.injEq ..).mpr hentries

end State

end GoalPlanning
