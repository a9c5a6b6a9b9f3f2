import GoalPlanning.State.Basic

/-!
# States as partial maps

Every operation on states is described by what it does to the values that keys have. After
these lemmas nothing needs to look at the list of facts: a state is known by `State.get?` alone
(`State.ext_get?`), and a state satisfies another one if it agrees with it wherever the other one
has a value (`State.satisfies_iff`).
-/

namespace GoalPlanning.State

private theorem lookup_cons_fact (key : String) (e : Fact) (es : List Fact) :
    List.lookup key (e :: es) = if key = e.1 then some e.2 else es.lookup key := by
  rw [List.lookup_cons]
  by_cases h : key = e.1
  · simp [h]
  · rw [beq_false_of_ne h, if_neg h]

/-- Among facts with different keys, a fact is listed exactly if it is what looking up its key
gives. -/
private theorem lookup_eq_some_iff {facts : List Fact}
    (hdistinct : facts.Pairwise fun e f => e.1 ≠ f.1) {e : Fact} :
    facts.lookup e.1 = some e.2 ↔ e ∈ facts := by
  induction facts with
  | nil => simp
  | cons f facts ih =>
    obtain ⟨hf, hfacts⟩ := List.pairwise_cons.1 hdistinct
    rw [lookup_cons_fact, List.mem_cons, ← ih hfacts]
    by_cases hkey : e.1 = f.1
    · have hnone : facts.lookup e.1 ≠ some e.2 := fun h => hf e ((ih hfacts).1 h) hkey.symm
      rw [if_pos hkey, or_iff_left hnone, Option.some.injEq]
      exact ⟨fun h => Prod.ext hkey h.symm, fun h => congrArg Prod.snd h.symm⟩
    · have hne : e ≠ f := fun h => hkey (congrArg Prod.fst h)
      rw [if_neg hkey, or_iff_right hne]

/-- The keys of a state are all different. -/
theorem entries_distinct (s : State) : s.entries.Pairwise fun e f => e.1 ≠ f.1 := by
  refine s.ordered.imp fun {e f} hlt heq => ?_
  exact String.lt_irrefl f.1 (heq ▸ hlt)

/-- A fact is listed exactly if it is what looking up its key gives. -/
theorem mem_entries_iff {s : State} {e : Fact} : e ∈ s.entries ↔ s.get? e.1 = some e.2 :=
  (lookup_eq_some_iff s.entries_distinct).symm

/-- States that give every key the same value are equal. -/
theorem ext_get? {s t : State} (h : ∀ key, s.get? key = t.get? key) : s = t := by
  have hmem (e : Fact) : e ∈ s.entries ↔ e ∈ t.entries := by
    rw [mem_entries_iff, mem_entries_iff, h]
  obtain ⟨es, hes⟩ := s
  obtain ⟨fs, hfs⟩ := t
  simp only at hmem
  suffices es = fs by simp only [this]
  clear h
  induction es generalizing fs with
  | nil => exact (List.eq_nil_iff_forall_not_mem.2 fun e he => by simpa using (hmem e).2 he).symm
  | cons e es ih =>
    cases fs with
    | nil => exact absurd ((hmem e).1 List.mem_cons_self) List.not_mem_nil
    | cons f fs =>
      obtain ⟨he, hes'⟩ := List.pairwise_cons.1 hes
      obtain ⟨hf, hfs'⟩ := List.pairwise_cons.1 hfs
      have heq : e = f := by
        rcases List.mem_cons.1 ((hmem e).1 List.mem_cons_self) with h | h
        · exact h
        · rcases List.mem_cons.1 ((hmem f).2 List.mem_cons_self) with h' | h'
          · exact h'.symm
          · exact absurd (hf e h) (String.lt_asymm (he f h'))
      subst heq
      congr 1
      refine ih hes' fs hfs' fun g => ⟨fun hg => ?_, fun hg => ?_⟩
      · rcases List.mem_cons.1 ((hmem g).1 (List.mem_cons_of_mem e hg)) with rfl | h
        · exact absurd (he g hg) (String.lt_irrefl _)
        · exact h
      · rcases List.mem_cons.1 ((hmem g).2 (List.mem_cons_of_mem e hg)) with rfl | h
        · exact absurd (hf g hg) (String.lt_irrefl _)
        · exact h

/-! ## Single facts -/

/-- The empty state gives no key a value. -/
@[simp] theorem get?_empty (key : String) : empty.get? key = none := rfl

private theorem lookup_insertFact (key : String) (value : Value) {es : List Fact}
    (hes : es.Pairwise fun e f => e.1 < f.1) (key' : String) :
    (insertFact key value es).lookup key' =
      if key' = key then some value else es.lookup key' := by
  induction es with
  | nil => rw [insertFact, lookup_cons_fact]
  | cons e es ih =>
    obtain ⟨he, hes'⟩ := List.pairwise_cons.1 hes
    unfold insertFact
    split
    case isTrue hlt => rw [lookup_cons_fact]
    case isFalse hnot =>
      split
      case isTrue hgt =>
        rw [lookup_cons_fact, lookup_cons_fact, ih hes']
        by_cases h : key' = key
        · have hne : key ≠ e.1 := fun heq => String.lt_irrefl key (by simpa only [← heq] using hgt)
          rw [h, if_neg hne]
          simp only [if_true]
        · simp only [h, if_false]
      case isFalse hnot' =>
        have heq : key = e.1 := String.le_antisymm (String.not_lt.1 hnot') (String.not_lt.1 hnot)
        rw [lookup_cons_fact, lookup_cons_fact, ← heq]
        by_cases h : key' = key <;> simp only [h, if_true, if_false]

/-- After an insertion the key has the new value and every other key has what it had. -/
@[simp] theorem get?_insert (s : State) (key : String) (value : Value) (key' : String) :
    (s.insert key value).get? key' = if key' = key then some value else s.get? key' :=
  lookup_insertFact key value s.ordered key'

/-- After an erasure the key has no value and every other key has what it had. -/
@[simp] theorem get?_erase (s : State) (key key' : String) :
    (s.erase key).get? key' = if key' = key then none else s.get? key' := by
  refine Option.ext fun value => ?_
  have hmem : (key', value) ∈ (s.erase key).entries ↔ (s.erase key).get? key' = some value :=
    mem_entries_iff
  have hmem' : (key', value) ∈ s.entries ↔ s.get? key' = some value := mem_entries_iff
  rw [← hmem]
  by_cases h : key' = key <;> simp [erase, h, ← hmem']

/-! ## Whole states -/

private theorem get?_foldl_insert (es : List Fact) (s : State) (key : String) :
    (es.foldl (fun s e => s.insert e.1 e.2) s).get? key =
      (es.reverse.lookup key).or (s.get? key) := by
  induction es generalizing s with
  | nil => simp
  | cons e es ih =>
    rw [List.foldl_cons, ih, get?_insert, List.reverse_cons, List.lookup_append, lookup_cons_fact,
      List.lookup_nil, Option.or_assoc]
    by_cases h : key = e.1 <;> simp only [h, if_true, if_false, Option.some_or, Option.none_or]

/-- A state made from a list gives each key the value listed last. -/
theorem get?_ofList (facts : List Fact) (key : String) :
    (ofList facts).get? key = facts.reverse.lookup key := by
  rw [ofList, get?_foldl_insert, get?_empty, Option.or_none]

/-- A state made from facts with different keys has exactly these facts. -/
theorem get?_ofList_eq_some_iff {facts : List Fact}
    (hdistinct : facts.Pairwise fun e f => e.1 ≠ f.1) {key : String} {value : Value} :
    (ofList facts).get? key = some value ↔ (key, value) ∈ facts := by
  have hreverse : facts.reverse.Pairwise fun e f => e.1 ≠ f.1 :=
    List.pairwise_reverse.2 (hdistinct.imp Ne.symm)
  rw [get?_ofList, ← List.mem_reverse]
  exact lookup_eq_some_iff hreverse (e := (key, value))

private theorem lookup_reverse (s : State) (key : String) :
    s.entries.reverse.lookup key = s.get? key := by
  refine Option.ext fun value => ?_
  rw [← get?_ofList, get?_ofList_eq_some_iff s.entries_distinct]
  exact mem_entries_iff

/-- In a merge the second state counts where it has a value, and the first one elsewhere. -/
@[simp] theorem get?_merge (s t : State) (key : String) :
    (s.merge t).get? key = (t.get? key).or (s.get? key) := by
  rw [merge, get?_foldl_insert, lookup_reverse]

/-- What is left of a state without `held` are the values that `held` does not give too. -/
@[simp] theorem get?_without (s held : State) (key : String) :
    (s.without held).get? key = if held.get? key = s.get? key then none else s.get? key := by
  refine Option.ext fun value => ?_
  have hmem : (key, value) ∈ (s.without held).entries ↔ (s.without held).get? key = some value :=
    mem_entries_iff
  have hmem' : (key, value) ∈ s.entries ↔ s.get? key = some value := mem_entries_iff
  rw [← hmem]
  by_cases h : s.get? key = some value
  · simp only [without, List.mem_filter, hmem', h, true_and, bne_iff_ne, ne_eq]
    by_cases hheld : held.get? key = some value <;> simp [hheld]
  · have hnot : (key, value) ∉ (s.without held).entries := fun hin =>
      h (hmem'.1 (List.mem_filter.1 hin).1)
    simp only [hnot, false_iff]
    split
    · simp
    · exact h

/-! ## Comparing states -/

/-- A state satisfies another one if it gives each of its keys the same value. -/
theorem satisfies_iff {s required : State} :
    s.satisfies required = true ↔
      ∀ key value, required.get? key = some value → s.get? key = some value := by
  simp only [satisfies, List.all_eq_true, beq_iff_eq]
  constructor
  · intro h key value hkey
    exact h (key, value) (mem_entries_iff.2 hkey)
  · intro h e he
    exact h e.1 e.2 (mem_entries_iff.1 he)

/-- A state satisfies itself. -/
theorem satisfies_refl (s : State) : s.satisfies s = true :=
  satisfies_iff.2 fun _ _ hvalue => hvalue

/-- A state that satisfies another one satisfies what the other one satisfies. -/
theorem satisfies_trans {s t required : State} (h : s.satisfies t = true)
    (h' : t.satisfies required = true) : s.satisfies required = true := by
  rw [satisfies_iff] at *
  exact fun key value hvalue => h key value (h' key value hvalue)

/-- States are in conflict if some key has two different values. -/
theorem conflictsWith_iff {s t : State} :
    s.conflictsWith t = true ↔
      ∃ key value value', s.get? key = some value ∧ t.get? key = some value' ∧ value ≠ value' := by
  simp only [conflictsWith, List.any_eq_true, Option.any_eq_true, bne_iff_ne]
  constructor
  · rintro ⟨e, he, value', ht, hne⟩
    exact ⟨e.1, e.2, value', mem_entries_iff.1 he, ht, hne.symm⟩
  · rintro ⟨key, value, value', hs, ht, hne⟩
    exact ⟨(key, value), mem_entries_iff.2 hs, value', ht, hne.symm⟩

end GoalPlanning.State
