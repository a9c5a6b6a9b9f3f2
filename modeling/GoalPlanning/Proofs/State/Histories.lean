import GoalPlanning.Proofs.UnmetConditions
import Mathlib.Data.Set.Card

/-!
# States remember no history

A state may be made in many ways: from a list of facts, by single insertions and erasures, by
merging other states into it and by taking away what they hold. Each of these is a number of writes
to keys, and a log of the writes is all that one needs in order to know the state. A key has the
value that was last written to it, and nothing else of the log is left: not the order of the writes
to different keys, and no trace of keys that have been erased.
-/

namespace GoalPlanning.State

/-! ## Logs -/

/-- A write to a key: the value that it gets, or none if its value is taken away. -/
abbrev Write := String × Option Value

/-- The value of a key that the last write to it has left. A key that was never written to has
none. -/
def lastWrite (log : List Write) (key : String) : Option Value := (log.reverse.lookup key).join

/-- The writes of a log by which keys got the values that they still have at its end. -/
def standing (log : List Write) : List Write :=
  log.filter fun w => w.2.isSome && lastWrite log w.1 == w.2

/-- The writes that take away from a log what stands in another one as well. -/
def removals (log held : List Write) : List Write :=
  ((standing log).filter fun w => w ∈ standing held).map fun w => (w.1, none)

section

variable {log log' held : List Write} {key : String} {value? : Option Value} {w : Write}

/-- Later writes to other keys do not matter. -/
theorem lastWrite_append_of_forall_ne (h : ∀ w ∈ log', w.1 ≠ key) :
    lastWrite (log ++ log') key = lastWrite log key := by
  have hnone : log'.reverse.lookup key = none := by
    rw [List.lookup_eq_none_iff]
    intro w hw
    exact bne_iff_ne.2 (h w (List.mem_reverse.1 hw)).symm
  rw [lastWrite, List.reverse_append, List.lookup_append, hnone, Option.none_or, lastWrite]

/-- What a key is found to have was written to it. -/
theorem mem_of_lookup_reverse_eq_some (h : log.reverse.lookup key = some value?) :
    (key, value?) ∈ log := by
  obtain ⟨before, after, hsplit, -⟩ := List.lookup_eq_some_iff.1 h
  rw [← List.mem_reverse, hsplit]
  exact List.mem_append_right before List.mem_cons_self

/-- Later writes to a key count, and alone if they all say the same. -/
theorem lastWrite_append_of_mem (hmem : (key, value?) ∈ log')
    (h : ∀ w ∈ log', w.1 = key → w.2 = value?) : lastWrite (log ++ log') key = value? := by
  have hsome : (log'.reverse.lookup key).isSome = true :=
    List.lookup_isSome_iff.2 ⟨(key, value?), List.mem_reverse.2 hmem, BEq.rfl⟩
  obtain ⟨found, hfound⟩ := Option.isSome_iff_exists.1 hsome
  have heq : found = value? := h (key, found) (mem_of_lookup_reverse_eq_some hfound) rfl
  rw [lastWrite, List.reverse_append, List.lookup_append, hfound, Option.some_or, heq]
  rfl

/-- One more write changes what its own key has. -/
theorem lastWrite_append_singleton (log : List Write) (w : Write) (key : String) :
    lastWrite (log ++ [w]) key = if key = w.1 then w.2 else lastWrite log key := by
  split
  case isTrue hkey =>
    subst hkey
    refine lastWrite_append_of_mem List.mem_cons_self fun w' hw' _ => ?_
    rw [List.mem_singleton.1 hw']
  case isFalse hkey =>
    refine lastWrite_append_of_forall_ne fun w' hw' => ?_
    rw [List.mem_singleton.1 hw']
    exact Ne.symm hkey

/-- A log that only gives values leaves each key the value listed last. -/
theorem lastWrite_map (facts : List Fact) (key : String) :
    lastWrite (facts.map fun e => (e.1, some e.2)) key = facts.reverse.lookup key := by
  rw [lastWrite, ← List.map_reverse]
  induction facts.reverse with
  | nil => rfl
  | cons e facts ih =>
    rw [List.map_cons, List.lookup_cons, List.lookup_cons]
    split
    · rfl
    · exact ih

/-- A write stands if it gave its key the value that the key still has. -/
theorem mem_standing_iff :
    w ∈ standing log ↔ ∃ value, w.2 = some value ∧ lastWrite log w.1 = some value := by
  rw [standing, List.mem_filter, Bool.and_eq_true, beq_iff_eq, Option.isSome_iff_exists]
  constructor
  · rintro ⟨-, ⟨value, hvalue⟩, hlast⟩
    exact ⟨value, hvalue, hlast.trans hvalue⟩
  · rintro ⟨value, hvalue, hlast⟩
    have hmem := mem_of_lookup_reverse_eq_some (Option.join_eq_some_iff.1 hlast)
    have hw : w = (w.1, some value) := Prod.ext rfl hvalue
    exact ⟨hw ▸ hmem, ⟨value, hvalue⟩, hlast.trans hvalue.symm⟩

/-- The keys that lose their values are those that have the same one in both logs. -/
theorem mem_removals_iff :
    w ∈ removals log held ↔ w.2 = none ∧
      ∃ value, lastWrite log w.1 = some value ∧ lastWrite held w.1 = some value := by
  simp only [removals, List.mem_map, List.mem_filter, decide_eq_true_eq, mem_standing_iff]
  constructor
  · rintro ⟨w', ⟨⟨value, hwritten, hlast⟩, value', hwritten', hlast'⟩, rfl⟩
    obtain rfl := Option.some.inj (hwritten.symm.trans hwritten')
    exact ⟨rfl, value, hlast, hlast'⟩
  · rintro ⟨hnone, value, hlast, hlast'⟩
    exact ⟨(w.1, some value), ⟨⟨value, rfl, hlast⟩, value, rfl, hlast'⟩, Prod.ext rfl hnone.symm⟩

/-- If what stands in another log is written again, then it counts. -/
theorem lastWrite_append_standing (log log' : List Write) (key : String) :
    lastWrite (log ++ standing log') key = (lastWrite log' key).or (lastWrite log key) := by
  cases hlast : lastWrite log' key with
  | none =>
    rw [Option.none_or]
    refine lastWrite_append_of_forall_ne fun w hw hkey => ?_
    obtain ⟨value, -, hvalue⟩ := mem_standing_iff.1 hw
    cases (hkey ▸ hvalue).symm.trans hlast
  | some value =>
    rw [Option.some_or]
    refine lastWrite_append_of_mem (mem_standing_iff.2 ⟨value, rfl, hlast⟩) fun w hw hkey => ?_
    obtain ⟨value', hwritten, hvalue'⟩ := mem_standing_iff.1 hw
    rw [hwritten, ← hvalue', hkey, hlast]

/-- If what stands in two logs is taken away from one, then the keys that have the same value in
both lose it. -/
theorem lastWrite_append_removals (log held : List Write) (key : String) :
    lastWrite (log ++ removals log held) key =
      if lastWrite held key = lastWrite log key then none else lastWrite log key := by
  split
  case isTrue hsame =>
    cases hlast : lastWrite log key with
    | none =>
      -- The key has no value in either log, so nothing is taken away from it.
      refine (lastWrite_append_of_forall_ne fun w hw hkey => ?_).trans hlast
      obtain ⟨-, value, hvalue, -⟩ := mem_removals_iff.1 hw
      cases (hkey ▸ hvalue).symm.trans hlast
    | some value =>
      have hmem : (key, none) ∈ removals log held :=
        mem_removals_iff.2 ⟨rfl, value, hlast, hsame.trans hlast⟩
      exact lastWrite_append_of_mem hmem fun w hw _ => (mem_removals_iff.1 hw).1
  case isFalse hdiffer =>
    refine lastWrite_append_of_forall_ne fun w hw hkey => hdiffer ?_
    obtain ⟨-, value, hvalue, hvalue'⟩ := mem_removals_iff.1 hw
    rw [← hkey, hvalue, hvalue']

end

/-! ## Histories -/

/-- How a state has been made. -/
inductive History where
  /-- From a list of facts, which may be empty. -/
  | ofList (facts : List Fact)
  /-- By giving a key a value, in place or in a copy. -/
  | insert (h : History) (key : String) (value : Value)
  /-- By leaving a key unconstrained. -/
  | erase (h : History) (key : String)
  /-- By merging another state into it, as the effects of an action are. -/
  | merge (h other : History)
  /-- By taking away the facts that another state has too. -/
  | without (h held : History)

namespace History

/-- The state that has been made. -/
def state : History → State
  | ofList facts => State.ofList facts
  | insert h key value => h.state.insert key value
  | erase h key => h.state.erase key
  | merge h other => h.state.merge other.state
  | without h held => h.state.without held.state

/-- The writes by which it has been made, first to last. Only single writes count: what stands of
another state is written fact by fact when it is merged, and taken away key by key. -/
def log : History → List Write
  | ofList facts => facts.map fun e => (e.1, some e.2)
  | insert h key value => h.log ++ [(key, some value)]
  | erase h key => h.log ++ [(key, none)]
  | merge h other => h.log ++ standing other.log
  | without h held => h.log ++ removals h.log held.log

/-- A key has the value that was last written to it. -/
theorem get?_state (h : History) (key : String) : h.state.get? key = lastWrite h.log key := by
  induction h with
  | ofList facts => rw [state, log, get?_ofList, lastWrite_map]
  | insert h key' value ih => rw [state, log, get?_insert, ih, lastWrite_append_singleton]
  | erase h key' ih => rw [state, log, get?_erase, ih, lastWrite_append_singleton]
  | merge h other ih ihOther => rw [state, log, get?_merge, ih, ihOther, lastWrite_append_standing]
  | without h held ih ihHeld =>
    rw [state, log, get?_without, ih, ihHeld, lastWrite_append_removals]

/-- **States are canonical.** However a state has been made, its facts are listed in the strict
order of their keys, by code points, and they are the values last written to the keys. Looking up a
key gives the same, which is nothing if the key was erased last or never written to, and as many
keys have a value as the state has facts. Two states are equal exactly if every key has the same
value in both, whatever was written to make them, and in which order. -/
theorem state_isCanonical (h : History) :
    (h.state.entries.Pairwise fun e f => e.1 < f.1) ∧
      (∀ e, e ∈ h.state.entries ↔ lastWrite h.log e.1 = some e.2) ∧
      (∀ key, h.state.get? key = lastWrite h.log key) ∧
      {key | h.state.get? key ≠ none}.encard = h.state.size ∧
      ∀ h' : History, h.state = h'.state ↔ ∀ key, h.state.get? key = h'.state.get? key := by
  have hkeys : {key | h.state.get? key ≠ none} = h.state.keys :=
    Set.ext fun key => Option.ne_none_iff_exists'.trans mem_keys_iff.symm
  refine ⟨h.state.ordered, fun e => ?_, h.get?_state, ?_, fun h' => ?_⟩
  · rw [mem_entries_iff, get?_state]
  · rw [hkeys, Set.encard_coe_eq_coe_finsetCard, card_keys]
  · exact ⟨fun heq key => by rw [heq], ext_get?⟩

end History

end GoalPlanning.State
