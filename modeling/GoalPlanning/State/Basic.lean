import GoalPlanning.Value

/-!
# States

A state gives values to some keys. It describes the current world, a goal, the preconditions of
an action or its effects. A key that a state leaves out is unconstrained, which is not the same
as having a false or zero value. The entries are kept in the order of their keys, so states that
agree on every key are equal, however they were made.
-/

namespace GoalPlanning

/-- A key with its value. -/
abbrev Fact := String × Value

/-- The facts of a state in the order of their keys, each key once. -/
structure State where
  /-- The keys with their values. -/
  entries : List Fact
  /-- Keys increase strictly, by code points. -/
  ordered : entries.Pairwise fun e f => e.1 < f.1
  deriving DecidableEq

namespace State

/-- Puts a fact at its place among ordered facts and replaces the one with the same key. -/
def insertFact (key : String) (value : Value) : List Fact → List Fact
  | [] => [(key, value)]
  | e :: es =>
    if key < e.1 then (key, value) :: e :: es
    else if e.1 < key then e :: insertFact key value es
    else (key, value) :: es

/-- Inserting a fact adds no other one. -/
theorem mem_insertFact {key : String} {value : Value} {e : Fact} {es : List Fact}
    (h : e ∈ insertFact key value es) : e = (key, value) ∨ e ∈ es := by
  induction es with
  | nil => exact Or.inl (List.mem_singleton.1 h)
  | cons f es ih =>
    unfold insertFact at h
    split at h
    · exact List.mem_cons.1 h
    · split at h
      · rcases List.mem_cons.1 h with h | h
        · exact Or.inr (h ▸ List.mem_cons_self)
        · exact (ih h).imp_right (List.mem_cons_of_mem f)
      · exact (List.mem_cons.1 h).imp_right (List.mem_cons_of_mem f)

/-- Inserting a fact keeps the order of the keys. -/
theorem insertFact_ordered (key : String) (value : Value) {es : List Fact}
    (h : es.Pairwise fun e f => e.1 < f.1) :
    (insertFact key value es).Pairwise fun e f => e.1 < f.1 := by
  induction es with
  | nil => exact List.pairwise_singleton _ _
  | cons f es ih =>
    obtain ⟨hf, hes⟩ := List.pairwise_cons.1 h
    unfold insertFact
    split
    case isTrue hlt =>
      refine List.pairwise_cons.2 ⟨fun e he => ?_, h⟩
      rcases List.mem_cons.1 he with rfl | he
      · exact hlt
      · exact String.lt_trans hlt (hf e he)
    case isFalse hnot =>
      split
      case isTrue hgt =>
        refine List.pairwise_cons.2 ⟨fun e he => ?_, ih hes⟩
        rcases mem_insertFact he with rfl | he
        · exact hgt
        · exact hf e he
      case isFalse hnot' =>
        have heq : key = f.1 := String.le_antisymm (String.not_lt.1 hnot') (String.not_lt.1 hnot)
        exact List.pairwise_cons.2 ⟨fun e he => heq ▸ hf e he, hes⟩

/-- The state without any fact. -/
def empty : State := ⟨[], List.Pairwise.nil⟩

instance : EmptyCollection State := ⟨empty⟩
instance : Inhabited State := ⟨empty⟩

/-- Gives a key a value, in place of the one it had. -/
def insert (s : State) (key : String) (value : Value) : State :=
  ⟨insertFact key value s.entries, insertFact_ordered key value s.ordered⟩

/-- Leaves a key unconstrained. -/
def erase (s : State) (key : String) : State :=
  ⟨s.entries.filter (·.1 != key), s.ordered.filter _⟩

/-- The state with the given facts. Of several facts with one key the last one counts. -/
def ofList (facts : List Fact) : State := facts.foldl (fun s e => s.insert e.1 e.2) empty

/-- The value of a key, if the state has one. -/
def get? (s : State) (key : String) : Option Value := s.entries.lookup key

/-- Whether a key has a value. -/
def contains (s : State) (key : String) : Bool := (s.get? key).isSome

/-- The number of facts. -/
def size (s : State) : Nat := s.entries.length

/-- Whether there is no fact at all. Every state satisfies such a goal. -/
def isEmpty (s : State) : Bool := s.entries.isEmpty

/-- Whether a state has every fact of `required`. Its other facts do not matter. -/
def satisfies (s required : State) : Bool :=
  required.entries.all fun e => s.get? e.1 == some e.2

/-- Whether some key has different values in the two states. -/
def conflictsWith (s t : State) : Bool :=
  s.entries.any fun e => (t.get? e.1).any (· != e.2)

/-- The facts of both states. Where they differ on a key, the second one counts. -/
def merge (s t : State) : State := t.entries.foldl (fun s e => s.insert e.1 e.2) s

/-- The facts of a state that `held` does not have. -/
def without (s held : State) : State :=
  ⟨s.entries.filter fun e => held.get? e.1 != some e.2, s.ordered.filter _⟩

/-- A fact as text. -/
def factText (e : Fact) : String := e.1 ++ ": " ++ e.2.text

/-- A state as text: its facts in the order of their keys, between braces. -/
def text (s : State) : String :=
  "\x7b" ++ ", ".intercalate (s.entries.map factText) ++ "\x7d"

instance : ToString State := ⟨text⟩

end State

end GoalPlanning
