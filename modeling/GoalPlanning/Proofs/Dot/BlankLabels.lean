import GoalPlanning.Dot.Graph
import GoalPlanning.Proofs.Dot.Rows

/-!
# Graphs with blank labels

Only labels are written between quotation marks. So what a graph has outside its strings is the
text of the same graph with blank labels, quotation marks included, and the strings are its labels
one after another. The rows of its text are its statements, between a first and a last row.
-/

namespace GoalPlanning.Dot

/-! ## Attributes -/

namespace AttributeValue

/-- A blank label in place of a label. Words stay. -/
def blank : AttributeValue → AttributeValue
  | word s => word s
  | label _ => label []

/-- The lines of the label, if it is one. -/
def labels : AttributeValue → List (List String)
  | word _ => []
  | label lines => [lines]

/-- A label may be any text, a word is plain. -/
def IsPlain : AttributeValue → Prop
  | word s => Plain s
  | label _ => True

instance (v : AttributeValue) : Decidable v.IsPlain :=
  match v with
  | word s => inferInstanceAs (Decidable (Plain s))
  | label _ => inferInstanceAs (Decidable True)

/-- A value is read as its blank form and its label, if it has one. -/
theorem reads_text {v : AttributeValue} (h : v.IsPlain) :
    Reads v.text v.blank.text (v.labels.map labelBody) := by
  cases v with
  | word s => exact .of_plain h
  | label lines => exact reads_quoteLines lines

end AttributeValue

namespace Attribute

/-- A property with a blank label if it has a label. -/
def blank (a : Attribute) : Attribute := ⟨a.name, a.value.blank⟩

/-- The labels among some properties. -/
def labelsOf (attributes : List Attribute) : List (List String) :=
  attributes.flatMap fun a => a.value.labels

/-- The name is plain, and so is the value, unless it is a label. -/
def IsPlain (a : Attribute) : Prop := Plain a.name ∧ a.value.IsPlain

instance (a : Attribute) : Decidable a.IsPlain := inferInstanceAs (Decidable (_ ∧ _))

/-- A label is not asked for anything. -/
theorem isPlain_label (lines : List String) : (label lines).IsPlain :=
  ⟨show Plain "label" by decide, trivial⟩

/-- A property is read as its blank form and its label, if it has one. -/
theorem reads_text {a : Attribute} (h : a.IsPlain) :
    Reads a.text a.blank.text (a.value.labels.map labelBody) :=
  (AttributeValue.reads_text h.2).plain_append (h.1.append (by decide))

/-- Properties are read one after another. -/
theorem reads_listText {attributes : List Attribute} (h : ∀ a ∈ attributes, a.IsPlain) :
    Reads (listText attributes) (listText (attributes.map blank))
      ((labelsOf attributes).map labelBody) := by
  have hcomma : Plain ", " := by decide
  have hattributes := Reads.intercalate hcomma fun a ha => reads_text (h a ha)
  rw [labelsOf, List.map_flatMap, listText, listText, List.map_map]
  exact (hattributes.plain_append (by decide)).append_plain (by decide)

end Attribute

/-! ## Statements -/

/-- What a row is about: the part of it before its list of properties. -/
def subject (row : String) : List Char := (outside row).takeWhile (· ≠ '[')

/-- The list of properties in a row, with the blank strings of its labels. -/
def properties (row : String) : List Char := (outside row).dropWhile (· ≠ '[')

/-- Properties begin with the first opening bracket. -/
theorem subject_properties_of_outside_eq {row : String} {before after : List Char}
    (h : outside row = before ++ after) (hbefore : '[' ∉ before) (hafter : after.head? = some '[') :
    subject row = before ∧ properties row = after := by
  obtain ⟨rest, rfl⟩ := List.head?_eq_some_iff.1 hafter
  have hpass : ∀ c ∈ before, decide (c ≠ '[') = true := by
    intro c hc
    exact decide_eq_true fun heq => hbefore (heq ▸ hc)
  constructor
  · rw [subject, h, List.takeWhile_append_of_pos hpass, List.takeWhile_cons_of_neg (by decide),
      List.append_nil]
  · rw [properties, h, List.dropWhile_append_of_pos hpass, List.dropWhile_cons_of_neg (by decide)]

variable {ν : Type}

namespace Statement

/-- The properties that a statement gives. -/
def attributes : Statement ν → List Attribute
  | setting a => [a]
  | defaults _ attributes => attributes
  | node _ attributes => attributes
  | edge _ _ attributes => attributes

/-- A statement with blank labels. -/
def blank : Statement ν → Statement ν
  | setting a => setting a.blank
  | defaults element attributes => defaults element (attributes.map Attribute.blank)
  | node v attributes => node v (attributes.map Attribute.blank)
  | edge source target attributes => edge source target (attributes.map Attribute.blank)

/-- The labels of a statement. -/
def labels (s : Statement ν) : List (List String) := Attribute.labelsOf s.attributes

/-- All properties are plain but for labels. -/
def IsPlain (s : Statement ν) : Prop := ∀ a ∈ s.attributes, a.IsPlain

instance (s : Statement ν) : Decidable s.IsPlain := inferInstanceAs (Decidable (∀ a ∈ _, _))

/-- A statement is read as its blank form and its labels. -/
theorem reads_text [ToString ν] {s : Statement ν} (hν : ∀ v : ν, Plain (toString v))
    (h : s.IsPlain) : Reads s.text s.blank.text (s.labels.map labelBody) := by
  have hlist := Attribute.reads_listText h
  cases s with
  | setting a =>
    have hsemicolon : Plain ";" := by decide
    have ha := (Attribute.reads_text (h a List.mem_cons_self)).append_plain hsemicolon
    simpa [text, blank, labels, Attribute.labelsOf, attributes] using ha
  | defaults element attributes =>
    have helement : Plain element.text := by cases element <;> decide
    exact (hlist.plain_append (helement.append (by decide))).append_plain (by decide)
  | node v attributes =>
    exact (hlist.plain_append ((hν v).append (by decide))).append_plain (by decide)
  | edge source target attributes =>
    have harrow : Plain " -> " := by decide
    have hends := ((hν source).append harrow).append (hν target)
    exact (hlist.plain_append (hends.append (by decide))).append_plain (by decide)

/-- The row of a statement. -/
def row [ToString ν] (s : Statement ν) : String := "    " ++ s.text ++ "\n"

/-- The row of a statement is one row. -/
theorem readsRows_row [ToString ν] {s : Statement ν} (hν : ∀ v : ν, Plain (toString v))
    (h : s.IsPlain) : ReadsRows s.row s.blank.row (s.labels.map labelBody) [s.row] :=
  ((reads_text hν h).plain_append (by decide)).row

/-- Outside strings a row is the row of the blank statement. -/
theorem outside_row [ToString ν] {s : Statement ν} (hν : ∀ v : ν, Plain (toString v))
    (h : s.IsPlain) : outside s.row = s.blank.row.toList :=
  congrArg Scan.frame (readsRows_row hν h).scan_eq

/-- What a statement says comes first in its row, and its properties come last. -/
theorem subject_properties_row [ToString ν] {s : Statement ν} {said : String}
    {blanks : List Attribute} (hν : ∀ v : ν, Plain (toString v)) (h : s.IsPlain)
    (hs : s.blank.text = said ++ " " ++ Attribute.listText blanks ++ ";")
    (hsaid : '[' ∉ said.toList) :
    subject s.row = ("    " ++ said ++ " ").toList ∧
      properties s.row = (Attribute.listText blanks ++ ";\n").toList := by
  have houtside : outside s.row =
      ("    " ++ said ++ " ").toList ++ (Attribute.listText blanks ++ ";\n").toList := by
    rw [outside_row hν h, row, hs]
    simp
  refine subject_properties_of_outside_eq houtside ?_ ?_
  · simpa using hsaid
  · simp [Attribute.listText]

end Statement

/-! ## Graphs -/

namespace Graph

/-- A graph with blank labels. -/
def blank (g : Graph ν) : Graph ν := ⟨g.name, g.statements.map Statement.blank⟩

/-- The labels of a graph, in the order in which they are written. -/
def labels (g : Graph ν) : List (List String) := g.statements.flatMap Statement.labels

/-- Everything is plain but for labels. -/
structure IsPlain [ToString ν] (g : Graph ν) : Prop where
  /-- The name of the graph is plain. -/
  name : Plain g.name
  /-- The names of nodes are plain. -/
  vertex : ∀ v : ν, Plain (toString v)
  /-- The words in statements are plain. -/
  statement : ∀ s ∈ g.statements, s.IsPlain

/-- The lines of a graph are a first one, the rows of its statements and a last one. -/
theorem lines_eq [ToString ν] (g : Graph ν) :
    g.lines = ["digraph " ++ g.name ++ " \x7b" ++ "\n"] ++
      (g.statements.map Statement.row ++ ["\x7d\n"]) := by
  rw [String.append_assoc]
  rfl

/-- The text of a graph consists of its lines as rows. Outside strings it is the graph with blank
labels, and the strings are the labels. -/
theorem readsRows_text [ToString ν] {g : Graph ν} (h : g.IsPlain) :
    ReadsRows g.text g.blank.text (g.labels.map labelBody) g.lines := by
  have hopening : Plain ("digraph " ++ g.name ++ " \x7b") :=
    (Plain.append (by decide) h.name).append (by decide)
  have hfirst := (Reads.of_plain hopening).row
  have hlast : ReadsRows "\x7d\n" "\x7d\n" [] ["\x7d\n"] :=
    (Reads.of_plain (show Plain "\x7d" by decide)).row
  have hstatements : ReadsRows (String.join (g.statements.map Statement.row))
      (String.join (g.statements.map fun s => s.blank.row))
      (g.statements.flatMap fun s => s.labels.map labelBody) (g.statements.map Statement.row) :=
    .join fun s hs => Statement.readsRows_row h.vertex (h.statement s hs)
  have htext (g : Graph ν) : g.text = "digraph " ++ g.name ++ " \x7b" ++ "\n" ++
      (String.join (g.statements.map Statement.row) ++ "\x7d\n") := by
    rw [text, lines_eq, String.join_append, String.join_append]
    rfl
  have hgraph := hfirst.append (hstatements.append hlast)
  rw [List.nil_append, List.append_nil] at hgraph
  rw [htext, htext, blank, labels, List.map_flatMap, List.map_map, lines_eq]
  exact hgraph

end Graph

end GoalPlanning.Dot
