import GoalPlanning.Dot.Label

/-!
# Directed graphs in DOT

A graph is a list of statements about its nodes and edges, one on each line of its text. Nodes are
of any type whose members have names.
-/

namespace GoalPlanning.Dot

/-- The value of an attribute. -/
inductive AttributeValue where
  /-- A word or number that needs no quotation marks. -/
  | word (s : String)
  /-- A label of several lines. -/
  | label (lines : List String)
  deriving DecidableEq

/-- The value as it is written. -/
def AttributeValue.text : AttributeValue → String
  | word s => s
  | label lines => quoteLines lines

/-- A property of a node or an edge. -/
structure Attribute where
  /-- Which property it is. -/
  name : String
  /-- What it is. -/
  value : AttributeValue
  deriving DecidableEq

namespace Attribute

/-- A property that is a word or a number. -/
def word (name s : String) : Attribute := ⟨name, .word s⟩

/-- What is written into a node or beside an edge. -/
def label (lines : List String) : Attribute := ⟨"label", .label lines⟩

/-- The colour that a node is filled with. -/
def fill (colour : String) : Attribute := word "fillcolor" colour

/-- An attribute as it is written. -/
def text (a : Attribute) : String := a.name ++ "=" ++ a.value.text

/-- A list of attributes as it is written. -/
def listText (attributes : List Attribute) : String :=
  "[" ++ ", ".intercalate (attributes.map text) ++ "]"

end Attribute

/-- What attributes can be given to all at once. -/
inductive Element where
  /-- All nodes. -/
  | node
  /-- All edges. -/
  | edge
  deriving DecidableEq

/-- The word for nodes or edges. -/
def Element.text : Element → String
  | node => "node"
  | edge => "edge"

/-- A statement of a graph. -/
inductive Statement (ν : Type) where
  /-- An attribute of the graph itself. -/
  | setting (a : Attribute)
  /-- Attributes of all nodes or of all edges. -/
  | defaults (element : Element) (attributes : List Attribute)
  /-- A node with its attributes. -/
  | node (v : ν) (attributes : List Attribute)
  /-- An edge with its attributes. -/
  | edge (source target : ν) (attributes : List Attribute)
  deriving DecidableEq

/-- A statement as it is written. -/
def Statement.text {ν : Type} [ToString ν] : Statement ν → String
  | setting a => a.text ++ ";"
  | defaults element attributes => element.text ++ " " ++ Attribute.listText attributes ++ ";"
  | node v attributes => toString v ++ " " ++ Attribute.listText attributes ++ ";"
  | edge source target attributes =>
    toString source ++ " -> " ++ toString target ++ " " ++ Attribute.listText attributes ++ ";"

/-- A directed graph. -/
structure Graph (ν : Type) where
  /-- The name of the graph. -/
  name : String
  /-- What is said about it, first to last. -/
  statements : List (Statement ν)

namespace Graph

variable {ν : Type} [ToString ν]

/-- The lines of a graph, each with its line break. -/
def lines (g : Graph ν) : List String :=
  ("digraph " ++ g.name ++ " \x7b\n") ::
    g.statements.map (fun s => "    " ++ s.text ++ "\n") ++ ["\x7d\n"]

/-- A graph as text. -/
def text (g : Graph ν) : String := String.join g.lines

end Graph

end GoalPlanning.Dot
