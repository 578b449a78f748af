import Concordance.Graph

/-!
Graphs written as Mermaid diagrams: a header, a line for a node, a line for an edge.
-/

namespace Concordance

open Text

/-- The word a diagram starts with. -/
inductive DiagramType where
  | graph
  | flowchart
deriving Repr, DecidableEq, Inhabited

/-- Where a diagram runs to. -/
inductive Direction where
  | topDown
  | leftRight
  | rightLeft
  | bottomUp
deriving Repr, DecidableEq, Inhabited

namespace DiagramType

/-- The word itself. -/
def name : DiagramType → String
  | .graph => "graph"
  | .flowchart => "flowchart"

/-- Every type. -/
def every : List DiagramType :=
  [.graph, .flowchart]

/-- The type with exactly that name. -/
def ofName? (name : String) : Option DiagramType :=
  every.find? (·.name == name)

/-- The type that a text asks for, whatever its case; else what is wrong with it. -/
def read (text : String) : Except String DiagramType :=
  let word := String.ofList (asciiLower text.toList)
  match ofName? word with
  | some t => .ok t
  | none => .error ("unknown diagram type: " ++ word)

end DiagramType

namespace Direction

/-- The two letters of a direction. -/
def name : Direction → String
  | .topDown => "TD"
  | .leftRight => "LR"
  | .rightLeft => "RL"
  | .bottomUp => "BT"

/-- Every direction. -/
def every : List Direction :=
  [.topDown, .leftRight, .rightLeft, .bottomUp]

/-- The direction with exactly that name. -/
def ofName? (name : String) : Option Direction :=
  every.find? (·.name == name)

/-- The direction that a text asks for, whatever its case; else what is wrong with it. -/
def read (text : String) : Except String Direction :=
  let word := String.ofList (asciiUpper text.toList)
  if word == "TB" then .ok .topDown
  else
    match ofName? word with
    | some d => .ok d
    | none => .error ("unknown direction: " ++ word)

end Direction

/-- How a diagram is written. -/
structure DiagramOptions where
  type : DiagramType := .graph
  direction : Direction := .topDown
  /-- Edges carry their labels. -/
  showLabels : Bool := false
deriving Repr, DecidableEq

namespace Diagram

/-- The brackets around the label of a node. -/
def shape : SymbolKind → List Char × List Char
  | .type => (['['], [']'])
  | .function => (['('], [')'])
  | .method => (['(', '['], [']', ')'])
  | .selector => (['{', '{'], ['}', '}'])
  | .variable => (['[', '/'], ['/', ']'])
  | .event => (['>'], [']'])
  | .file => (['[', '['], [']', ']'])

/-- The arrow of an edge. -/
def arrow : UsageKind → List Char
  | .extend => "==>".toList
  | .implement => "-.->".toList
  | .call => "-->".toList
  | .reference => "---".toList
  | .imported => "-.-".toList
  | .inclusion => "-->".toList

/-- A label with its double quotes written as entities. -/
def escapeLabel (label : List Char) : List Char :=
  replaceChar '"' "#quot;".toList label

/-- The space before each node and edge. -/
def margin : List Char :=
  "    ".toList

/-- The line of a node. -/
def nodeLine (n : GraphNode) : List Char :=
  let (left, right) := shape n.kind
  margin ++ n.id.toList ++ left ++ ['"'] ++ escapeLabel n.label.toList ++ ['"'] ++ right

/-- The line of an edge. -/
def edgeLine (showLabels : Bool) (e : GraphEdge) : List Char :=
  let label :=
    match e.label with
    | some label => if showLabels then ['|'] ++ escapeLabel label.toList ++ ['|'] else []
    | none => []
  margin ++ e.source.toList ++ [' '] ++ arrow e.kind ++ label ++ [' '] ++ e.target.toList

/-- The first line. -/
def header (options : DiagramOptions) : List Char :=
  options.type.name.toList ++ [' '] ++ options.direction.name.toList

/-- The diagram of a graph, without a line feed at its end. -/
def render (g : Graph) (options : DiagramOptions) : List Char :=
  List.intercalate ['\n']
    (header options :: (g.nodes.map nodeLine ++ g.edges.map (edgeLine options.showLabels)))

end Diagram

end Concordance
