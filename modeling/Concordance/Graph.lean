import Concordance.Keyed
import Concordance.Path
import Concordance.Symbol

/-!
Graphs of definitions and the files that use them.

Nodes and edges keep the order in which they were added. A node id stands once and an edge that is
there already is not added again.
-/

namespace Concordance

open Text

/-- How a graph is made. -/
structure GraphOptions where
  /-- The number of definitions shown at most. -/
  maxNodes : Nat := 50
  /-- One edge for a file instead of one for a use. -/
  groupByFile : Bool := true
  /-- Files are nodes, too. -/
  includeFiles : Bool := true
  /-- The directory that file labels are seen from. -/
  root : Option String := none
deriving Repr, DecidableEq

/-- A definition or a file. -/
structure GraphNode where
  id : String
  label : String
  kind : SymbolKind
deriving Repr, DecidableEq

/-- A use, from one node to another. -/
structure GraphEdge where
  source : String
  target : String
  kind : UsageKind
  label : Option String
deriving Repr, DecidableEq

/-- Nodes and edges in the order in which they were added. -/
structure Graph where
  nodes : List GraphNode := []
  edges : List GraphEdge := []
deriving Repr, DecidableEq

namespace Graph

/-- A node has the id. -/
def hasNode (g : Graph) (id : String) : Bool :=
  g.nodes.any (·.id == id)

/-- The edge is there. -/
def hasEdge (g : Graph) (edge : GraphEdge) : Bool :=
  g.edges.contains edge

/-- The graph with the node, unless its id is taken. -/
def addNode (g : Graph) (node : GraphNode) : Graph :=
  if g.hasNode node.id then g else { g with nodes := g.nodes ++ [node] }

/-- The graph with the edge, unless it is there already. -/
def addEdge (g : Graph) (edge : GraphEdge) : Graph :=
  if g.hasEdge edge then g else { g with edges := g.edges ++ [edge] }

end Graph

/-- A node id for a name: everything but letters and digits becomes `_`. The word `end` means
something else in a diagram and gets one more. -/
def nodeId (name : String) : String :=
  let id := name.toList.map fun c => if c.isAlphanum then c else '_'
  if id.isEmpty then "_"
  else if asciiLower id == "end".toList then String.ofList (id ++ ['_'])
  else String.ofList id

/-- The node id of a file. -/
def fileNodeId (path : String) : String :=
  nodeId ("file_" ++ path)

/-- The node id of a definition. -/
def Symbol.nodeId (s : Symbol) : String :=
  Concordance.nodeId s.name

/-- The node of a definition. -/
def Symbol.node (s : Symbol) : GraphNode :=
  ⟨s.nodeId, s.name, s.kind⟩

/-- A file that uses a definition, how it does, and the text at the edge. -/
structure FileLink where
  path : String
  kind : UsageKind
  label : String
deriving Repr, DecidableEq

/-- The files that use a definition: with grouping each file once, by its first use and in the
order of their names; else one link for a use. -/
def Symbol.fileLinks (s : Symbol) (options : GraphOptions) : List FileLink :=
  if options.groupByFile then
    let links := s.usages.map fun u =>
      FileLink.mk (displayPath u.filePath options.root) u.kind u.kind.name
    (firstPerKey FileLink.path [] links).mergeSort fun a b => decide (a.path ≤ b.path)
  else
    s.usages.map fun u =>
      ⟨displayPath u.filePath options.root, u.kind,
        u.kind.name ++ ":" ++ toString (u.position.line + 1)⟩

/-- The edge of a link. What is extended or implemented points to the file, all else to the
definition. -/
def FileLink.edge (symbolId : String) (l : FileLink) : GraphEdge :=
  let fileId := fileNodeId l.path
  match l.kind with
  | .extend => ⟨symbolId, fileId, l.kind, some l.label⟩
  | .implement => ⟨symbolId, fileId, l.kind, some l.label⟩
  | _ => ⟨fileId, symbolId, l.kind, some l.label⟩

/-- The graph with the link, its file a node if files are. -/
def Graph.addLink (options : GraphOptions) (symbolId : String) (g : Graph) (l : FileLink) : Graph :=
  let g := if options.includeFiles then g.addNode ⟨fileNodeId l.path, l.path, .file⟩ else g
  g.addEdge (l.edge symbolId)

/-- The graph with the uses of a definition. -/
def Graph.addUsages (options : GraphOptions) (g : Graph) (s : Symbol) : Graph :=
  (s.fileLinks options).foldl (Graph.addLink options s.nodeId) g

/-- The graph with the node of a definition, as long as there is room for it, and the definitions
that have a node, the latest first. -/
def seed (options : GraphOptions) (state : Graph × List Symbol) (s : Symbol) :
    Graph × List Symbol :=
  let (g, seeded) := state
  if g.hasNode s.nodeId then (g, s :: seeded)
  else if g.nodes.length < options.maxNodes then (g.addNode s.node, s :: seeded)
  else (g, seeded)

/-- The graph of the definitions. Those beyond the number of nodes are left out with their uses. -/
def Graph.ofSymbols (symbols : List Symbol) (options : GraphOptions) : Graph :=
  let (g, seeded) := symbols.foldl (seed options) ({}, [])
  seeded.reverse.foldl (Graph.addUsages options) g

/-- The graph of one definition. -/
def Graph.ofSymbol (s : Symbol) (options : GraphOptions) : Graph :=
  Graph.addUsages options ((Graph.mk [] []).addNode s.node) s

end Concordance
