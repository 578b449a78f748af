import Mathlib.Data.List.Induction
import Concordance.Graph
import Concordance.Proofs.Keyed

/-!
What the graph of a list of definitions holds.

A graph to which nodes and edges are added one after the other holds the first node for each id and
each edge once (`Graph.collect`). The graph of a list of definitions is such a graph: the definitions
for whose nodes there is room come first, then the files that use them (`Graph.ofSymbols_eq`). From
that equation `Graph.ofSymbols_spec` reads which nodes and edges there are, and
`Graph.ofSymbols_repeated_and_more` that a repeated list adds nothing and more room takes nothing away.
-/

namespace Concordance

section Collect

namespace Graph

/-- The graph with the first of the nodes for each id, and each of the edges once. -/
def collect (nodes : List GraphNode) (edges : List GraphEdge) : Graph :=
  ⟨firstPerKey GraphNode.id [] nodes, firstPerKey id [] edges⟩

variable {nodes : List GraphNode} {edges : List GraphEdge}

theorem hasNode_iff {g : Graph} {id : String} : g.hasNode id = true ↔ id ∈ g.nodes.map GraphNode.id := by
  simp only [hasNode, List.any_eq_true, List.mem_map, beq_iff_eq]

theorem id_mem_collect_iff {id : String} :
    id ∈ (collect nodes edges).nodes.map GraphNode.id ↔ id ∈ nodes.map GraphNode.id :=
  key_mem_map_firstPerKey_iff GraphNode.id

theorem mem_edges_collect_iff {e : GraphEdge} : e ∈ (collect nodes edges).edges ↔ e ∈ edges := by
  have h : e ∈ (firstPerKey id [] edges).map id ↔ e ∈ edges.map id :=
    key_mem_map_firstPerKey_iff id
  rwa [List.map_id, List.map_id] at h

theorem addNode_collect (n : GraphNode) :
    (collect nodes edges).addNode n = collect (nodes ++ [n]) edges := by
  unfold addNode
  split
  · next h =>
    obtain ⟨m, hm, hid⟩ := List.mem_map.mp (id_mem_collect_iff.mp (hasNode_iff.mp h))
    have hcovered : firstPerKey GraphNode.id [] (nodes ++ [n]) = firstPerKey GraphNode.id [] nodes := by
      apply firstPerKey_append_of_covered
      intro a ha
      obtain rfl := List.mem_singleton.mp ha
      exact Or.inr ⟨m, hm, hid⟩
    rw [collect, collect, hcovered]
  · next h =>
    have hfresh : n.id ∉ nodes.map GraphNode.id := fun hid =>
      h (hasNode_iff.mpr (id_mem_collect_iff.mpr hid))
    rw [collect, collect, firstPerKey_concat_of_fresh _ List.not_mem_nil hfresh]

theorem addEdge_collect (e : GraphEdge) :
    (collect nodes edges).addEdge e = collect nodes (edges ++ [e]) := by
  have hthere : (collect nodes edges).hasEdge e = true ↔ e ∈ edges := by
    rw [hasEdge, List.contains_iff_mem, mem_edges_collect_iff]
  unfold addEdge
  split
  · next h =>
    have hcovered : firstPerKey id [] (edges ++ [e]) = firstPerKey id [] edges := by
      apply firstPerKey_append_of_covered
      intro a ha
      obtain rfl := List.mem_singleton.mp ha
      exact Or.inr ⟨a, hthere.mp h, rfl⟩
    rw [collect, collect, hcovered]
  · next h =>
    have hfresh : id e ∉ edges.map id := by
      rw [List.map_id]
      exact fun he => h (hthere.mpr he)
    rw [collect, collect, firstPerKey_concat_of_fresh _ List.not_mem_nil hfresh]

end Graph

end Collect

section Links

variable {options : GraphOptions} {s : Symbol}

/-- The nodes of the files that use a definition, if files are nodes. -/
def Symbol.fileNodes (options : GraphOptions) (s : Symbol) : List GraphNode :=
  if options.includeFiles then
    (s.fileLinks options).map fun l => ⟨fileNodeId l.path, l.path, .file⟩
  else []

/-- The edges between a definition and the files that use it. -/
def Symbol.edges (options : GraphOptions) (s : Symbol) : List GraphEdge :=
  (s.fileLinks options).map (FileLink.edge s.nodeId)

theorem Graph.addUsages_collect (options : GraphOptions) (s : Symbol) (nodes : List GraphNode)
    (edges : List GraphEdge) :
    (Graph.collect nodes edges).addUsages options s =
      Graph.collect (nodes ++ s.fileNodes options) (edges ++ s.edges options) := by
  rw [Graph.addUsages, Symbol.fileNodes, Symbol.edges]
  generalize s.fileLinks options = links
  induction links generalizing nodes edges with
  | nil => simp
  | cons l links ih =>
    have hlink : Graph.addLink options s.nodeId (Graph.collect nodes edges) l =
        Graph.collect
          (nodes ++ if options.includeFiles then [⟨fileNodeId l.path, l.path, .file⟩] else [])
          (edges ++ [l.edge s.nodeId]) := by
      unfold Graph.addLink
      split
      · rw [Graph.addNode_collect, Graph.addEdge_collect]
      · rw [Graph.addEdge_collect, List.append_nil]
    rw [List.foldl_cons, hlink, ih]
    split <;> simp

theorem Graph.foldl_addUsages_collect (options : GraphOptions) (symbols : List Symbol)
    (nodes : List GraphNode) (edges : List GraphEdge) :
    symbols.foldl (Graph.addUsages options) (Graph.collect nodes edges) =
      Graph.collect (nodes ++ symbols.flatMap (Symbol.fileNodes options))
        (edges ++ symbols.flatMap (Symbol.edges options)) := by
  induction symbols generalizing nodes edges with
  | nil => simp
  | cons s symbols ih =>
    rw [List.foldl_cons, Graph.addUsages_collect, ih, List.flatMap_cons, List.flatMap_cons,
      List.append_assoc, List.append_assoc]

/-- A link leads to the file of a use, and is of the kind of that use. -/
theorem Symbol.exists_usage_of_mem_fileLinks {l : FileLink} (h : l ∈ s.fileLinks options) :
    ∃ u ∈ s.usages, displayPath u.filePath options.root = l.path ∧ l.kind = u.kind := by
  unfold Symbol.fileLinks at h
  split at h
  · have hmem := mem_of_mem_firstPerKey FileLink.path (List.mem_mergeSort.mp h)
    obtain ⟨u, hu, rfl⟩ := List.mem_map.mp hmem
    exact ⟨u, hu, rfl, rfl⟩
  · obtain ⟨u, hu, rfl⟩ := List.mem_map.mp h
    exact ⟨u, hu, rfl, rfl⟩

/-- Every use has a link to its file, and without grouping one of its kind. -/
theorem Symbol.exists_fileLink_of_mem_usages (options : GraphOptions) {u : Usage}
    (h : u ∈ s.usages) :
    ∃ l ∈ s.fileLinks options, l.path = displayPath u.filePath options.root ∧
      (options.groupByFile = false → l.kind = u.kind) := by
  unfold Symbol.fileLinks
  split
  · next hgroup =>
    have hkey := (key_mem_map_firstPerKey_iff FileLink.path).mpr (List.mem_map_of_mem
      (List.mem_map_of_mem (f := fun u : Usage =>
        FileLink.mk (displayPath u.filePath options.root) u.kind u.kind.name) h))
    obtain ⟨l, hl, hpath⟩ := List.mem_map.mp hkey
    refine ⟨l, List.mem_mergeSort.mpr hl, hpath, fun hnot => ?_⟩
    rw [hgroup] at hnot
    cases hnot
  · exact ⟨_, List.mem_map_of_mem h, rfl, fun _ => rfl⟩

end Links

section Roots

variable {options : GraphOptions} {symbols : List Symbol} {s : Symbol}

/-- The nodes of definitions in a graph: one for each id, in the order of the definitions, as many of
them as there is room for. -/
def rootNodes (symbols : List Symbol) (options : GraphOptions) : List GraphNode :=
  (firstPerKey GraphNode.id [] (symbols.map Symbol.node)).take options.maxNodes

/-- The definition is one of those with a node. A file whose id is the same does not count. -/
def Symbol.HasRoot (symbols : List Symbol) (options : GraphOptions) (s : Symbol) : Prop :=
  s.nodeId ∈ (rootNodes symbols options).map GraphNode.id

instance (symbols : List Symbol) (options : GraphOptions) :
    DecidablePred (Symbol.HasRoot symbols options) :=
  fun _ => inferInstanceAs (Decidable (_ ∈ _))

/-- The definitions with a node. -/
def shownSymbols (symbols : List Symbol) (options : GraphOptions) : List Symbol :=
  symbols.filter (Symbol.HasRoot symbols options ·)

theorem mem_shownSymbols : s ∈ shownSymbols symbols options ↔
    s ∈ symbols ∧ s.HasRoot symbols options := by
  rw [shownSymbols, List.mem_filter, decide_eq_true_iff]

theorem nodup_rootNodes (symbols : List Symbol) (options : GraphOptions) :
    ((rootNodes symbols options).map GraphNode.id).Nodup :=
  (nodup_map_firstPerKey GraphNode.id [] _).sublist ((List.take_sublist _ _).map GraphNode.id)

theorem rootNodes_of_room (hroom : (rootNodes symbols options).length < options.maxNodes) :
    rootNodes symbols options = firstPerKey GraphNode.id [] (symbols.map Symbol.node) := by
  rw [rootNodes, List.length_take] at hroom
  exact List.take_of_length_le (by omega)

/-- Where no node is left out every definition has one. -/
theorem shownSymbols_of_all
    (hall : rootNodes symbols options = firstPerKey GraphNode.id [] (symbols.map Symbol.node)) :
    shownSymbols symbols options = symbols := by
  apply List.filter_eq_self.mpr
  intro s hs
  rw [decide_eq_true_iff, Symbol.HasRoot, hall, key_mem_map_firstPerKey_iff]
  exact List.mem_map_of_mem (List.mem_map_of_mem hs)

theorem firstPerKey_map_node_concat_of_mem (h : s.nodeId ∈ (symbols.map Symbol.node).map GraphNode.id) :
    firstPerKey GraphNode.id [] ((symbols ++ [s]).map Symbol.node) =
      firstPerKey GraphNode.id [] (symbols.map Symbol.node) := by
  obtain ⟨n, hn, hid⟩ := List.mem_map.mp h
  rw [List.map_append]
  apply firstPerKey_append_of_covered
  intro a ha
  obtain rfl : a = s.node := by simpa using ha
  exact Or.inr ⟨n, hn, hid⟩

theorem firstPerKey_map_node_concat_of_notMem
    (h : s.nodeId ∉ (symbols.map Symbol.node).map GraphNode.id) :
    firstPerKey GraphNode.id [] ((symbols ++ [s]).map Symbol.node) =
      firstPerKey GraphNode.id [] (symbols.map Symbol.node) ++ [s.node] := by
  rw [List.map_append]
  exact firstPerKey_concat_of_fresh _ List.not_mem_nil h

/-- A definition adds no node if its id has one. -/
theorem rootNodes_concat_of_hasRoot (h : s.HasRoot symbols options) :
    rootNodes (symbols ++ [s]) options = rootNodes symbols options := by
  have hmem : s.nodeId ∈ (symbols.map Symbol.node).map GraphNode.id :=
    (key_mem_map_firstPerKey_iff GraphNode.id).mp
      (((List.take_sublist _ _).map GraphNode.id).subset h)
  rw [rootNodes, rootNodes, firstPerKey_map_node_concat_of_mem hmem]

/-- A definition adds no node if there is no room left. -/
theorem rootNodes_concat_of_full (h : ¬ (rootNodes symbols options).length < options.maxNodes) :
    rootNodes (symbols ++ [s]) options = rootNodes symbols options := by
  unfold rootNodes at h ⊢
  rw [List.length_take] at h
  by_cases hmem : s.nodeId ∈ (symbols.map Symbol.node).map GraphNode.id
  · rw [firstPerKey_map_node_concat_of_mem hmem]
  · rw [firstPerKey_map_node_concat_of_notMem hmem]
    exact List.take_append_of_le_length (by omega)

/-- Else its node comes behind the others, and none is left out. -/
theorem rootNodes_concat_of_room (hroom : (rootNodes symbols options).length < options.maxNodes)
    (hnew : ¬ s.HasRoot symbols options) :
    rootNodes (symbols ++ [s]) options = rootNodes symbols options ++ [s.node] ∧
      rootNodes (symbols ++ [s]) options =
        firstPerKey GraphNode.id [] ((symbols ++ [s]).map Symbol.node) := by
  have hall := rootNodes_of_room hroom
  have hnotMem : s.nodeId ∉ (symbols.map Symbol.node).map GraphNode.id := by
    intro hmem
    apply hnew
    rw [Symbol.HasRoot, hall]
    exact (key_mem_map_firstPerKey_iff GraphNode.id).mpr hmem
  have hconcat := firstPerKey_map_node_concat_of_notMem hnotMem
  have htake : rootNodes (symbols ++ [s]) options =
      firstPerKey GraphNode.id [] ((symbols ++ [s]).map Symbol.node) := by
    apply List.take_of_length_le
    rw [hconcat, ← hall, List.length_append]
    exact hroom
  exact ⟨by rw [htake, hconcat, hall], htake⟩

/-- Definitions that add no node are among those with one as far as their ids have nodes already. -/
theorem shownSymbols_append {more : List Symbol}
    (h : rootNodes (symbols ++ more) options = rootNodes symbols options) :
    shownSymbols (symbols ++ more) options =
      shownSymbols symbols options ++ more.filter (Symbol.HasRoot symbols options ·) := by
  have hroot : ∀ t : Symbol, t.HasRoot (symbols ++ more) options ↔ t.HasRoot symbols options := by
    intro t
    rw [Symbol.HasRoot, Symbol.HasRoot, h]
  simp only [shownSymbols, hroot, List.filter_append]

/-- One more definition leads from the state for those before it to the state for them all. -/
theorem seed_rootNodes (symbols : List Symbol) (options : GraphOptions) (s : Symbol) :
    seed options (⟨rootNodes symbols options, []⟩, (shownSymbols symbols options).reverse) s =
      (⟨rootNodes (symbols ++ [s]) options, []⟩, (shownSymbols (symbols ++ [s]) options).reverse) := by
  have hnode : (Graph.mk (rootNodes symbols options) []).hasNode s.nodeId = true ↔
      s.HasRoot symbols options := Graph.hasNode_iff
  simp only [seed, hnode]
  split
  · next hold =>
    have hroots := rootNodes_concat_of_hasRoot hold
    rw [shownSymbols_append hroots, List.filter_cons_of_pos (by simpa using hold), hroots,
      List.reverse_append]
    rfl
  · next hnew =>
    split
    · next hroom =>
      obtain ⟨hroots, hall⟩ := rootNodes_concat_of_room hroom hnew
      have hthere : ¬ (Graph.mk (rootNodes symbols options) []).hasNode s.node.id = true :=
        fun h => hnew (hnode.mp h)
      rw [shownSymbols_of_all hall, shownSymbols_of_all (rootNodes_of_room hroom), hroots,
        List.reverse_append, Graph.addNode, if_neg hthere]
      rfl
    · next hfull =>
      have hroots := rootNodes_concat_of_full (s := s) hfull
      rw [shownSymbols_append hroots, List.filter_cons_of_neg (by simpa using hnew), hroots,
        List.filter_nil, List.append_nil]

/-- Seeding a graph adds the nodes of definitions, and keeps the definitions that have one. -/
theorem foldl_seed (symbols : List Symbol) (options : GraphOptions) :
    symbols.foldl (seed options) ({}, []) =
      (⟨rootNodes symbols options, []⟩, (shownSymbols symbols options).reverse) := by
  induction symbols using List.reverseRecOn with
  | nil => simp [rootNodes, shownSymbols, firstPerKey]
  | append_singleton symbols s ih =>
    rw [List.foldl_append, ih, List.foldl_cons, List.foldl_nil, seed_rootNodes]

/-- The graph of a list of definitions holds their nodes, then the nodes of the files that use those
with a node, and the edges between these. -/
theorem Graph.ofSymbols_eq (symbols : List Symbol) (options : GraphOptions) :
    Graph.ofSymbols symbols options =
      Graph.collect
        (rootNodes symbols options ++ (shownSymbols symbols options).flatMap (Symbol.fileNodes options))
        ((shownSymbols symbols options).flatMap (Symbol.edges options)) := by
  have hroots : (⟨rootNodes symbols options, []⟩ : Graph) =
      Graph.collect (rootNodes symbols options) [] := by
    obtain ⟨files, hfiles, hsublist⟩ := exists_firstPerKey_append GraphNode.id
      (nodup_rootNodes symbols options) []
    rw [List.append_nil, List.sublist_nil.mp hsublist, List.append_nil] at hfiles
    rw [Graph.collect, hfiles]
    rfl
  rw [Graph.ofSymbols, foldl_seed]
  dsimp only
  rw [List.reverse_reverse, hroots, Graph.foldl_addUsages_collect, List.nil_append]

end Roots

section OfSymbols

variable {options : GraphOptions} {symbols : List Symbol} {s : Symbol} {e : GraphEdge}

/-- The edge joins a definition and a file. It runs from the definition to the file exactly if the
definition is extended or implemented there. -/
def GraphEdge.Joins (e : GraphEdge) (symbolId fileId : String) : Prop :=
  if e.kind = .extend ∨ e.kind = .implement then e.source = symbolId ∧ e.target = fileId
  else e.source = fileId ∧ e.target = symbolId

instance (e : GraphEdge) (symbolId fileId : String) : Decidable (e.Joins symbolId fileId) :=
  inferInstanceAs (Decidable (ite _ _ _))

theorem FileLink.kind_edge (symbolId : String) (l : FileLink) : (l.edge symbolId).kind = l.kind := by
  unfold FileLink.edge
  split <;> rfl

theorem FileLink.joins_edge (symbolId : String) (l : FileLink) :
    (l.edge symbolId).Joins symbolId (fileNodeId l.path) := by
  obtain ⟨path, kind, label⟩ := l
  cases kind <;> simp [FileLink.edge, GraphEdge.Joins]

/-- An edge of a definition joins it with the file of a use of the same kind, -/
theorem Symbol.exists_usage_of_mem_edges (h : e ∈ s.edges options) :
    ∃ u ∈ s.usages, e.kind = u.kind ∧
      e.Joins s.nodeId (fileNodeId (displayPath u.filePath options.root)) := by
  obtain ⟨l, hl, rfl⟩ := List.mem_map.mp h
  obtain ⟨u, hu, hpath, hkind⟩ := Symbol.exists_usage_of_mem_fileLinks hl
  refine ⟨u, hu, (FileLink.kind_edge s.nodeId l).trans hkind, ?_⟩
  rw [hpath]
  exact FileLink.joins_edge s.nodeId l

/-- and every use has such an edge. -/
theorem Symbol.exists_edge_of_mem_usages (options : GraphOptions) {u : Usage} (hu : u ∈ s.usages) :
    ∃ e ∈ s.edges options,
      e.Joins s.nodeId (fileNodeId (displayPath u.filePath options.root)) ∧
        (options.groupByFile = false → e.kind = u.kind) := by
  obtain ⟨l, hl, hpath, hkind⟩ := Symbol.exists_fileLink_of_mem_usages options hu
  refine ⟨l.edge s.nodeId, List.mem_map_of_mem hl, ?_, ?_⟩
  · rw [← hpath]
    exact FileLink.joins_edge s.nodeId l
  · rw [FileLink.kind_edge]
    exact hkind

/-- If files are nodes, the file of every use is one. -/
theorem Symbol.mem_fileNodes_iff {n : GraphNode} : n ∈ s.fileNodes options ↔
    options.includeFiles = true ∧ ∃ u ∈ s.usages,
      n = ⟨fileNodeId (displayPath u.filePath options.root), displayPath u.filePath options.root,
        .file⟩ := by
  unfold Symbol.fileNodes
  split
  · next h =>
    rw [List.mem_map]
    constructor
    · rintro ⟨l, hl, rfl⟩
      obtain ⟨u, hu, hpath, -⟩ := Symbol.exists_usage_of_mem_fileLinks hl
      exact ⟨h, u, hu, by rw [hpath]⟩
    · rintro ⟨-, u, hu, rfl⟩
      obtain ⟨l, hl, hpath, -⟩ := Symbol.exists_fileLink_of_mem_usages options hu
      exact ⟨l, hl, by rw [hpath]⟩
  · next h => simp [h]

namespace Graph

theorem mem_edges_ofSymbols_iff : e ∈ (ofSymbols symbols options).edges ↔
    ∃ s ∈ symbols, s.HasRoot symbols options ∧ e ∈ s.edges options := by
  simp only [ofSymbols_eq, mem_edges_collect_iff, List.mem_flatMap, mem_shownSymbols, and_assoc]

theorem hasNode_ofSymbols_iff {id : String} : (ofSymbols symbols options).hasNode id = true ↔
    id ∈ (rootNodes symbols options).map GraphNode.id ∨
      ∃ s ∈ symbols, s.HasRoot symbols options ∧ ∃ n ∈ s.fileNodes options, n.id = id := by
  rw [hasNode_iff, ofSymbols_eq, id_mem_collect_iff, List.map_append, List.mem_append]
  simp only [List.mem_map, List.mem_flatMap, mem_shownSymbols, and_assoc]
  apply or_congr_right
  constructor
  · rintro ⟨n, ⟨s, hs, hroot, hn⟩, hid⟩
    exact ⟨s, hs, hroot, n, hn, hid⟩
  · rintro ⟨s, hs, hroot, n, hn, hid⟩
    exact ⟨n, ⟨s, hs, hroot, hn⟩, hid⟩

/-- The nodes of definitions come first, and behind them only nodes of files that use one of the
definitions with a node. -/
theorem exists_nodes_ofSymbols (symbols : List Symbol) (options : GraphOptions) :
    ∃ files, (ofSymbols symbols options).nodes = rootNodes symbols options ++ files ∧
      ∀ n ∈ files, options.includeFiles = true ∧
        ∃ s ∈ symbols, s.HasRoot symbols options ∧ ∃ u ∈ s.usages,
          n = ⟨fileNodeId (displayPath u.filePath options.root), displayPath u.filePath options.root,
            .file⟩ := by
  obtain ⟨files, hfiles, hsublist⟩ := exists_firstPerKey_append GraphNode.id
    (nodup_rootNodes symbols options)
    ((shownSymbols symbols options).flatMap (Symbol.fileNodes options))
  refine ⟨files, by rw [ofSymbols_eq, collect, hfiles], fun n hn => ?_⟩
  obtain ⟨s, hs, hn⟩ := List.mem_flatMap.mp (hsublist.subset hn)
  obtain ⟨hsymbol, hroot⟩ := mem_shownSymbols.mp hs
  obtain ⟨hinclude, u, hu, rfl⟩ := Symbol.mem_fileNodes_iff.mp hn
  exact ⟨hinclude, s, hsymbol, hroot, u, hu, rfl⟩

/-- The nodes of a graph have distinct ids and its edges are distinct. It starts with a node for each
id among the definitions, in their order, as many as there is room for; the other nodes are files. An
edge joins a definition with a node and the file of a use of the same kind, every use of such a
definition has an edge, and if files are nodes, every edge runs between two nodes. -/
theorem ofSymbols_spec (symbols : List Symbol) (options : GraphOptions) :
    ((ofSymbols symbols options).nodes.map GraphNode.id).Nodup ∧
    (ofSymbols symbols options).edges.Nodup ∧
    (∃ files, (ofSymbols symbols options).nodes =
        (firstPerKey GraphNode.id [] (symbols.map Symbol.node)).take options.maxNodes ++ files ∧
      ∀ n ∈ files, options.includeFiles = true ∧
        ∃ s ∈ symbols, s.HasRoot symbols options ∧ ∃ u ∈ s.usages,
          n = ⟨fileNodeId (displayPath u.filePath options.root), displayPath u.filePath options.root,
            .file⟩) ∧
    (∀ e ∈ (ofSymbols symbols options).edges, ∃ s ∈ symbols, s.HasRoot symbols options ∧
      ∃ u ∈ s.usages, e.kind = u.kind ∧
        e.Joins s.nodeId (fileNodeId (displayPath u.filePath options.root))) ∧
    (∀ s ∈ symbols, s.HasRoot symbols options → ∀ u ∈ s.usages,
      ∃ e ∈ (ofSymbols symbols options).edges,
        e.Joins s.nodeId (fileNodeId (displayPath u.filePath options.root)) ∧
          (options.groupByFile = false → e.kind = u.kind)) ∧
    (options.includeFiles = true → ∀ e ∈ (ofSymbols symbols options).edges,
      (ofSymbols symbols options).hasNode e.source = true ∧
        (ofSymbols symbols options).hasNode e.target = true) := by
  refine ⟨?_, ?_, exists_nodes_ofSymbols symbols options, ?_, ?_, ?_⟩
  · rw [ofSymbols_eq]
    exact nodup_map_firstPerKey GraphNode.id [] _
  · have hdistinct := nodup_map_firstPerKey id []
      ((shownSymbols symbols options).flatMap (Symbol.edges options))
    rw [List.map_id] at hdistinct
    rw [ofSymbols_eq]
    exact hdistinct
  · intro e he
    obtain ⟨s, hs, hroot, he⟩ := mem_edges_ofSymbols_iff.mp he
    exact ⟨s, hs, hroot, Symbol.exists_usage_of_mem_edges he⟩
  · intro s hs hroot u hu
    obtain ⟨e, he, hjoins⟩ := Symbol.exists_edge_of_mem_usages options hu
    exact ⟨e, mem_edges_ofSymbols_iff.mpr ⟨s, hs, hroot, he⟩, hjoins⟩
  · intro hinclude e he
    obtain ⟨s, hs, hroot, he⟩ := mem_edges_ofSymbols_iff.mp he
    obtain ⟨u, hu, -, hjoins⟩ := Symbol.exists_usage_of_mem_edges he
    have hsymbol : (ofSymbols symbols options).hasNode s.nodeId = true :=
      hasNode_ofSymbols_iff.mpr (Or.inl hroot)
    have hfile : (ofSymbols symbols options).hasNode
        (fileNodeId (displayPath u.filePath options.root)) = true :=
      hasNode_ofSymbols_iff.mpr (Or.inr ⟨s, hs, hroot, _,
        Symbol.mem_fileNodes_iff.mpr ⟨hinclude, u, hu, rfl⟩, rfl⟩)
    unfold GraphEdge.Joins at hjoins
    split at hjoins
    · rw [hjoins.1, hjoins.2]
      exact ⟨hsymbol, hfile⟩
    · rw [hjoins.1, hjoins.2]
      exact ⟨hfile, hsymbol⟩

end Graph

end OfSymbols

section Repeated

variable {options : GraphOptions} {symbols : List Symbol} {s : Symbol}

theorem rootNodes_append_self (symbols : List Symbol) (options : GraphOptions) :
    rootNodes (symbols ++ symbols) options = rootNodes symbols options := by
  rw [rootNodes, List.map_append, firstPerKey_append_of_covered _ fun a ha => Or.inr ⟨a, ha, rfl⟩]
  rfl

/-- With more room a definition keeps its node. -/
theorem Symbol.HasRoot.mono (h : s.HasRoot symbols options) {room : Nat}
    (hroom : options.maxNodes ≤ room) : s.HasRoot symbols { options with maxNodes := room } :=
  ((List.take_prefix_take_left hroom).sublist.map GraphNode.id).subset h

/-- A list of definitions that stands twice makes the same graph, and with room for more definitions
no node and no edge is lost. -/
theorem Graph.ofSymbols_repeated_and_more (symbols : List Symbol) (options : GraphOptions) :
    Graph.ofSymbols (symbols ++ symbols) options = Graph.ofSymbols symbols options ∧
    ∀ room, options.maxNodes ≤ room →
      (∀ id, (Graph.ofSymbols symbols options).hasNode id = true →
        (Graph.ofSymbols symbols { options with maxNodes := room }).hasNode id = true) ∧
      ∀ e ∈ (Graph.ofSymbols symbols options).edges,
        e ∈ (Graph.ofSymbols symbols { options with maxNodes := room }).edges := by
  constructor
  · rw [Graph.ofSymbols_eq, Graph.ofSymbols_eq, rootNodes_append_self,
      shownSymbols_append (rootNodes_append_self symbols options), ← shownSymbols,
      List.flatMap_append, List.flatMap_append, ← List.append_assoc, Graph.collect, Graph.collect,
      firstPerKey_append_of_covered _ fun n hn => Or.inr ⟨n, List.mem_append_right _ hn, rfl⟩,
      firstPerKey_append_of_covered _ fun e he => Or.inr ⟨e, he, rfl⟩]
  · intro room hroom
    constructor
    · intro id hid
      rw [Graph.hasNode_ofSymbols_iff] at hid ⊢
      rcases hid with hid | ⟨s, hs, hroot, hfiles⟩
      · exact Or.inl (((List.take_prefix_take_left hroom).sublist.map GraphNode.id).subset hid)
      · exact Or.inr ⟨s, hs, hroot.mono hroom, hfiles⟩
    · intro e he
      rw [Graph.mem_edges_ofSymbols_iff] at he ⊢
      obtain ⟨s, hs, hroot, he⟩ := he
      exact ⟨s, hs, hroot.mono hroom, he⟩

end Repeated

end Concordance
