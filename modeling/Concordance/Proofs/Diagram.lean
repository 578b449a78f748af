import Concordance.Block.Parts
import Concordance.Proofs.Text.Lines
import Concordance.Proofs.Text.Occurrence
import Concordance.Proofs.Text.Trim

/-!
The lines of a diagram: each is the header, a node or an edge, none is empty, and none ends or looks
like the line that closes the diagram.

Main statement: `diagramLines_spec`, for a symbol whose name and whose paths hold no line feed.
-/

namespace Concordance

open Text

section Ids

/-- A character of a node id. -/
def IdChar (c : Char) : Prop :=
  c.isAlphanum = true ∨ c = '_'

instance (c : Char) : Decidable (IdChar c) :=
  inferInstanceAs (Decidable (c.isAlphanum = true ∨ c = '_'))

theorem IdChar.isIdentChar {c : Char} (h : IdChar c) : isIdentChar c = true := by
  rcases h with h | rfl
  · simp [Text.isIdentChar, isAlphanumeric_of_isAlphanum (toNat_lt_of_isAlphanum h) h]
  · decide

theorem IdChar.not_blank {c : Char} (h : IdChar c) : isBlank c = false := by
  rw [Bool.eq_false_iff]
  intro hblank
  exact absurd h.isIdentChar (Bool.eq_false_iff.mp (isIdentChar_of_isBlank hblank))

theorem IdChar.ne_backtick {c : Char} (h : IdChar c) : c ≠ '`' := by
  rintro rfl
  exact absurd h (by decide)

/-- An id of a node: letters, digits and `_`, at least one of them. -/
def IsNodeId (id : String) : Prop :=
  id.toList ≠ [] ∧ ∀ c ∈ id.toList, IdChar c

instance (id : String) : Decidable (IsNodeId id) :=
  inferInstanceAs (Decidable (id.toList ≠ [] ∧ ∀ c ∈ id.toList, IdChar c))

theorem isNodeId_nodeId (name : String) : IsNodeId (nodeId name) := by
  have hmap : ∀ c ∈ name.toList.map (fun c => if c.isAlphanum then c else '_'), IdChar c := by
    intro c hc
    obtain ⟨d, -, rfl⟩ := List.mem_map.mp hc
    split
    · next h => exact Or.inl h
    · exact Or.inr rfl
  unfold IsNodeId nodeId
  generalize name.toList.map (fun c => if c.isAlphanum then c else '_') = id at hmap
  dsimp only
  split
  · exact ⟨by decide, by simp [IdChar]⟩
  · next hne =>
    split
    · rw [String.toList_ofList]
      refine ⟨by simp, ?_⟩
      intro c hc
      rcases List.mem_append.mp hc with hc | hc
      · exact hmap c hc
      · exact Or.inr (by simpa using hc)
    · rw [String.toList_ofList]
      exact ⟨by simpa using hne, hmap⟩

end Ids

section Lines

/-- A line that a diagram may hold: it is not empty, trimmed at its end, and does not close the
diagram. -/
def DiagramLine (line : List Char) : Prop :=
  line ≠ [] ∧ '\n' ∉ line ∧ trimEnd line = line ∧ trim line ≠ BlockParts.fenceClose

/-- A line that starts with an id after the margin and ends with no white space. -/
theorem diagramLine_of_id {id middle : List Char} {last : Char} (hne : id ≠ [])
    (hid : ∀ c ∈ id, IdChar c) (hmiddle : '\n' ∉ middle) (hlast : isBlank last = false) :
    DiagramLine (Diagram.margin ++ id ++ middle ++ [last]) := by
  have hblank : ∀ {c : Char}, isBlank c = false → c ≠ '\n' := by
    rintro c hc rfl
    exact absurd hc (by decide)
  refine ⟨by simp, ?_, trimEnd_concat _ hlast, ?_⟩
  · simp only [List.mem_append, List.mem_singleton, not_or]
    refine ⟨⟨⟨by decide, fun hmem => ?_⟩, hmiddle⟩, (hblank hlast).symm⟩
    exact hblank (hid '\n' hmem).not_blank rfl
  · obtain ⟨c, rest, rfl⟩ := List.exists_cons_of_ne_nil hne
    have hc := hid c List.mem_cons_self
    have hmargin : AllBlank Diagram.margin := List.all_eq_true.mp (by decide)
    rw [List.append_assoc, List.append_assoc, List.cons_append, trim_of_head hmargin hc.not_blank]
    intro heq
    exact hc.ne_backtick (List.cons.inj heq).1

theorem shape_spec (kind : SymbolKind) :
    '\n' ∉ (Diagram.shape kind).1 ∧ ∃ front last, (Diagram.shape kind).2 = front ++ [last] ∧
      '\n' ∉ front ∧ isBlank last = false := by
  cases kind
  all_goals
    refine ⟨by decide, ?_⟩
    first
      | exact ⟨[], _, rfl, by decide, by decide⟩
      | exact ⟨[_], _, rfl, by decide, by decide⟩

theorem newline_notMem_escapeLabel {label : List Char} (h : '\n' ∉ label) :
    '\n' ∉ Diagram.escapeLabel label := by
  intro hmem
  obtain ⟨c, hc, hin⟩ := List.mem_flatMap.mp hmem
  split at hin
  · exact absurd hin (by decide)
  · obtain rfl : '\n' = c := by simpa using hin
    exact h hc

theorem diagramLine_nodeLine {n : GraphNode} (hid : IsNodeId n.id)
    (hlabel : '\n' ∉ n.label.toList) : DiagramLine (Diagram.nodeLine n) := by
  obtain ⟨hleft, front, last, hright, hfront, hlast⟩ := shape_spec n.kind
  have hshape : Diagram.nodeLine n = Diagram.margin ++ n.id.toList ++
      ((Diagram.shape n.kind).1 ++ ['"'] ++ Diagram.escapeLabel n.label.toList ++ ['"'] ++ front) ++
        [last] := by
    simp only [Diagram.nodeLine, hright, List.append_assoc]
  rw [hshape]
  apply diagramLine_of_id hid.1 hid.2 _ hlast
  have := newline_notMem_escapeLabel hlabel
  simp [hleft, hfront, this]

theorem diagramLine_edgeLine {e : GraphEdge} (showLabels : Bool) (hsource : IsNodeId e.source)
    (htarget : IsNodeId e.target) (hlabel : showLabels = true → ∀ l ∈ e.label, '\n' ∉ l.toList) :
    DiagramLine (Diagram.edgeLine showLabels e) := by
  obtain ⟨hne, htarget⟩ := htarget
  have hends := List.dropLast_append_getLast hne
  have hlast := htarget _ (List.getLast_mem hne)
  have hfront : '\n' ∉ e.target.toList.dropLast := fun hmem =>
    absurd (htarget '\n' ((List.dropLast_prefix _).mem hmem)).not_blank (by decide)
  have harrow : '\n' ∉ Diagram.arrow e.kind := by cases e.kind <;> decide
  obtain ⟨written, hwritten, hline⟩ : ∃ written, '\n' ∉ written ∧ Diagram.edgeLine showLabels e =
      Diagram.margin ++ e.source.toList ++ [' '] ++ Diagram.arrow e.kind ++ written ++ [' '] ++
        e.target.toList := by
    refine ⟨_, ?_, rfl⟩
    cases hl : e.label with
    | none => simp
    | some label =>
      cases showLabels with
      | false => simp
      | true =>
        have := newline_notMem_escapeLabel (hlabel rfl label hl)
        simp [this]
  have hshape : Diagram.edgeLine showLabels e = Diagram.margin ++ e.source.toList ++
      ([' '] ++ Diagram.arrow e.kind ++ written ++ [' '] ++ e.target.toList.dropLast) ++
        [e.target.toList.getLast hne] := by
    simp only [hline, List.append_assoc, hends]
  rw [hshape]
  apply diagramLine_of_id hsource.1 hsource.2 _ hlast.not_blank
  simp only [List.mem_append, not_or]
  exact ⟨⟨⟨⟨by decide, harrow⟩, hwritten⟩, by decide⟩, hfront⟩

theorem diagramLine_header (options : DiagramOptions) : DiagramLine (Diagram.header options) := by
  obtain ⟨type, direction, showLabels⟩ := options
  cases showLabels <;> cases type <;> cases direction <;>
    exact ⟨by decide, by decide, by decide, by decide⟩

end Lines

section OfSymbol

/-- Every node and edge of the graph can be written on a line. -/
structure Graph.OneLine (g : Graph) : Prop where
  nodes : ∀ n ∈ g.nodes, IsNodeId n.id ∧ '\n' ∉ n.label.toList
  edges : ∀ e ∈ g.edges, IsNodeId e.source ∧ IsNodeId e.target ∧ ∀ l ∈ e.label, '\n' ∉ l.toList

theorem Graph.OneLine.addNode {g : Graph} (h : g.OneLine) {n : GraphNode}
    (hn : IsNodeId n.id ∧ '\n' ∉ n.label.toList) : (g.addNode n).OneLine := by
  unfold Graph.addNode
  split
  · exact h
  · refine ⟨fun m hm => ?_, h.edges⟩
    rcases List.mem_append.mp hm with hm | hm
    · exact h.nodes m hm
    · obtain rfl : m = n := by simpa using hm
      exact hn

theorem Graph.OneLine.addEdge {g : Graph} (h : g.OneLine) {e : GraphEdge}
    (he : IsNodeId e.source ∧ IsNodeId e.target ∧ ∀ l ∈ e.label, '\n' ∉ l.toList) :
    (g.addEdge e).OneLine := by
  unfold Graph.addEdge
  split
  · exact h
  · refine ⟨h.nodes, fun f hf => ?_⟩
    rcases List.mem_append.mp hf with hf | hf
    · exact h.edges f hf
    · obtain rfl : f = e := by simpa using hf
      exact he

/-- A link that can be written on a line. -/
def FileLink.OneLine (l : FileLink) : Prop :=
  '\n' ∉ l.path.toList ∧ '\n' ∉ l.label.toList

theorem FileLink.OneLine.edge {l : FileLink} (h : l.OneLine) (name : String) :
    IsNodeId (l.edge (nodeId name)).source ∧ IsNodeId (l.edge (nodeId name)).target ∧
      ∀ label ∈ (l.edge (nodeId name)).label, '\n' ∉ label.toList := by
  unfold FileLink.edge
  split
  · exact ⟨isNodeId_nodeId _, isNodeId_nodeId _, by simpa using h.2⟩
  · exact ⟨isNodeId_nodeId _, isNodeId_nodeId _, by simpa using h.2⟩
  · exact ⟨isNodeId_nodeId _, isNodeId_nodeId _, by simpa using h.2⟩

theorem Graph.OneLine.addLinks {options : GraphOptions} {name : String} {links : List FileLink}
    (hlinks : ∀ l ∈ links, l.OneLine) {g : Graph} (h : g.OneLine) :
    (links.foldl (Graph.addLink options (nodeId name)) g).OneLine := by
  induction links generalizing g with
  | nil => exact h
  | cons l links ih =>
    have hl := hlinks l List.mem_cons_self
    apply ih fun k hk => hlinks k (List.mem_cons_of_mem l hk)
    apply Graph.OneLine.addEdge _ (hl.edge name)
    split
    · exact h.addNode ⟨isNodeId_nodeId _, hl.1⟩
    · exact h

theorem oneLine_of_mem_fileLinks {s : Symbol} {options : GraphOptions}
    (hpaths : ∀ u ∈ s.usages, '\n' ∉ (displayPath u.filePath options.root).toList)
    {l : FileLink} (hl : l ∈ s.fileLinks options) : l.OneLine := by
  have hkind : ∀ kind : UsageKind, '\n' ∉ kind.name.toList := by
    intro kind
    cases kind <;> decide
  unfold Symbol.fileLinks at hl
  split at hl
  · have hmem := mem_of_mem_firstPerKey FileLink.path (List.mem_mergeSort.mp hl)
    obtain ⟨u, hu, rfl⟩ := List.mem_map.mp hmem
    exact ⟨hpaths u hu, hkind u.kind⟩
  · obtain ⟨u, hu, rfl⟩ := List.mem_map.mp hl
    refine ⟨hpaths u hu, ?_⟩
    have hdigits : '\n' ∉ (toString (u.position.line + 1)).toList := by
      intro hmem
      rw [show toString (u.position.line + 1) = Nat.repr (u.position.line + 1) from rfl,
        Nat.repr, String.toList_ofList] at hmem
      exact absurd (Nat.isDigit_of_mem_toDigits (by decide) (by decide) hmem) (by decide)
    simp only [String.toList_append, List.mem_append, not_or]
    exact ⟨⟨hkind u.kind, by decide⟩, hdigits⟩

theorem Graph.oneLine_ofSymbol {s : Symbol} {options : GraphOptions} (hname : '\n' ∉ s.name.toList)
    (hpaths : ∀ u ∈ s.usages, '\n' ∉ (displayPath u.filePath options.root).toList) :
    (Graph.ofSymbol s options).OneLine := by
  have hempty : (Graph.mk [] []).OneLine := ⟨by simp, by simp⟩
  exact Graph.OneLine.addLinks (fun l hl => oneLine_of_mem_fileLinks hpaths hl)
    (hempty.addNode ⟨isNodeId_nodeId s.name, hname⟩)

/-- Every line of a diagram is a line that a diagram may hold. -/
theorem diagramLines_spec {s : Symbol} {options : BlockOptions} (hname : '\n' ∉ s.name.toList)
    (hpaths : ∀ u ∈ s.usages, '\n' ∉ (displayPath u.filePath options.graph.root).toList) :
    ∀ line ∈ s.diagramLines options, DiagramLine line := by
  have hgraph := Graph.oneLine_ofSymbol hname hpaths
  generalize hg : Graph.ofSymbol s options.graph = g at hgraph
  have hall : ∀ line ∈ Diagram.header options.diagram ::
      (g.nodes.map Diagram.nodeLine ++ g.edges.map (Diagram.edgeLine options.diagram.showLabels)),
      DiagramLine line := by
    intro line hline
    simp only [List.mem_cons, List.mem_append, List.mem_map] at hline
    rcases hline with rfl | ⟨n, hn, rfl⟩ | ⟨e, he, rfl⟩
    · exact diagramLine_header options.diagram
    · exact diagramLine_nodeLine (hgraph.nodes n hn).1 (hgraph.nodes n hn).2
    · obtain ⟨hsource, htarget, hlabel⟩ := hgraph.edges e he
      exact diagramLine_edgeLine _ hsource htarget fun _ => hlabel
  intro line hline
  rw [Symbol.diagramLines, hg, Diagram.render, lines_intercalate] at hline
  · exact hall line hline
  · intro l hl
    obtain ⟨hne, hnewline, htrimmed, -⟩ := hall l hl
    exact ⟨hne, hnewline, not_suffix_of_trimEnd (by decide) htrimmed⟩

end OfSymbol

end Concordance
