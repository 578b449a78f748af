import Concordance.Proofs.Diagram

/-!
What a diagram tells of its graph.

A line of a diagram has an id behind the margin, and what follows the id tells a node from an edge. The
line of a node gives the node back, the line of an edge its ends and its arrow; so nodes, ends and
arrows can be read off a diagram without labels at its edges. Main statement: `render_eq_iff`.
-/

namespace Concordance

open Text

/-- Ids are ids of nodes, and the labels of nodes are written as they are, each on its line. -/
structure Graph.Plain (g : Graph) : Prop where
  node : ∀ n ∈ g.nodes, IsNodeId n.id ∧ '"' ∉ n.label.toList ∧ '\n' ∉ n.label.toList
  edge : ∀ e ∈ g.edges, IsNodeId e.source ∧ IsNodeId e.target

/-- What is shown of an edge without its label: its ends and its arrow. -/
def GraphEdge.shown (e : GraphEdge) : String × List Char × String :=
  (e.source, Diagram.arrow e.kind, e.target)

namespace Diagram

section Lines

variable {n m : GraphNode} {e f : GraphEdge}

theorem nodeLine_eq (n : GraphNode) :
    nodeLine n = margin ++ (n.id.toList ++
      ((shape n.kind).1 ++ '"' :: (escapeLabel n.label.toList ++ '"' :: (shape n.kind).2))) := by
  simp [nodeLine]

theorem edgeLine_eq (e : GraphEdge) :
    edgeLine false e =
      margin ++ (e.source.toList ++ ' ' :: (arrow e.kind ++ ' ' :: e.target.toList)) := by
  cases h : e.label <;> simp [edgeLine, h]

theorem shape_injective {k k' : SymbolKind} (h : (shape k).1 = (shape k').1) : k = k' := by
  revert h
  cases k <;> cases k' <;> decide

/-- Brackets follow the id of a node. -/
theorem bracket_of_mem_head? (kind : SymbolKind) (rest : List Char) :
    ∀ c ∈ ((shape kind).1 ++ rest).head?, ¬ IdChar c ∧ c ≠ ' ' := by
  unfold IdChar
  cases kind <;> simp [shape]

/-- A space follows the first id of an edge. -/
theorem not_idChar_of_mem_head? (rest : List Char) : ∀ c ∈ (' ' :: rest).head?, ¬ IdChar c := by
  unfold IdChar
  simp

theorem nodeLine_ne_edgeLine (hn : IsNodeId n.id) (he : IsNodeId e.source) :
    nodeLine n ≠ edgeLine false e := by
  intro heq
  rw [nodeLine_eq, edgeLine_eq] at heq
  obtain ⟨-, hrest⟩ := append_inj_of_head hn.2 he.2 (fun c hc => (bracket_of_mem_head? _ _ c hc).1)
    (not_idChar_of_mem_head? _) (List.append_cancel_left heq)
  have hspace := bracket_of_mem_head? n.kind _ ' ' (by rw [hrest]; rfl)
  exact hspace.2 rfl

/-- The line of a node gives the node back: the brackets end at the first quote behind the id, and
the label at the second. -/
theorem nodeLine_inj (hn : IsNodeId n.id) (hm : IsNodeId m.id) (hnLabel : '"' ∉ n.label.toList)
    (hmLabel : '"' ∉ m.label.toList) (heq : nodeLine n = nodeLine m) : n = m := by
  have hquote : ∀ rest : List Char, ∀ c ∈ ('"' :: rest).head?, ¬ c ≠ '"' := by simp
  have hshape : ∀ kind : SymbolKind, ∀ c ∈ (shape kind).1, c ≠ '"' := by
    intro kind
    cases kind <;> decide
  rw [nodeLine_eq, nodeLine_eq, escapeLabel, escapeLabel, replaceChar_eq_self hnLabel,
    replaceChar_eq_self hmLabel] at heq
  obtain ⟨hid, hrest⟩ := append_inj_of_head hn.2 hm.2 (fun c hc => (bracket_of_mem_head? _ _ c hc).1)
    (fun c hc => (bracket_of_mem_head? _ _ c hc).1) (List.append_cancel_left heq)
  obtain ⟨hleft, hrest⟩ := append_inj_of_head (hshape n.kind) (hshape m.kind) (hquote _) (hquote _)
    hrest
  obtain ⟨hlabel, -⟩ := append_inj_of_head (fun c hc => ne_of_mem_of_not_mem hc hnLabel)
    (fun c hc => ne_of_mem_of_not_mem hc hmLabel) (hquote _) (hquote _) (List.cons.inj hrest).2
  obtain ⟨id, label, kind⟩ := n
  obtain rfl := String.toList_inj.mp hid
  obtain rfl := String.toList_inj.mp hlabel
  obtain rfl := shape_injective hleft
  rfl

/-- The line of an edge gives back its ends and its arrow. -/
theorem shown_eq_of_edgeLine_eq (he : IsNodeId e.source) (hf : IsNodeId f.source)
    (heq : edgeLine false e = edgeLine false f) : e.shown = f.shown := by
  have hspace : ∀ rest : List Char, ∀ c ∈ (' ' :: rest).head?, ¬ c ≠ ' ' := by simp
  have harrow : ∀ kind : UsageKind, ∀ c ∈ arrow kind, c ≠ ' ' := by
    intro kind
    cases kind <;> decide
  rw [edgeLine_eq, edgeLine_eq] at heq
  obtain ⟨hsource, hrest⟩ := append_inj_of_head he.2 hf.2 (not_idChar_of_mem_head? _)
    (not_idChar_of_mem_head? _) (List.append_cancel_left heq)
  obtain ⟨hmiddle, hrest⟩ := append_inj_of_head (harrow e.kind) (harrow f.kind) (hspace _) (hspace _)
    (List.cons.inj hrest).2
  rw [GraphEdge.shown, GraphEdge.shown, String.toList_inj.mp hsource, hmiddle,
    String.toList_inj.mp (List.cons.inj hrest).2]

end Lines

/-- Two lists that look alike under `f` look alike under `g`, if `f` tells their elements at least as
well apart. -/
theorem map_eq_map_of_forall {α β γ : Type} {f : α → β} {g : α → γ} {xs ys : List α}
    (h : ∀ a ∈ xs, ∀ b ∈ ys, f a = f b → g a = g b) (heq : xs.map f = ys.map f) :
    xs.map g = ys.map g := by
  induction xs generalizing ys with
  | nil =>
    obtain rfl := List.map_eq_nil_iff.mp heq.symm
    rfl
  | cons a xs ih =>
    cases ys with
    | nil => cases heq
    | cons b ys =>
      obtain ⟨hhead, htail⟩ := List.cons.inj heq
      have hrest := ih (fun x hx y hy => h x (List.mem_cons_of_mem a hx) y (List.mem_cons_of_mem b hy))
        htail
      rw [List.map_cons, List.map_cons, h a List.mem_cons_self b List.mem_cons_self hhead, hrest]

section Graphs

variable {g g' : Graph} {options : DiagramOptions}

theorem newline_notMem_lines (hg : g.Plain) (hoff : options.showLabels = false) :
    ∀ line ∈ header options :: (g.nodes.map nodeLine ++ g.edges.map (edgeLine options.showLabels)),
      '\n' ∉ line := by
  intro line hline
  simp only [List.mem_cons, List.mem_append, List.mem_map] at hline
  rcases hline with rfl | ⟨n, hn, rfl⟩ | ⟨e, he, rfl⟩
  · exact (diagramLine_header options).2.1
  · obtain ⟨hid, -, hlabel⟩ := hg.node n hn
    exact (diagramLine_nodeLine hid hlabel).2.1
  · obtain ⟨hsource, htarget⟩ := hg.edge e he
    have hlabels : options.showLabels = true → ∀ l ∈ e.label, '\n' ∉ l.toList := by simp [hoff]
    exact (diagramLine_edgeLine _ hsource htarget hlabels).2.1

/-- The line belongs to a node. -/
def IsNodeLine (line : List Char) : Prop :=
  ∃ n : GraphNode, IsNodeId n.id ∧ nodeLine n = line

theorem isNodeLine_of_mem (hg : g.Plain) : ∀ line ∈ g.nodes.map nodeLine, IsNodeLine line := by
  intro line hline
  obtain ⟨n, hn, rfl⟩ := List.mem_map.mp hline
  exact ⟨n, (hg.node n hn).1, rfl⟩

theorem not_isNodeLine_of_mem_head? (hg : g.Plain) :
    ∀ line ∈ (g.edges.map (edgeLine false)).head?, ¬ IsNodeLine line := by
  rintro line hline ⟨n, hn, rfl⟩
  obtain ⟨e, he, hedge⟩ := List.mem_map.mp (List.mem_of_mem_head? hline)
  exact nodeLine_ne_edgeLine hn (hg.edge e he).1 hedge.symm

/-- Two diagrams without labels at their edges are one text exactly if the nodes are the same, one by
one, and the edges have the same ends and arrows. -/
theorem render_eq_iff (hg : g.Plain) (hg' : g'.Plain) (hoff : options.showLabels = false) :
    render g options = render g' options ↔
      g.nodes = g'.nodes ∧ g.edges.map GraphEdge.shown = g'.edges.map GraphEdge.shown := by
  have hcut := List.splitOn_intercalate '\n' (newline_notMem_lines hg hoff) (List.cons_ne_nil _ _)
  have hcut' := List.splitOn_intercalate '\n' (newline_notMem_lines hg' hoff) (List.cons_ne_nil _ _)
  rw [hoff] at hcut hcut'
  rw [render, render, hoff]
  constructor
  · intro htext
    rw [htext, hcut'] at hcut
    obtain ⟨hnodes, hedges⟩ := append_inj_of_head (isNodeLine_of_mem hg') (isNodeLine_of_mem hg)
      (not_isNodeLine_of_mem_head? hg') (not_isNodeLine_of_mem_head? hg) (List.cons.inj hcut).2
    constructor
    · have hsame : g.nodes.map id = g'.nodes.map id := by
        refine map_eq_map_of_forall (fun n hn m hm hline => ?_) hnodes.symm
        obtain ⟨hid, hlabel, -⟩ := hg.node n hn
        obtain ⟨hid', hlabel', -⟩ := hg'.node m hm
        exact nodeLine_inj hid hid' hlabel hlabel' hline
      rwa [List.map_id, List.map_id] at hsame
    · refine map_eq_map_of_forall (fun e he f hf hline => ?_) hedges.symm
      exact shown_eq_of_edgeLine_eq (hg.edge e he).1 (hg'.edge f hf).1 hline
  · rintro ⟨hnodes, hedges⟩
    have hlines : g.edges.map (edgeLine false) = g'.edges.map (edgeLine false) := by
      refine map_eq_map_of_forall (fun e _ f _ hshown => ?_) hedges
      simp only [GraphEdge.shown, Prod.mk.injEq] at hshown
      rw [edgeLine_eq, edgeLine_eq, hshown.1, hshown.2.1, hshown.2.2]
    rw [hnodes, hlines]

/-- Labels that look like parts of a diagram, and an edge. -/
def lookalike (kind : UsageKind) : Graph where
  nodes := [⟨"a", "])", .method⟩, ⟨"_b1", "    a --> _b1", .file⟩, ⟨"end_", "#quot;", .event⟩]
  edges := [⟨"a", "_b1", kind, some "shown\nnowhere"⟩]

theorem plain_lookalike (kind : UsageKind) : (lookalike kind).Plain where
  node := by
    have h : ∀ n ∈ (lookalike .call).nodes, IsNodeId n.id ∧ '"' ∉ n.label.toList ∧
        '\n' ∉ n.label.toList := by
      decide +kernel
    exact h
  edge := by
    have h : IsNodeId "a" ∧ IsNodeId "_b1" := by decide +kernel
    simpa [lookalike] using h

/-- The arrow is all that is shown of how a file uses a definition. -/
theorem render_eq_iff_lookalike :
    render (lookalike .call) {} = render (lookalike .inclusion) {} ∧
      render (lookalike .call) {} ≠ render (lookalike .reference) {} := by
  constructor
  · exact (render_eq_iff (plain_lookalike .call) (plain_lookalike .inclusion) rfl).mpr ⟨rfl, rfl⟩
  · intro h
    have hshown := (render_eq_iff (plain_lookalike .call) (plain_lookalike .reference) rfl).mp h
    revert hshown
    decide +kernel

end Graphs

end Diagram

end Concordance
