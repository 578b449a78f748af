import Concordance.Proofs.Block.Idempotence
import Concordance.Proofs.Path

/-!
A block that is put above a definition without one.

The definition moves down by the lines of the block. Once it is recorded on its new line, the next
update finds the block and reads it back, whatever stood above the definition before. Main statement:
`updateBlock_movedTo_inserted`.
-/

namespace Concordance

open Text

variable {text : List Char} {symbol : Symbol} {entries : List (List Char)} {options : BlockOptions}

/-- The texts of a symbol that go into a block hold no line feed. -/
structure Symbol.NoLineFeed (symbol : Symbol) : Prop where
  name : '\n' ∉ symbol.name.toList
  container : ∀ t ∈ symbol.container, '\n' ∉ t.toList
  paths : ∀ u ∈ symbol.usages, '\n' ∉ u.filePath.toList

theorem newline_notMem_displayPath {path : String} (h : '\n' ∉ path.toList) (root : Option String) :
    '\n' ∉ (displayPath path root).toList := fun hmem =>
  forall_displayPath (P := fun c => c ≠ '\n') (by decide) (by decide)
    (fun _ hc heq => h (heq ▸ hc)) _ _ hmem rfl

theorem Symbol.NoLineFeed.oneLine (h : symbol.NoLineFeed) (hentries : ∀ t ∈ entries, '\n' ∉ t) :
    BlockParts.OneLine symbol entries options where
  name := by
    unfold qualifiedName
    split
    · next t ht => simp [h.container t ht, h.name]
    · exact h.name
  entries := hentries
  paths _ u hu := newline_notMem_displayPath (h.paths u hu) _

/-- The texts of a symbol that go into a block hold no line feed, and the qualified name has no white
space at its end. -/
structure Symbol.Inline (symbol : Symbol) : Prop extends symbol.NoLineFeed where
  trimmed : ∀ c ∈ symbol.qualifiedName.toList.getLast?, isBlank c = false

theorem Symbol.Inline.oneLine (h : symbol.Inline) (hentries : ∀ t ∈ entries, '\n' ∉ t) :
    BlockParts.OneLine symbol entries options :=
  h.toNoLineFeed.oneLine hentries

theorem DefinedAt.name_ne_nil {lines : List (List Char)} {n : Nat} (h : DefinedAt lines symbol n) :
    symbol.name.toList ≠ [] := by
  intro hnil
  have hdefines := h.2
  simp [definesOnFirst, hnil] at hdefines

theorem Symbol.qualifiedName_ne_nil (h : symbol.name.toList ≠ []) :
    symbol.qualifiedName.toList ≠ [] := by
  unfold qualifiedName
  split
  · simp
  · exact h

/-- The edit of a definition with no block above it that could be brought up to date. -/
theorem blockEdit?_of_not_found {d : Nat}
    (hfound : definitionLine? (linesWithEnds text) symbol = some d)
    (hnone : ∀ blocks, blocksAbove (hasHashComments symbol.filePath) (linesWithEnds text) d ≠
      .found blocks)
    (hinserts : entries ≠ [] ∨
      blocksAbove (hasHashComments symbol.filePath) (linesWithEnds text) d = .malformed) :
    blockEdit? text symbol entries options =
      some ⟨d, d, BlockParts.updated {} symbol entries options⟩ := by
  simp only [blockEdit?, hfound]
  cases habove : blocksAbove (hasHashComments symbol.filePath) (linesWithEnds text) d with
  | found blocks => exact absurd habove (hnone blocks)
  | malformed => rfl
  | missing =>
    have hne : entries ≠ [] := hinserts.resolve_right (by simp [habove])
    simp [hne]

/-- The parts of a new block read back exactly if none of their texts holds a mark. -/
theorem BlockParts.readsBack_updated_iff (h : symbol.Inline) (hname : symbol.name.toList ≠ []) :
    (updated {} symbol entries options).ReadsBack ↔
      ∀ t ∈ (updated {} symbol entries options).texts, Unmarked t := by
  refine ⟨ReadsBack.unmarked, fun hall => ⟨hall, ?_, Or.inl (by simp [updated])⟩⟩
  intro t ht
  obtain rfl : t = symbol.defaultDescription := by simpa [updated] using ht
  have hqualified := Symbol.qualifiedName_ne_nil hname
  have hlast := h.trimmed _ (List.getLast?_eq_some_getLast hqualified)
  rw [Symbol.defaultDescription, ← List.dropLast_append_getLast hqualified, ← List.append_assoc]
  exact trimEnd_concat _ hlast

/-- A new block stands right above the definition, and the next update, for the symbol recorded on
its new line, changes nothing exactly if no line within the block holds a mark of a comment. -/
theorem updateBlock_movedTo_inserted {d : Nat}
    (hfound : definitionLine? (linesWithEnds text) symbol = some d)
    (hnone : ∀ blocks, blocksAbove (hasHashComments symbol.filePath) (linesWithEnds text) d ≠
      .found blocks)
    (hinserts : entries ≠ [] ∨
      blocksAbove (hasHashComments symbol.filePath) (linesWithEnds text) d = .malformed)
    (hinline : symbol.Inline) (hentries : ∀ t ∈ entries, '\n' ∉ t) :
    ∃ block, 2 ≤ block.length ∧
      linesWithEnds (updateBlock text symbol entries .starred options).text =
        (linesWithEnds text).take d ++ block ++ (linesWithEnds text).drop d ∧
      ((updateBlock (updateBlock text symbol entries .starred options).text
          (symbol.movedTo (d + block.length)) entries .starred options).text =
            (updateBlock text symbol entries .starred options).text ↔
        ∀ line ∈ block.tail.dropLast, Unmarked line) := by
  have hedit : blockEdit? text symbol entries options = some _ :=
    blockEdit?_of_not_found hfound hnone hinserts
  generalize he : BlockEdit.mk d d (BlockParts.updated {} symbol entries options) = e at hedit
  have hstart : e.start = d := by rw [← he]
  have hdefinition : e.definition = d := by rw [← he]
  have hparts : e.parts = BlockParts.updated {} symbol entries options := by rw [← he]
  have hone : BlockParts.OneLine symbol entries options := hinline.oneLine hentries
  have htext : (updateBlock text symbol entries .starred options).text = e.apply text := by
    rw [updateBlock_text, hedit]
  have hlines := BlockEdit.lines_after hedit hone
  rw [htext]
  refine ⟨e.block text, ?_, by rw [hlines, hstart, hdefinition], ?_⟩
  · rw [BlockEdit.block_eq, length_written]
    exact Nat.le_add_left _ _
  have hafter : (linesWithEnds (e.apply text)).drop (d + (e.block text).length) =
      (linesWithEnds text).drop d := by
    rw [hlines, hdefinition]
    apply List.drop_left'
    rw [List.length_append, BlockEdit.length_front hedit, hstart]
  have hrelocated : e.Relocated text (symbol.movedTo (d + (e.block text).length)) := by
    rw [BlockEdit.Relocated, hstart]
    exact definitionLine?_movedTo hfound hafter
  have hmoved : BlockParts.OneLine (symbol.movedTo (d + (e.block text).length)) entries options :=
    ⟨hone.name, hone.entries, hone.paths⟩
  have hname := (definitionLine?_eq_some_iff.mp hfound).1.name_ne_nil
  calc (updateBlock (e.apply text) (symbol.movedTo (d + (e.block text).length)) entries .starred
        options).text = e.apply text
      ↔ UpToDate (e.apply text) (symbol.movedTo (d + (e.block text).length)) entries options :=
        updateBlock_text_eq_self_iff hmoved
    _ ↔ e.parts.ReadsBack := upToDate_of_relocated_iff hone _ hedit hrelocated
    _ ↔ ∀ t ∈ e.parts.texts, Unmarked t := by
      rw [hparts]
      exact BlockParts.readsBack_updated_iff hinline hname
    _ ↔ ∀ line ∈ (e.block text).tail.dropLast, Unmarked line := by
      rw [BlockEdit.block_eq, dropLast_tail_written, List.forall_mem_map]
      exact forall₂_congr fun t _ =>
        (unmarked_innerLine_iff (allBlank_indentOf _) (allBlank_lineEndOf text)).symm

/-- A method below a statement with a comment at its end, in lines that end with two characters. -/
def trailedText : List Char :=
  "class A \x7b\r\n  x = 1; /* set */\r\n  m() \x7b\x7d\r\n\x7d\r\n".toList

/-- The method, recorded on its line. -/
def trailedMethod : Symbol where
  id := ""
  name := "m"
  kind := .method
  filePath := "a.js"
  position := ⟨2, 2⟩
  range := ⟨⟨2, 2⟩, ⟨2, 8⟩⟩
  container := some "A"
  usages := [⟨"b.js", ⟨1, 4⟩, ⟨⟨1, 4⟩, ⟨1, 5⟩⟩, "a.m()", .call⟩]

/-- The text with a block for the method, a diagram in it, recorded on the line. -/
def trailedUpdate (text : List Char) (line : Nat) : List Char :=
  (updateBlock text (trailedMethod.movedTo line) ["b.js:2 (call)".toList] .starred
    ⟨true, true, {}, {}⟩).text

theorem updateBlock_movedTo_trailed :
    trailedMethod.Inline ∧
      (linesWithEnds (trailedUpdate trailedText 2)).length =
        (linesWithEnds trailedText).length + 12 ∧
      trailedUpdate (trailedUpdate trailedText 2) 14 = trailedUpdate trailedText 2 := by
  have hlast : trailedMethod.qualifiedName.toList.getLast? = some 'm' := by decide
  have hinline : trailedMethod.Inline :=
    ⟨⟨by decide, by decide, by decide⟩, fun c hc => by cases hlast.symm.trans hc; decide⟩
  have hfound : definitionLine? (linesWithEnds trailedText) trailedMethod = some 2 := by
    decide +kernel
  have hmissing : blocksAbove false (linesWithEnds trailedText) 2 = .missing := by decide +kernel
  have hlength : (linesWithEnds (trailedUpdate trailedText 2)).length =
      (linesWithEnds trailedText).length + 12 := by decide +kernel
  have hfront : ((linesWithEnds trailedText).take 2).length = 2 := by decide +kernel
  obtain ⟨block, -, hlines, hstable⟩ :=
    @updateBlock_movedTo_inserted trailedText trailedMethod ["b.js:2 (call)".toList]
      ⟨true, true, {}, {}⟩ 2 hfound (fun _ h => by cases hmissing.symm.trans h)
      (Or.inl (by decide)) hinline (by decide)
  change linesWithEnds (trailedUpdate trailedText 2) = _ at hlines
  have hsize : block.length = 12 := by
    have hsum := congrArg List.length hlines
    rw [hlength, List.length_append, List.length_append, List.length_drop, hfront] at hsum
    have hlong : 2 ≤ (linesWithEnds trailedText).length := by decide +kernel
    omega
  have hblock : ((linesWithEnds (trailedUpdate trailedText 2)).drop 2).take 12 = block := by
    rw [hlines, List.append_assoc, List.drop_left' hfront, List.take_left' hsize]
  refine ⟨hinline, hlength, ?_⟩
  rw [hsize] at hstable
  apply hstable.mpr
  rw [← hblock]
  decide +kernel

end Concordance
