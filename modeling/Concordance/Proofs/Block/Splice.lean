import Concordance.Proofs.Block.Edit

/-!
An update as a splice: what it takes away and what it leaves alone.

Whatever the style, an update keeps the text or puts one block in place of lines that end right above
the definition. These are whole comments, and all of them: the search upwards stops at the first line
that no whole comment ends with. Main statement: `updateBlock_splices`.
-/

namespace Concordance

open Text

/-- The lines from `start` up to the definition are whole comments, and no whole comment ends right
above them. -/
structure CommentsFrom (hash : Bool) (lines : List (List Char)) (start definition : Nat) : Prop where
  le : start ≤ definition
  whole : ∃ blocks : List CommentBlock, (∀ b ∈ blocks, b.Whole hash) ∧
    (lines.take definition).drop start = blocks.flatMap CommentBlock.lines
  all : ∀ b : CommentBlock, b.Whole hash → ¬ b.lines <:+ lines.take start

section

variable {text : List Char} {symbol : Symbol} {entries : List (List Char)} {options : BlockOptions}
  {e : BlockEdit}

/-- What an edit takes away are the whole comments right above the definition. -/
theorem BlockEdit.commentsFrom (h : blockEdit? text symbol entries options = some e) :
    CommentsFrom (hasHashComments symbol.filePath) (linesWithEnds text) e.start e.definition := by
  obtain ⟨-, hstart, hnone, blocks, hwhole, hreplaced, -⟩ := blockEdit?_cases h
  refine ⟨hstart, ⟨blocks, hwhole, hreplaced⟩, fun b hb hsuffix => ?_⟩
  rw [← List.reverse_reverse ((linesWithEnds text).take e.start)] at hsuffix
  exact hnone.not_suffix hb hsuffix

/-- An update keeps the text if the definition is not found or nothing stands above it and there is
nothing to write. Otherwise it puts one block in place of the comments right above the definition; no
line is taken away exactly if no comments are found there. -/
theorem updateBlock_splices (text : List Char) (symbol : Symbol) (entries : List (List Char))
    (style : CommentStyle) (options : BlockOptions) :
    ((updateBlock text symbol entries style options).text = text ∧
      (definitionLine? (linesWithEnds text) symbol = none ∨
        ∃ d, definitionLine? (linesWithEnds text) symbol = some d ∧ entries = [] ∧
          blocksAbove (hasHashComments symbol.filePath) (linesWithEnds text) d = .missing)) ∨
    ∃ (start d : Nat) (parts : BlockParts),
      definitionLine? (linesWithEnds text) symbol = some d ∧
      (updateBlock text symbol entries style options).text =
        ((linesWithEnds text).take start).flatten ++
          parts.render style (indentOf ((linesWithEnds text)[d]?.getD [])) (lineEndOf text) ++
          ((linesWithEnds text).drop d).flatten ∧
      CommentsFrom (hasHashComments symbol.filePath) (linesWithEnds text) start d ∧
      (start = d ↔ ∀ blocks,
        blocksAbove (hasHashComments symbol.filePath) (linesWithEnds text) d ≠ .found blocks) := by
  rw [updateBlock_text_in]
  cases hedit : blockEdit? text symbol entries options with
  | none => exact Or.inl ⟨rfl, blockEdit?_eq_none_iff.mp hedit⟩
  | some e =>
    obtain ⟨hdef, -⟩ := blockEdit?_cases hedit
    exact Or.inr ⟨e.start, e.definition, e.parts, hdef, rfl, e.commentsFrom hedit,
      BlockEdit.start_eq_definition_iff hedit⟩

end

end Concordance
