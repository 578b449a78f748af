import Concordance.Block.Update
import Concordance.Proofs.Block.Nearest
import Concordance.Proofs.Block.Place
import Concordance.Proofs.Text.Lines

/-!
An update as one edit of the lines: which lines are taken away and which block stands in their place.

Main statements: `updateBlock_text_in` (the text of an update is the text of its edit),
`blockEdit?_cases` (what an edit takes away and what it writes), `linesWithEnds_apply` (the lines
after the edit) and `apply_eq_self_iff` (an edit keeps the text exactly if it writes the lines that it
takes away).
-/

namespace Concordance

open Text

/-- The line end that blocks of a text are written with. -/
def lineEndOf (text : List Char) : List Char :=
  if contains ['\r', '\n'] text then ['\r', '\n'] else ['\n']

/-- The lines from `start` up to the definition give way to the block of the parts. -/
structure BlockEdit where
  start : Nat
  definition : Nat
  parts : BlockParts
deriving Repr, DecidableEq

namespace BlockEdit

/-- The lines that are taken away. -/
def replaced (e : BlockEdit) (text : List Char) : List (List Char) :=
  ((linesWithEnds text).take e.definition).drop e.start

/-- The lines that are written. -/
def block (e : BlockEdit) (text : List Char) : List (List Char) :=
  (e.parts.lines .starred).map fun line =>
    indentOf ((linesWithEnds text)[e.definition]?.getD []) ++ line ++ lineEndOf text

/-- The text after the edit. -/
def apply (e : BlockEdit) (text : List Char) : List Char :=
  spliceBlock (linesWithEnds text) e.start e.definition (e.block text).flatten

/-- The text after the edit with its block in a style. -/
def applyIn (style : CommentStyle) (e : BlockEdit) (text : List Char) : List Char :=
  spliceBlock (linesWithEnds text) e.start e.definition
    (e.parts.render style (indentOf ((linesWithEnds text)[e.definition]?.getD [])) (lineEndOf text))

end BlockEdit

/-- The edit that brings the block of the symbol up to date, if there is one to make. -/
def blockEdit? (text : List Char) (symbol : Symbol) (entries : List (List Char))
    (options : BlockOptions) : Option BlockEdit :=
  let hash := hasHashComments symbol.filePath
  match definitionLine? (linesWithEnds text) symbol with
  | none => none
  | some definition =>
    match blocksAbove hash (linesWithEnds text) definition with
    | .found blocks =>
      some ⟨definition - (blocks.flatMap CommentBlock.lines).length, definition,
        (BlockParts.ofBlocks (blocks.map (·.body hash))).updated symbol entries options⟩
    | .missing =>
      if entries.isEmpty then none
      else some ⟨definition, definition, BlockParts.updated {} symbol entries options⟩
    | .malformed => some ⟨definition, definition, BlockParts.updated {} symbol entries options⟩

section Update

variable {text : List Char} {symbol : Symbol} {entries : List (List Char)} {options : BlockOptions}
  {e : BlockEdit}

theorem render_eq_flatten (parts : BlockParts) (style : CommentStyle) (indent lineEnd : List Char) :
    parts.render style indent lineEnd =
      ((parts.lines style).map fun line => indent ++ line ++ lineEnd).flatten := by
  rw [BlockParts.render, List.flatMap_def]

theorem BlockEdit.applyIn_starred (e : BlockEdit) (text : List Char) :
    e.applyIn .starred text = e.apply text := by
  rw [BlockEdit.applyIn, BlockEdit.apply, BlockEdit.block, render_eq_flatten]

/-- The text of an update is the text of its edit, which does not depend on the style. -/
theorem updateBlock_text_in (style : CommentStyle) (text : List Char) (symbol : Symbol)
    (entries : List (List Char)) (options : BlockOptions) :
    (updateBlock text symbol entries style options).text =
      match blockEdit? text symbol entries options with
      | none => text
      | some e => e.applyIn style text := by
  simp only [updateBlock, blockEdit?]
  cases definitionLine? (linesWithEnds text) symbol with
  | none => rfl
  | some definition =>
    dsimp only
    cases blocksAbove (hasHashComments symbol.filePath) (linesWithEnds text) definition with
    | found blocks => rfl
    | missing => cases entries <;> rfl
    | malformed => rfl

theorem updateBlock_text (text : List Char) (symbol : Symbol) (entries : List (List Char))
    (options : BlockOptions) :
    (updateBlock text symbol entries .starred options).text =
      match blockEdit? text symbol entries options with
      | none => text
      | some e => e.apply text := by
  simp only [updateBlock_text_in, BlockEdit.applyIn_starred]

/-- An edit stands above the definition, takes whole comments away and writes what they say with
the entries added; above it no comment ends. -/
theorem blockEdit?_cases (h : blockEdit? text symbol entries options = some e) :
    definitionLine? (linesWithEnds text) symbol = some e.definition ∧
    e.start ≤ e.definition ∧
    NoneAbove (hasHashComments symbol.filePath) ((linesWithEnds text).take e.start).reverse ∧
    ∃ blocks : List CommentBlock, (∀ b ∈ blocks, b.Whole (hasHashComments symbol.filePath)) ∧
      e.replaced text = blocks.flatMap CommentBlock.lines ∧
      e.parts = (BlockParts.ofBlocks
        (blocks.map (·.body (hasHashComments symbol.filePath)))).updated symbol entries options := by
  simp only [blockEdit?] at h
  generalize hasHashComments symbol.filePath = hash at h ⊢
  split at h
  · cases h
  · next definition hdef =>
    have hlt : definition < (linesWithEnds text).length := (definitionLine?_eq_some_iff.mp hdef).1.1
    split at h
    · next blocks hfound =>
      obtain rfl := Option.some.inj h
      obtain ⟨start, hlow, hstart, hwhole, hlines, hnone⟩ :=
        blocksAbove_found hfound (Nat.le_of_lt hlt)
      rw [hstart]
      exact ⟨hdef, Nat.le_of_lt hlow, hnone, blocks, hwhole, hlines, rfl⟩
    · next hmissing =>
      split at h
      · cases h
      · obtain rfl := Option.some.inj h
        refine ⟨hdef, Nat.le_refl _, blocksAbove_of_not_found ?_, [], by simp, ?_, rfl⟩
        · simp [hmissing]
        · simp [BlockEdit.replaced]
    · next hmalformed =>
      obtain rfl := Option.some.inj h
      refine ⟨hdef, Nat.le_refl _, blocksAbove_of_not_found ?_, [], by simp, ?_, rfl⟩
      · simp [hmalformed]
      · simp [BlockEdit.replaced]

/-- Nothing is edited exactly if no line holds the definition, or nothing stands above it and there is
nothing to write. -/
theorem blockEdit?_eq_none_iff :
    blockEdit? text symbol entries options = none ↔
      definitionLine? (linesWithEnds text) symbol = none ∨
      ∃ d, definitionLine? (linesWithEnds text) symbol = some d ∧ entries = [] ∧
        blocksAbove (hasHashComments symbol.filePath) (linesWithEnds text) d = .missing := by
  unfold blockEdit?
  cases definitionLine? (linesWithEnds text) symbol with
  | none => simp
  | some d =>
    cases habove : blocksAbove (hasHashComments symbol.filePath) (linesWithEnds text) d with
    | found blocks => simp [habove]
    | missing => simp [habove]
    | malformed => simp [habove]

/-- An edit takes lines away exactly if comments are found above the definition. -/
theorem BlockEdit.start_eq_definition_iff (h : blockEdit? text symbol entries options = some e) :
    e.start = e.definition ↔
      ∀ blocks, blocksAbove (hasHashComments symbol.filePath) (linesWithEnds text) e.definition ≠
        .found blocks := by
  simp only [blockEdit?] at h
  generalize hasHashComments symbol.filePath = hash at h ⊢
  split at h
  · cases h
  · next d hdef =>
    split at h
    · next blocks hfound =>
      obtain rfl := Option.some.inj h
      have hlt := (definitionLine?_eq_some_iff.mp hdef).1.1
      obtain ⟨start, hlow, hstart, -⟩ := blocksAbove_found hfound (Nat.le_of_lt hlt)
      have hne : start ≠ d := Nat.ne_of_lt hlow
      simp only [hstart, hfound, hne, ne_eq, BlocksAbove.found.injEq, forall_eq']
    · next hmissing =>
      split at h
      · cases h
      · obtain rfl := Option.some.inj h
        simp [hmissing]
    · next hmalformed =>
      obtain rfl := Option.some.inj h
      simp [hmalformed]

theorem BlockEdit.definition_lt (h : blockEdit? text symbol entries options = some e) :
    e.definition < (linesWithEnds text).length := by
  obtain ⟨hdef, -⟩ := blockEdit?_cases h
  exact (definitionLine?_eq_some_iff.mp hdef).1.1

theorem lineEndOf_cases (text : List Char) :
    lineEndOf text = ['\r', '\n'] ∨ lineEndOf text = ['\n'] := by
  unfold lineEndOf
  split <;> simp

theorem ended_append_lineEndOf {line : List Char} (hline : '\n' ∉ line) (text : List Char) :
    Ended (line ++ lineEndOf text) :=
  ended_append (lineEndOf_cases text).symm hline

theorem mem_indentOf {line : List Char} {c : Char} (h : c ∈ indentOf line) : c = ' ' ∨ c = '\t' := by
  have hall : (indentOf line).all (fun c => c == ' ' || c == '\t') = true := List.all_takeWhile
  simpa using List.all_eq_true.mp hall c h

theorem newline_notMem_indentOf (line : List Char) : '\n' ∉ indentOf line := by
  intro hmem
  have := mem_indentOf hmem
  simp at this

/-- The lines that an edit writes are whole lines, as long as the lines of its parts hold no line
feed. -/
theorem BlockEdit.ended_of_mem_block (hparts : ∀ line ∈ e.parts.lines .starred, '\n' ∉ line)
    {line : List Char} (hline : line ∈ e.block text) : Ended line := by
  obtain ⟨inner, hinner, rfl⟩ := List.mem_map.mp hline
  apply ended_append_lineEndOf
  simp [newline_notMem_indentOf, hparts inner hinner]

/-- The lines after the edit. -/
theorem BlockEdit.linesWithEnds_apply (hblock : ∀ line ∈ e.block text, Ended line)
    (hstart : e.start ≤ e.definition) (hlt : e.definition < (linesWithEnds text).length) :
    linesWithEnds (e.apply text) =
      (linesWithEnds text).take e.start ++ e.block text ++ (linesWithEnds text).drop e.definition := by
  have hfront : ∀ line ∈ (linesWithEnds text).take e.start, Ended line := fun line hline =>
    ended_of_mem_take (Nat.lt_of_le_of_lt hstart hlt) hline
  rw [BlockEdit.apply, spliceBlock, List.append_assoc, linesWithEnds_flatten_append hfront,
    linesWithEnds_flatten_append hblock, linesWithEnds_flatten_drop, List.append_assoc]

theorem BlockEdit.take_definition (hstart : e.start ≤ e.definition) :
    (linesWithEnds text).take e.definition =
      (linesWithEnds text).take e.start ++ e.replaced text := by
  rw [← Nat.min_eq_left hstart, ← List.take_take]
  exact (List.take_append_drop _ _).symm

/-- The text before an edit, cut in the same places. -/
theorem BlockEdit.text_eq (e : BlockEdit) (text : List Char) (hstart : e.start ≤ e.definition) :
    text = ((linesWithEnds text).take e.start).flatten ++ (e.replaced text).flatten ++
      ((linesWithEnds text).drop e.definition).flatten := by
  rw [← List.flatten_append, ← List.flatten_append, ← BlockEdit.take_definition hstart,
    List.take_append_drop, flatten_linesWithEnds]

/-- The edit writes the lines that it takes away. -/
def BlockEdit.Idle (e : BlockEdit) (text : List Char) : Prop :=
  e.replaced text = e.block text

theorem BlockEdit.apply_eq_self_iff (hblock : ∀ line ∈ e.block text, Ended line)
    (hstart : e.start ≤ e.definition) (hlt : e.definition < (linesWithEnds text).length) :
    e.apply text = text ↔ e.Idle text := by
  have hreplaced : ∀ line ∈ e.replaced text, Ended line := fun line hline =>
    ended_of_mem_take hlt (List.mem_of_mem_drop hline)
  have htext := e.text_eq text hstart
  constructor
  · intro h
    have hflat : (e.block text).flatten = (e.replaced text).flatten := by
      have heq := h.trans htext
      rw [BlockEdit.apply, spliceBlock, List.append_assoc, List.append_assoc] at heq
      exact List.append_cancel_right (List.append_cancel_left heq)
    have hlines := congrArg linesWithEnds hflat
    rw [linesWithEnds_flatten hblock, linesWithEnds_flatten hreplaced] at hlines
    exact hlines.symm
  · intro h
    rw [BlockEdit.apply, spliceBlock, ← h, ← htext]

end Update

end Concordance
