import Concordance.Proofs.Block.Written

/-!
When a second update changes nothing.

An update writes one block above the definition. The next one finds the definition again, finds the
block above it, reads it back and merges the same entries; each of these steps can fail.

Main statements: `updateBlock_text_eq_self_iff` (an update keeps the text exactly if the comment
above the definition is the block already), `upToDate_of_written_iff` (when it is, below a block that
was written) and `updateBlock_idempotent_iff`.
-/

namespace Concordance

open Text

variable {text : List Char} {symbol : Symbol} {entries : List (List Char)} {options : BlockOptions}
  {e : BlockEdit}

section Edit

/-- The parts that an edit writes are those of comments, brought up to date. -/
theorem BlockEdit.exists_parts (h : blockEdit? text symbol entries options = some e) :
    ∃ old : BlockParts, old.Formed ∧ old.Trimmed ∧
      e.parts = old.updated symbol entries options := by
  obtain ⟨-, -, -, blocks, -, hreplaced, hparts⟩ := blockEdit?_cases h
  have hlines : ∀ b ∈ blocks, ∀ line ∈ b.lines, Ended line := by
    intro b hb line hline
    have hmem : line ∈ e.replaced text := by
      rw [hreplaced]
      exact List.mem_flatMap.mpr ⟨b, hb, hline⟩
    exact ended_of_mem_take (BlockEdit.definition_lt h) (List.mem_of_mem_drop hmem)
  have hbodies : ∀ body ∈ blocks.map (·.body (hasHashComments symbol.filePath)),
      ∀ t ∈ body, BlockParts.LineText t := by
    intro body hbody t ht
    obtain ⟨b, hb, rfl⟩ := List.mem_map.mp hbody
    obtain ⟨line, hline, rfl⟩ := List.mem_map.mp ht
    split
    · exact BlockParts.lineText_lineCommentBody (Or.inl (hlines b hb line hline))
    · exact BlockParts.lineText_innerText (Or.inl (hlines b hb line hline))
  obtain ⟨hformed, htrimmed⟩ := BlockParts.formed_ofBlocks hbodies
  exact ⟨_, hformed, htrimmed, hparts⟩

theorem BlockEdit.formed (h : blockEdit? text symbol entries options = some e)
    (hone : BlockParts.OneLine symbol entries options) : e.parts.Formed := by
  obtain ⟨old, hformed, -, hparts⟩ := BlockEdit.exists_parts h
  rw [hparts]
  exact BlockParts.formed_updated hformed hone

theorem BlockEdit.ended_block (h : blockEdit? text symbol entries options = some e)
    (hone : BlockParts.OneLine symbol entries options) : ∀ line ∈ e.block text, Ended line :=
  fun _ hline => BlockEdit.ended_of_mem_block (newline_notMem_lines (BlockEdit.formed h hone)) hline

/-- The comment above the definition is already the block that an update writes. -/
def UpToDate (text : List Char) (symbol : Symbol) (entries : List (List Char))
    (options : BlockOptions) : Prop :=
  ∀ e, blockEdit? text symbol entries options = some e → e.Idle text

/-- An update keeps the text exactly if the comment above the definition is the block already. -/
theorem updateBlock_text_eq_self_iff (hone : BlockParts.OneLine symbol entries options) :
    (updateBlock text symbol entries .starred options).text = text ↔
      UpToDate text symbol entries options := by
  rw [updateBlock_text, UpToDate]
  cases h : blockEdit? text symbol entries options with
  | none => simp
  | some e =>
    obtain ⟨-, hstart, -⟩ := blockEdit?_cases h
    have hself := BlockEdit.apply_eq_self_iff (BlockEdit.ended_block h hone) hstart
      (BlockEdit.definition_lt h)
    simp [hself]

end Edit

section OfWritten

variable {front back : List (List Char)} {parts : BlockParts} {indent lineEnd : List Char}

/-- The parts that are read back and brought up to date. -/
def BlockParts.again (parts : BlockParts) (symbol : Symbol) (entries : List (List Char))
    (options : BlockOptions) : BlockParts :=
  parts.trimTexts.reread.updated symbol entries options

/-- The parts hold what an update adds: the entries are merged in, and the diagram is the symbol's if
one is drawn. -/
structure BlockParts.Holds (parts : BlockParts) (symbol : Symbol) (entries : List (List Char))
    (options : BlockOptions) : Prop where
  entries : Entry.merge options.groupByFile (parts.entries ++ entries) = parts.entries
  drawn : options.includeDiagram = true → parts.diagram = some (symbol.diagramLines options)
  kept : options.includeDiagram = false → ∀ g ∈ parts.diagram, ∀ t ∈ g, trimEnd t = t

/-- The parts that are read back and brought up to date have the same texts exactly if the
description is trimmed at its ends and the tags are led by one. -/
theorem BlockParts.Holds.texts_again_iff (h : parts.Holds symbol entries options)
    (hne : parts.description ≠ []) :
    (parts.again symbol entries options).texts = parts.texts ↔
      (∀ t ∈ parts.description, trimEnd t = t) ∧ parts.Led := by
  have hreread : parts.trimTexts.reread.description ≠ [] := by
    simp [BlockParts.reread, BlockParts.trimTexts, hne]
  apply BlockParts.texts_eq_of_reread_iff hne
  · rw [BlockParts.again, BlockParts.updated_description]
    simp [hreread]
  · rfl
  · exact h.entries
  · rw [BlockParts.again, BlockParts.updated_diagram]
    split
    · next hdiagram => exact (h.drawn hdiagram).symm
    · next hdiagram =>
      show parts.diagram.map (·.map trimEnd) = parts.diagram
      cases hg : parts.diagram with
      | none => rfl
      | some g =>
        rw [Option.map_some, BlockParts.map_trimEnd_eq_self]
        exact h.kept (by simpa using hdiagram) g hg

open Classical in
/-- The edit of a definition that a written block stands right above of. -/
theorem blockEdit?_of_written (entries : List (List Char)) (options : BlockOptions)
    (hlines : linesWithEnds text = front ++ parts.written indent lineEnd ++ back)
    (hnone : NoneAbove (hasHashComments symbol.filePath) front.reverse)
    (hindent : AllBlank indent) (hend : AllBlank lineEnd) (hformed : parts.Formed)
    (hne : parts.description ≠ [])
    (hfound : definitionLine? (linesWithEnds text) symbol =
      some (front.length + (parts.written indent lineEnd).length)) :
    blockEdit? text symbol entries options =
      some (if ∀ t ∈ parts.texts, Unmarked t then
        ⟨front.length, front.length + (parts.written indent lineEnd).length,
          parts.again symbol entries options⟩
      else ⟨front.length + (parts.written indent lineEnd).length,
        front.length + (parts.written indent lineEnd).length,
        BlockParts.updated {} symbol entries options⟩) := by
  have habove := blocksAbove_written parts front back hindent hend hnone
  rw [← hlines] at habove
  simp only [blockEdit?, hfound, habove]
  by_cases hall : ∀ t ∈ parts.texts, Unmarked t
  · have hbody := body_written hindent hend (hasHashComments symbol.filePath) hall
    rw [← BlockParts.texts_trimTexts hformed] at hbody
    have hread := BlockParts.addBlock_texts (BlockParts.formed_trimTexts hformed)
      (by simpa [BlockParts.trimTexts] using hne)
    rw [if_pos hall, if_pos hall]
    simp only [List.map_cons, List.map_nil, hbody, BlockParts.ofBlocks, List.foldl_cons,
      List.foldl_nil, hread, List.flatMap_cons, List.flatMap_nil, List.append_nil,
      Nat.add_sub_cancel, BlockParts.again]
  · rw [if_neg hall, if_neg hall]

/-- Below a written block an update changes nothing exactly if the search finds the block and what
is read back is written in the same way. -/
theorem upToDate_of_written_iff (entries : List (List Char)) (options : BlockOptions)
    (hlines : linesWithEnds text = front ++ parts.written indent lineEnd ++ back)
    (hnone : NoneAbove (hasHashComments symbol.filePath) front.reverse)
    (hindent : indent = indentOf (back.head?.getD [])) (hend : AllBlank lineEnd)
    (hformed : parts.Formed) (hne : parts.description ≠ [])
    (hfound : definitionLine? (linesWithEnds text) symbol =
      some (front.length + (parts.written indent lineEnd).length)) :
    UpToDate text symbol entries options ↔
      (∀ t ∈ parts.texts, Unmarked t) ∧ lineEnd = lineEndOf text ∧
        (parts.again symbol entries options).texts = parts.texts := by
  have hblank : AllBlank indent := hindent ▸ allBlank_indentOf _
  have hedit := blockEdit?_of_written entries options hlines hnone hblank hend hformed hne hfound
  have htake : (linesWithEnds text).take (front.length + (parts.written indent lineEnd).length) =
      front ++ parts.written indent lineEnd := by
    rw [hlines]
    exact List.take_left' List.length_append
  have hline : (linesWithEnds text)[front.length + (parts.written indent lineEnd).length]? =
      back.head? := by
    rw [hlines, ← List.length_append, List.getElem?_append_right (Nat.le_refl _), Nat.sub_self,
      List.head?_eq_getElem?]
  have hidle : UpToDate text symbol entries options ↔
      ∀ e, some e = blockEdit? text symbol entries options → e.Idle text :=
    forall_congr' fun e => by rw [eq_comm]
  rw [hidle, hedit]
  simp only [Option.some.injEq, forall_eq]
  by_cases hall : ∀ t ∈ parts.texts, Unmarked t
  · rw [if_pos hall]
    simp only [BlockEdit.Idle, BlockEdit.replaced, htake, List.drop_left, BlockEdit.block_eq, hline,
      ← hindent]
    rw [written_eq_iff, eq_comm (a := parts.texts)]
    exact ⟨fun h => ⟨hall, h⟩, fun h => h.2⟩
  · rw [if_neg hall]
    constructor
    · intro hidle
      simp only [BlockEdit.Idle, BlockEdit.replaced, htake] at hidle
      rw [List.drop_of_length_le (Nat.le_of_eq List.length_append)] at hidle
      exact absurd hidle.symm (written_ne_nil _ _ _)
    · exact fun h => absurd h.1 hall

end OfWritten

section Relocated

/-- The definition is found again right below the block that was written. -/
def BlockEdit.Relocated (e : BlockEdit) (text : List Char) (symbol : Symbol) : Prop :=
  definitionLine? (linesWithEnds (e.apply text)) symbol = some (e.start + (e.block text).length)

/-- The texts of the parts come back when the block is read: none holds a mark of a comment, the
description is trimmed at its ends, and the tags are led by one. -/
structure BlockParts.ReadsBack (parts : BlockParts) : Prop where
  unmarked : ∀ t ∈ parts.texts, Unmarked t
  trimmed : ∀ t ∈ parts.description, trimEnd t = t
  led : parts.Led

theorem BlockEdit.length_front (h : blockEdit? text symbol entries options = some e) :
    ((linesWithEnds text).take e.start).length = e.start := by
  obtain ⟨-, hstart, -⟩ := blockEdit?_cases h
  exact List.length_take_of_le (Nat.le_of_lt (Nat.lt_of_le_of_lt hstart (BlockEdit.definition_lt h)))

theorem BlockEdit.lines_after (h : blockEdit? text symbol entries options = some e)
    (hone : BlockParts.OneLine symbol entries options) :
    linesWithEnds (e.apply text) =
      (linesWithEnds text).take e.start ++ e.block text ++ (linesWithEnds text).drop e.definition := by
  obtain ⟨-, hstart, -⟩ := blockEdit?_cases h
  exact BlockEdit.linesWithEnds_apply (BlockEdit.ended_block h hone) hstart
    (BlockEdit.definition_lt h)

end Relocated

section Moved

/-- The symbol, recorded on the line. -/
def Symbol.movedTo (symbol : Symbol) (line : Nat) : Symbol :=
  { symbol with position := { symbol.position with line := line } }

/-- A definition that moves with its lines is found on the line that it is recorded on. -/
theorem definitionLine?_movedTo {lines after : List (List Char)} {d n : Nat}
    (h : definitionLine? lines symbol = some d) (hafter : after.drop n = lines.drop d) :
    definitionLine? after (symbol.movedTo n) = some n := by
  obtain ⟨⟨hlt, hdefines⟩, -⟩ := definitionLine?_eq_some_iff.mp h
  refine definitionLine?_eq_recorded_iff.mpr ⟨?_, ?_⟩
  · have hlength := congrArg List.length hafter
    simp only [List.length_drop] at hlength
    show n < after.length
    omega
  · show definesOnFirst (after.drop n) symbol = true
    rw [hafter]
    exact hdefines

end Moved

section LineEnd

theorem getLast?_ne_return_of_trimEnd {t : List Char} (h : trimEnd t = t) :
    t.getLast? ≠ some '\r' := by
  intro hlast
  obtain ⟨front, rfl⟩ := List.getLast?_eq_some_iff.mp hlast
  exact not_suffix_of_trimEnd (by decide) h ⟨front, rfl⟩

theorem getLast?_ne_return_of_mem_lines {parts : BlockParts}
    (htexts : ∀ t ∈ parts.texts, t.getLast? ≠ some '\r') (indent : List Char) {line : List Char}
    (hline : line ∈ parts.lines .starred) : (indent ++ line).getLast? ≠ some '\r' := by
  simp only [BlockParts.lines_eq, List.mem_append, List.mem_singleton, List.mem_map] at hline
  rcases hline with (rfl | ⟨t, ht, rfl⟩) | rfl
  · rw [List.getLast?_append_of_ne_nil _ (by decide)]
    decide
  · rw [innerLine_eq, List.getLast?_append_of_ne_nil _ (by simp)]
    split
    · decide
    · next hne =>
      have hshape : [' ', '*'] ++ ' ' :: t = [' ', '*', ' '] ++ t := rfl
      rw [hshape, List.getLast?_append_of_ne_nil _ hne]
      exact htexts t ht
  · rw [List.getLast?_append_of_ne_nil _ (by decide)]
    decide

theorem lineEndOf_eq_crlf_iff {text : List Char} :
    lineEndOf text = ['\r', '\n'] ↔ ∃ line ∈ linesWithEnds text, ['\r', '\n'] <:+ line := by
  rw [← crlf_infix_iff, ← contains_iff, lineEndOf]
  split
  · next h => simp [h]
  · next h => simp [h]

/-- The line end of the text stays, unless a text of the block ends with a carriage return. -/
theorem lineEndOf_after (h : blockEdit? text symbol entries options = some e)
    (hone : BlockParts.OneLine symbol entries options)
    (htexts : ∀ t ∈ e.parts.texts, t.getLast? ≠ some '\r') :
    lineEndOf (e.apply text) = lineEndOf text := by
  have hiff : lineEndOf (e.apply text) = ['\r', '\n'] ↔ lineEndOf text = ['\r', '\n'] := by
    constructor
    · intro hcrlf
      obtain ⟨line, hline, hsuf⟩ := lineEndOf_eq_crlf_iff.mp hcrlf
      rw [BlockEdit.lines_after h hone] at hline
      rcases List.mem_append.mp hline with hline | hline
      · rcases List.mem_append.mp hline with hline | hline
        · exact lineEndOf_eq_crlf_iff.mpr ⟨line, List.mem_of_mem_take hline, hsuf⟩
        · obtain ⟨inner, hinner, rfl⟩ := List.mem_map.mp hline
          rcases lineEndOf_cases text with hend | hend
          · exact hend
          · obtain ⟨front, hfront⟩ := hsuf
            rw [hend] at hfront
            have hsplit : (front ++ ['\r']) ++ ['\n'] =
                (indentOf ((linesWithEnds text)[e.definition]?.getD []) ++ inner) ++ ['\n'] := by
              simpa using hfront
            have hcut := List.append_cancel_right hsplit
            exact absurd (by rw [← hcut]; simp)
              (getLast?_ne_return_of_mem_lines htexts _ hinner)
      · exact lineEndOf_eq_crlf_iff.mpr ⟨line, List.mem_of_mem_drop hline, hsuf⟩
    · intro hcrlf
      refine lineEndOf_eq_crlf_iff.mpr ⟨indentOf ((linesWithEnds text)[e.definition]?.getD []) ++
        CommentStyle.starred.blockStart ++ lineEndOf text, ?_,
        by rw [hcrlf]; exact List.suffix_append _ _⟩
      rw [BlockEdit.lines_after h hone, BlockEdit.block_eq, written_eq]
      simp
  rcases lineEndOf_cases text with hend | hend
  · rw [hend, hiff.mpr hend]
  · rcases lineEndOf_cases (e.apply text) with hafter | hafter
    · rw [hafter, hiff.mp hafter]
    · rw [hend, hafter]

end LineEnd

section Twice

variable (hone : BlockParts.OneLine symbol entries options)

theorem BlockEdit.description_ne_nil (h : blockEdit? text symbol entries options = some e) :
    e.parts.description ≠ [] := by
  obtain ⟨old, -, -, hparts⟩ := BlockEdit.exists_parts h
  rw [hparts]
  exact BlockParts.updated_description_ne_nil old

/-- What an edit writes holds what it was made to add. -/
theorem BlockEdit.holds (h : blockEdit? text symbol entries options = some e) :
    e.parts.Holds symbol entries options := by
  obtain ⟨old, -, htrimmed, hparts⟩ := BlockEdit.exists_parts h
  rw [hparts]
  constructor
  · exact Entry.merge_absorb _ _ _
  · intro hdiagram
    rw [BlockParts.updated_diagram, if_pos hdiagram]
  · intro hdiagram
    rw [BlockParts.updated_diagram, if_neg (by simp [hdiagram])]
    exact htrimmed.diagram

include hone in
/-- The diagram of an edit is trimmed at its ends, so the whole block is if the description is. -/
theorem BlockEdit.trimmed (h : blockEdit? text symbol entries options = some e)
    (hdescription : ∀ t ∈ e.parts.description, trimEnd t = t) : e.parts.Trimmed := by
  obtain ⟨old, -, htrimmed, hparts⟩ := BlockEdit.exists_parts h
  refine ⟨hdescription, fun g hg t ht => ?_⟩
  rw [hparts, BlockParts.updated_diagram] at hg
  split at hg
  · next hdiagram =>
    obtain rfl : symbol.diagramLines options = g := by simpa using hg
    exact (hone.diagramLine hdiagram t ht).2.2.1
  · exact htrimmed.diagram g hg t ht

include hone in
/-- Right below the block that was written, on whatever line the definition is recorded by then, the
next update changes nothing exactly if the block reads back. -/
theorem upToDate_of_relocated_iff (n : Nat)
    (h : blockEdit? text symbol entries options = some e)
    (hfound : e.Relocated text (symbol.movedTo n)) :
    UpToDate (e.apply text) (symbol.movedTo n) entries options ↔ e.parts.ReadsBack := by
  obtain ⟨-, -, hnone, -⟩ := blockEdit?_cases h
  have hlength := BlockEdit.length_front h
  have hstop : NoneAbove (hasHashComments (symbol.movedTo n).filePath)
      ((linesWithEnds text).take e.start).reverse := hnone
  have hholds : e.parts.Holds (symbol.movedTo n) entries options :=
    ⟨(BlockEdit.holds h).entries, (BlockEdit.holds h).drawn, (BlockEdit.holds h).kept⟩
  have hfound' : definitionLine? (linesWithEnds (e.apply text)) (symbol.movedTo n) =
      some (((linesWithEnds text).take e.start).length + (e.block text).length) := by
    rw [hlength]
    exact hfound
  have hindent : indentOf ((linesWithEnds text)[e.definition]?.getD []) =
      indentOf (((linesWithEnds text).drop e.definition).head?.getD []) := by
    rw [List.head?_drop]
  rw [upToDate_of_written_iff entries options (BlockEdit.lines_after h hone) hstop hindent
    (allBlank_lineEndOf text) (BlockEdit.formed h hone) (BlockEdit.description_ne_nil h) hfound',
    hholds.texts_again_iff (BlockEdit.description_ne_nil h)]
  constructor
  · rintro ⟨hall, -, htrimmed, hled⟩
    exact ⟨hall, htrimmed, hled⟩
  · rintro ⟨hall, htrimmed, hled⟩
    refine ⟨hall, ?_, htrimmed, hled⟩
    rw [lineEndOf_after h hone]
    intro t ht
    apply getLast?_ne_return_of_trimEnd
    exact BlockParts.trimEnd_of_mem_texts (BlockEdit.formed h hone)
      (BlockEdit.trimmed hone h htrimmed) t ht

/-- Updating twice gives what updating once gives exactly if there is nothing to write, or the
definition is found again right below the block and the block reads back, or another line is found
and the comment above that line is its block already. -/
theorem updateBlock_idempotent_iff (text : List Char)
    (hone : BlockParts.OneLine symbol entries options) :
    (updateBlock (updateBlock text symbol entries .starred options).text symbol entries .starred
        options).text = (updateBlock text symbol entries .starred options).text ↔
      ∀ e, blockEdit? text symbol entries options = some e →
        (e.Relocated text symbol ∧ e.parts.ReadsBack) ∨
          (¬ e.Relocated text symbol ∧ UpToDate (e.apply text) symbol entries options) := by
  rw [updateBlock_text_eq_self_iff hone, updateBlock_text]
  cases h : blockEdit? text symbol entries options with
  | none => simp [UpToDate, h]
  | some e =>
    simp only [Option.some.injEq, forall_eq']
    by_cases hfound : e.Relocated text symbol
    · have hiff : UpToDate (e.apply text) symbol entries options ↔ e.parts.ReadsBack :=
        upToDate_of_relocated_iff hone symbol.position.line h hfound
      simp [hfound, hiff]
    · simp [hfound]

/-- A function `f` recorded on the line with the number. -/
def functionOn (line : Nat) : Symbol where
  id := ""
  name := "f"
  kind := .function
  filePath := "a.js"
  position := ⟨line, 9⟩
  range := ⟨⟨line, 9⟩, ⟨line, 10⟩⟩

theorem updateBlock_idempotent_alone :
    BlockParts.OneLine (functionOn 0) ["b.js:2 (call)".toList] {} ∧
      ∀ e, blockEdit? "function f() {}\n".toList (functionOn 0) ["b.js:2 (call)".toList] {} = some e →
        (e.Relocated "function f() {}\n".toList (functionOn 0) ∧ e.parts.ReadsBack) ∨
          (¬ e.Relocated "function f() {}\n".toList (functionOn 0) ∧
            UpToDate (e.apply "function f() {}\n".toList) (functionOn 0) ["b.js:2 (call)".toList] {}) :=
  have hone : BlockParts.OneLine (functionOn 0) ["b.js:2 (call)".toList] {} :=
    ⟨by decide, by decide, by decide⟩
  ⟨hone, (updateBlock_idempotent_iff _ hone).mp (by decide +kernel)⟩

/-- With a use of the name above the definition, the block pushes the definition so far down that
the use becomes the nearer line: the second update writes a block above the use. -/
theorem updateBlock_not_idempotent :
    (updateBlock (updateBlock "f();\nfunction f() {}\n".toList (functionOn 1)
        ["b.js:2 (call)".toList] .starred {}).text (functionOn 1)
        ["b.js:2 (call)".toList] .starred {}).text ≠
      (updateBlock "f();\nfunction f() {}\n".toList (functionOn 1)
        ["b.js:2 (call)".toList] .starred {}).text := by
  decide +kernel

end Twice

end Concordance
