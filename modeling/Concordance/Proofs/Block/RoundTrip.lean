import Concordance.Proofs.Block.Written

/-!
Reading a written block back.

A writer puts the parts below each other and a reader tells them apart again by how their lines
start: tags and entries by their mark, a diagram by its fences, and all that comes before them is the
description. Parts whose texts keep to this (`Legible`) are read as they were written. Main statement:
`ofBlocks_render`.
-/

namespace Concordance.BlockParts

open Text

/-- Parts whose lines can be told apart. -/
structure Legible (parts : BlockParts) : Prop where
  /-- Each text is a line that is trimmed at its end and does not close the comment there. -/
  line : ∀ t ∈ parts.description ++ parts.tags ++ parts.entries ++ parts.diagram.getD [],
    LineText t ∧ ¬ "*/".toList <:+ t
  described : parts.description ≠ []
  prose : ∀ t ∈ parts.description, Prose t
  first : ∀ t ∈ parts.description.head?, t ≠ []
  last : ∀ t ∈ parts.description.getLast?, t ≠ []
  tag : ∀ t ∈ parts.tags, TagText t
  led : ∀ t ∈ parts.tags.head?, StartsTag t
  entry : ∀ t ∈ parts.entries, Entry.Clean t
  diagram : ∀ t ∈ parts.diagram.getD [], trim t ≠ fenceClose

section Legible

variable {parts : BlockParts} {t : List Char}

theorem Legible.description_line (h : parts.Legible) (ht : t ∈ parts.description) :
    LineText t ∧ ¬ "*/".toList <:+ t :=
  h.line t (by simp [ht])

theorem Legible.tag_line (h : parts.Legible) (ht : t ∈ parts.tags) :
    LineText t ∧ ¬ "*/".toList <:+ t :=
  h.line t (by simp [ht])

theorem Legible.entry_line (h : parts.Legible) (ht : t ∈ parts.entries) :
    LineText t ∧ ¬ "*/".toList <:+ t :=
  h.line t (by simp [ht])

theorem Legible.diagram_line (h : parts.Legible) {g : List (List Char)} (hg : parts.diagram = some g)
    (ht : t ∈ g) : LineText t ∧ ¬ "*/".toList <:+ t :=
  h.line t (by simp [hg, ht])

theorem Legible.formed (h : parts.Legible) : parts.Formed where
  description t ht := ⟨h.prose t ht, (h.description_line ht).1.1⟩
  first t ht := by
    rw [(h.description_line (List.mem_of_mem_head? ht)).1.2]
    exact h.first t ht
  last t ht := by
    rw [(h.description_line (List.mem_of_mem_getLast? ht)).1.2]
    exact h.last t ht
  tags t ht := ⟨h.tag t ht, (h.tag_line ht).1⟩
  entries t ht := ⟨h.entry t ht, (h.entry_line ht).1.1⟩
  diagram g hg t ht := ⟨h.diagram t (by simp [Option.mem_def.mp hg, ht]), (h.diagram_line hg ht).1.1⟩

theorem Legible.trimmed (h : parts.Legible) : parts.Trimmed where
  description _ ht := (h.description_line ht).1.2
  diagram _ hg _ ht := (h.diagram_line hg ht).1.2

/-- The mark of an entry does not complete the end of a comment. -/
theorem not_suffix_entryText (h : ¬ "*/".toList <:+ t) :
    ¬ "*/".toList <:+ Entry.tag ++ [' '] ++ t := by
  intro hsuf
  have htext : ' ' :: t <:+ Entry.tag ++ [' '] ++ t := ⟨Entry.tag, by simp⟩
  rcases List.suffix_or_suffix_of_suffix hsuf htext with hmark | hmark
  · rcases List.suffix_cons_iff.mp hmark with heq | hmark
    · exact absurd (List.cons.inj heq).1 (by decide)
    · exact h hmark
  · exact absurd (hmark.mem List.mem_cons_self) (by decide)

/-- No line of a block closes the comment early. -/
theorem Legible.not_suffix (h : parts.Legible) : ∀ t ∈ parts.texts, ¬ "*/".toList <:+ t :=
  forall_mem_texts (P := fun t => ¬ "*/".toList <:+ t) (by decide) (by decide) (by decide)
    (fun t ht => (h.description_line ht).2) (fun t ht => (h.tag_line ht).2)
    (fun e he => not_suffix_entryText (h.entry_line he).2)
    (fun g hg t ht => (h.diagram_line hg ht).2)

/-- Tags that the first of them leads stay tags. -/
theorem Legible.reread_eq (h : parts.Legible) : parts.reread = parts := by
  have hlead : parts.leadingProse = [] := leadingProse_eq_nil_iff.mpr h.led
  have htags : parts.ledTags = parts.tags := by
    rw [← leadingProse_append_ledTags parts, hlead, List.nil_append]
  rw [reread, hlead, htags]
  simp

end Legible

/-- A written block is read as the parts that it was written from, under any indentation and with
either line end. -/
theorem ofBlocks_render {parts : BlockParts} (h : parts.Legible) {indent lineEnd : List Char}
    (hindent : ∀ c ∈ indent, c = ' ' ∨ c = '\t')
    (hend : lineEnd = ['\n'] ∨ lineEnd = ['\r', '\n']) :
    ofBlocks [(linesWithEnds (parts.render .starred indent lineEnd)).map innerText] = parts := by
  obtain ⟨hblank, hendBlank⟩ := allBlank_of_layout hindent hend
  have hended : ∀ line ∈ parts.written indent lineEnd, Ended line := by
    intro line hline
    obtain ⟨inner, hinner, rfl⟩ := List.mem_map.mp hline
    apply ended_append hend
    have hnewline : '\n' ∉ indent := fun hmem => absurd (hindent _ hmem) (by decide)
    simp [hnewline, newline_notMem_lines h.formed inner hinner]
  have hlines : linesWithEnds (parts.render .starred indent lineEnd) =
      parts.written indent lineEnd := by
    rw [render_eq_flatten]
    exact linesWithEnds_flatten hended
  have hmarks : ∀ t ∈ parts.texts, ¬ "*/".toList <:+ trimEnd t := by
    intro t ht
    rw [trimEnd_of_mem_texts h.formed h.trimmed t ht]
    exact h.not_suffix t ht
  calc ofBlocks [(linesWithEnds (parts.render .starred indent lineEnd)).map innerText]
      = ofBlocks [(parts.written indent lineEnd).map innerText] := by rw [hlines]
    _ = addBlock {} ([[]] ++ parts.texts.map trimEnd ++ [[]]) := by
      rw [map_innerText_written hblank hendBlank hmarks]
      rfl
    _ = addBlock {} ([[]] ++ parts.texts ++ [[]]) := by
      rw [map_trimEnd_eq_self (trimEnd_of_mem_texts h.formed h.trimmed)]
    _ = parts.reread := addBlock_texts h.formed h.described
    _ = parts := h.reread_eq

/-- Parts of every kind, with texts that come close to a mark. -/
def noted : BlockParts where
  description := ["Fits a line; see ``` and a/* b.".toList, [], "   * mail me@b.c".toList]
  tags := ["  @param {string} a".toList, "the text @usedby".toList]
  entries := ["b.js:2 (call)".toList, "by hand".toList]
  diagram := some ["graph TD".toList, [], "  A[\"```mermaid\"]".toList]

theorem ofBlocks_render_noted :
    noted.Legible ∧
      ofBlocks [(linesWithEnds (noted.render .starred "  \t".toList ['\r', '\n'])).map innerText] =
        noted :=
  have h : noted.Legible :=
    ⟨by decide +kernel, by decide, by decide +kernel, by decide, by decide, by decide +kernel,
      by decide +kernel, by decide +kernel, by decide +kernel⟩
  ⟨h, ofBlocks_render h (by decide) (by decide)⟩

end Concordance.BlockParts
