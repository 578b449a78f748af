import Concordance.Proofs.Block.Written

/-!
The entries that are found in a written block when its text is searched line by line.

The search takes from each line what stands behind the first tag of an entry, wherever the tag is. So
it finds the entries of a block and nothing else if no other text of the block holds the tag
(`inText_render`). Main statement: `Symbol.inText_newBlock`, for a new block.
-/

namespace Concordance

open Text

namespace Entry

variable {text line pre e : List Char}

theorem inLine?_eq_none (h : ¬ tag <:+: line) : inLine? line = none := by
  rw [inLine?, fromFirst?_eq_none_iff.mpr h]

/-- A text without the tag lists nothing. -/
theorem inText_eq_nil (h : ¬ tag <:+: text) : inText text = [] := by
  rw [inText, List.filterMap_eq_nil_iff]
  intro line hline
  obtain ⟨whole, hwhole, rfl⟩ := List.mem_map.mp hline
  have hpart : whole <:+: (linesWithEnds text).flatten := List.infix_of_mem_flatten hwhole
  rw [flatten_linesWithEnds] at hpart
  exact inLine?_eq_none fun htag => h (htag.trans ((dropLineEnd_isPrefix whole).isInfix.trans hpart))

theorem inText_eq_nil_of_trim (h : ¬ tag <:+: trim text) : inText text = [] :=
  inText_eq_nil fun htag => h ((isInfix_trim_iff (by decide) (by decide)).mpr htag)

theorem inText_append_cons (front back : List Char) :
    inText (front ++ '\n' :: back) = inText (front ++ ['\n']) ++ inText back := by
  simp only [inText, Text.lines, linesWithEnds_append_cons front back, List.map_append,
    List.filterMap_append]

theorem inText_flatten {pieces : List (List Char)} (h : ∀ p ∈ pieces, ∃ front, p = front ++ ['\n']) :
    inText pieces.flatten = pieces.flatMap inText := by
  induction pieces with
  | nil => rfl
  | cons piece pieces ih =>
    obtain ⟨⟨front, rfl⟩, hpieces⟩ := List.forall_mem_cons.mp h
    rw [List.flatten_cons, List.append_assoc, List.singleton_append, inText_append_cons, ih hpieces,
      List.flatMap_cons]

theorem inText_of_ended (h : Ended line) : inText line = (inLine? (dropLineEnd line)).toList := by
  have hlines : linesWithEnds line = [line] := by
    simpa [linesWithEnds, cutAfter] using linesWithEnds_append_of_ended h []
  rw [inText, Text.lines, hlines]
  cases hread : inLine? (dropLineEnd line) <;> simp [hread]

/-- The first tag of a line leads the entry. -/
theorem inLine?_append_tag (hpre : '@' ∉ pre) (he : Clean e) (hmark : ¬ "*/".toList <:+ e) :
    inLine? (pre ++ (tag ++ ' ' :: e)) = some e := by
  have hfound : fromFirst? tag (pre ++ (tag ++ ' ' :: e)) = some (tag ++ ' ' :: e) :=
    fromFirst?_append hpre "usedby".toList (' ' :: e)
  have htrim : trim (' ' :: e) = e := by
    rw [trim, trimStart_cons_blank (by decide)]
    exact he.1
  simp only [inLine?, hfound, List.drop_left, htrim, stripBack?_eq_none_iff.mpr hmark,
    Option.getD_none, he.1, List.isEmpty_iff, he.2, ↓reduceIte]

end Entry

namespace BlockParts

variable {indent lineEnd t e : List Char} {parts : BlockParts}

section Lines

theorem inText_innerLine_eq_nil (hindent : AllBlank indent) (hend : AllBlank lineEnd)
    (ht : ¬ Entry.tag <:+: t) :
    Entry.inText (indent ++ CommentStyle.starred.innerLine t ++ lineEnd) = [] := by
  have hstar : ∀ x, ¬ Entry.tag <+: '*' :: x ∨ x.head? = some '/' := fun x =>
    Or.inl fun hpre => absurd (List.cons_prefix_cons.mp hpre).1 (by decide)
  apply Entry.inText_eq_nil_of_trim
  rwa [trim_innerLine t hindent hend, isInfix_star_iff (by decide) (by decide) hstar]

/-- The line of an entry lists the entry. -/
theorem inText_innerLine_entry (hindent : ∀ c ∈ indent, c = ' ' ∨ c = '\t')
    (hend : lineEnd = ['\n'] ∨ lineEnd = ['\r', '\n']) (he : Entry.Clean e) (hline : '\n' ∉ e)
    (hmark : ¬ "*/".toList <:+ e) :
    Entry.inText (indent ++ CommentStyle.starred.innerLine (Entry.tag ++ [' '] ++ e) ++ lineEnd) =
      [e] := by
  have hshape : indent ++ CommentStyle.starred.innerLine (Entry.tag ++ [' '] ++ e) =
      indent ++ " * ".toList ++ (Entry.tag ++ ' ' :: e) := by
    simp [innerLine_eq]
  have hat : '@' ∉ indent ++ " * ".toList := by
    intro hmem
    rcases List.mem_append.mp hmem with hmem | hmem
    · exact absurd (hindent '@' hmem) (by decide)
    · exact absurd hmem (by decide)
  have hnewline : '\n' ∉ indent ++ " * ".toList ++ (Entry.tag ++ ' ' :: e) := by
    have hfront : '\n' ∉ indent := fun hmem => absurd (hindent '\n' hmem) (by decide)
    have htag : '\n' ∉ Entry.tag := by decide
    simp [hfront, htag, hline]
  have htrimmed : trimEnd (indent ++ " * ".toList ++ (Entry.tag ++ ' ' :: e)) =
      indent ++ " * ".toList ++ (Entry.tag ++ ' ' :: e) := by
    have hlast : trimEnd e = e := (trim_eq_self_iff.mp he.1).2
    have hcut : indent ++ " * ".toList ++ (Entry.tag ++ ' ' :: e) =
        indent ++ " * ".toList ++ Entry.tag ++ [' '] ++ e := by
      simp
    rw [hcut, trimEnd_append_of_ne_nil _ (by rw [hlast]; exact he.2), hlast]
  rw [hshape, Entry.inText_of_ended (ended_append hend hnewline),
    dropLineEnd_append hend (not_suffix_of_trimEnd (by decide) htrimmed),
    Entry.inLine?_append_tag hat he hmark]
  rfl

end Lines

section Block

variable (hindent : ∀ c ∈ indent, c = ' ' ∨ c = '\t')
  (hend : lineEnd = ['\n'] ∨ lineEnd = ['\r', '\n'])

include hindent hend in
/-- What is found in a block is found in the lines of its texts, one after the other. -/
theorem inText_render_eq_flatMap (parts : BlockParts) :
    Entry.inText (parts.render .starred indent lineEnd) =
      parts.texts.flatMap fun t =>
        Entry.inText (indent ++ CommentStyle.starred.innerLine t ++ lineEnd) := by
  obtain ⟨hblank, hendBlank⟩ := allBlank_of_layout hindent hend
  have hlines : ∀ line ∈ parts.written indent lineEnd, ∃ front, line = front ++ ['\n'] := by
    intro line hline
    obtain ⟨inner, -, rfl⟩ := List.mem_map.mp hline
    rcases hend with rfl | rfl
    · exact ⟨indent ++ inner, rfl⟩
    · exact ⟨indent ++ inner ++ ['\r'], by simp⟩
  have hfirst : Entry.inText (indent ++ CommentStyle.starred.blockStart ++ lineEnd) = [] := by
    apply Entry.inText_eq_nil_of_trim
    rw [trim_blockStart hblank hendBlank]
    decide +kernel
  have hlast : Entry.inText (indent ++ CommentStyle.starred.blockEnd ++ lineEnd) = [] := by
    apply Entry.inText_eq_nil_of_trim
    rw [trim_blockEnd hblank hendBlank]
    decide +kernel
  calc Entry.inText (parts.render .starred indent lineEnd)
      = (parts.written indent lineEnd).flatMap Entry.inText := by
        rw [render_eq_flatten]
        exact Entry.inText_flatten hlines
    _ = parts.texts.flatMap fun t =>
          Entry.inText (indent ++ CommentStyle.starred.innerLine t ++ lineEnd) := by
        rw [written_eq, List.flatMap_append, List.flatMap_append, List.flatMap_singleton,
          List.flatMap_singleton, hfirst, hlast, List.flatMap_map, List.nil_append, List.append_nil]

include hindent hend in
/-- The entries found in a block are its own, in order, if no other text of it holds their tag. -/
theorem inText_render
    (hquiet : ∀ t ∈ parts.description ++ parts.tags ++ parts.diagram.getD [], ¬ Entry.tag <:+: t)
    (hentries : ∀ e ∈ parts.entries, Entry.Clean e ∧ '\n' ∉ e ∧ ¬ "*/".toList <:+ e) :
    Entry.inText (parts.render .starred indent lineEnd) = parts.entries := by
  obtain ⟨hblank, hendBlank⟩ := allBlank_of_layout hindent hend
  have hnothing : ∀ texts : List (List Char), (∀ t ∈ texts, ¬ Entry.tag <:+: t) →
      texts.flatMap (fun t => Entry.inText
        (indent ++ CommentStyle.starred.innerLine t ++ lineEnd)) = [] := fun texts h =>
    List.flatMap_eq_nil_iff.mpr fun t ht => inText_innerLine_eq_nil hblank hendBlank (h t ht)
  have hdivider : ∀ t ∈ parts.divider, ¬ Entry.tag <:+: t := by
    intro t ht
    rw [eq_nil_of_mem_divider ht]
    decide
  simp only [List.mem_append, or_imp, forall_and] at hquiet
  obtain ⟨⟨hdescription, htags⟩, hown⟩ := hquiet
  have hdiagram : ∀ t ∈ parts.diagramTexts, ¬ Entry.tag <:+: t := by
    apply forall_mem_diagramTexts (P := fun t => ¬ Entry.tag <:+: t) (by decide)
      (by decide +kernel) (by decide +kernel)
    intro g hg t ht
    exact hown t (by simpa [Option.mem_def.mp hg] using ht)
  calc Entry.inText (parts.render .starred indent lineEnd)
      = parts.texts.flatMap (fun t => Entry.inText
          (indent ++ CommentStyle.starred.innerLine t ++ lineEnd)) :=
        inText_render_eq_flatMap hindent hend parts
    _ = parts.entries.flatMap (fun e => Entry.inText
          (indent ++ CommentStyle.starred.innerLine (Entry.tag ++ [' '] ++ e) ++ lineEnd)) := by
        simp only [texts, List.flatMap_append, hnothing _ hdescription, hnothing _ hdivider,
          hnothing _ htags, hnothing _ hdiagram, List.flatMap_map,
          List.append_nil, List.nil_append]
    _ = parts.entries.flatMap (fun e => [e]) := by
        refine List.flatMap_congr fun e he => ?_
        obtain ⟨hclean, hline, hmark⟩ := hentries e he
        exact inText_innerLine_entry hindent hend hclean hline hmark
    _ = parts.entries := List.flatMap_singleton' parts.entries

end Block

end BlockParts

namespace Symbol

/-- The entries of a new block can be read back from its text. -/
theorem inText_newBlock (s : Symbol) (options : BlockOptions) {entries : List (List Char)}
    (hentries : ∀ e ∈ entries, Entry.Clean e ∧ '\n' ∉ e ∧ ¬ "*/".toList <:+ e)
    (hdescription : ¬ Entry.tag <:+: s.defaultDescription)
    (hdiagram : options.includeDiagram = true →
      ∀ line ∈ s.diagramLines options, ¬ Entry.tag <:+: line) :
    Entry.inText (s.newBlock entries .starred options) = entries := by
  unfold newBlock
  apply BlockParts.inText_render (by simp) (Or.inl rfl) _ hentries
  intro t ht
  cases hoption : options.includeDiagram with
  | false =>
    obtain rfl : t = s.defaultDescription := by simpa [hoption] using ht
    exact hdescription
  | true =>
    simp only [hoption, ↓reduceIte, Option.getD_some, List.append_nil, List.singleton_append,
      List.mem_cons] at ht
    rcases ht with rfl | ht
    · exact hdescription
    · exact hdiagram hoption t ht

/-- A definition whose name holds the mark of a tag and the end of a comment, used in another file. -/
def quotedSelector : Symbol where
  id := ""
  name := ".a[href*=\"@b*/\"]"
  kind := .selector
  filePath := "css/a.css"
  position := ⟨0, 0⟩
  range := ⟨⟨0, 0⟩, ⟨0, 18⟩⟩
  usages := [⟨"js/b.js", ⟨4, 2⟩, ⟨⟨4, 2⟩, ⟨4, 4⟩⟩, "$('.a')", .reference⟩]

theorem inText_newBlock_quotedSelector :
    (∀ e ∈ ["js/b.js:5 (reference)".toList, "see * @usedby */ there".toList],
        Entry.Clean e ∧ '\n' ∉ e ∧ ¬ "*/".toList <:+ e) ∧
      Entry.inText (quotedSelector.newBlock
          ["js/b.js:5 (reference)".toList, "see * @usedby */ there".toList] .starred
          { includeDiagram := true }) =
        ["js/b.js:5 (reference)".toList, "see * @usedby */ there".toList] :=
  have hentries : ∀ e ∈ ["js/b.js:5 (reference)".toList, "see * @usedby */ there".toList],
      Entry.Clean e ∧ '\n' ∉ e ∧ ¬ "*/".toList <:+ e := by
    decide +kernel
  ⟨hentries, quotedSelector.inText_newBlock { includeDiagram := true } hentries
    (by decide +kernel) (by decide +kernel)⟩

end Symbol

end Concordance
