import Concordance.Block.Update
import Concordance.Proofs.Diagram
import Concordance.Proofs.Entry.Selection
import Concordance.Proofs.Text.Lines
import Concordance.Proofs.Text.Trim

/-!
The parts of a doc block as they are read and written.

Main statements: `formed_ofBlocks` and `formed_updated` (what the parts of a block always satisfy),
`addBlock_texts` (what is read back from the texts that were written) and `texts_eq_of_reread_iff` (when
reading back and updating writes the same texts once more).
-/

namespace Concordance

open Text

namespace BlockParts

/-- The empty line between the description and the tags. -/
def divider (parts : BlockParts) : List (List Char) :=
  if !parts.description.isEmpty && !(parts.tags.isEmpty && parts.entries.isEmpty) then [[]] else []

/-- The texts of the diagram. -/
def diagramTexts (parts : BlockParts) : List (List Char) :=
  match parts.diagram with
  | none => []
  | some diagram => [[], fenceOpen] ++ diagram ++ [fenceClose]

/-- The texts between the first and the last line of a block. -/
def texts (parts : BlockParts) : List (List Char) :=
  parts.description ++ parts.divider ++ parts.tags ++
    parts.entries.map (fun e => Entry.tag ++ [' '] ++ e) ++ parts.diagramTexts

theorem eq_nil_of_mem_divider {parts : BlockParts} {t : List Char} (ht : t ∈ parts.divider) :
    t = [] := by
  unfold divider at ht
  split at ht
  · simpa using ht
  · simp at ht

section Every

variable {P : List Char → Prop} {parts : BlockParts} (hblank : P []) (hopen : P fenceOpen)
  (hclose : P fenceClose)

include hblank hopen hclose in
theorem forall_mem_diagramTexts (hdiagram : ∀ g ∈ parts.diagram, ∀ t ∈ g, P t) :
    ∀ t ∈ parts.diagramTexts, P t := by
  intro t ht
  cases hg : parts.diagram with
  | none => simp [diagramTexts, hg] at ht
  | some g =>
    simp only [diagramTexts, hg, List.mem_append, List.mem_cons, List.not_mem_nil, or_false] at ht
    rcases ht with ((rfl | rfl) | ht) | rfl
    · exact hblank
    · exact hopen
    · exact hdiagram g hg t ht
    · exact hclose

include hblank hopen hclose in
/-- What holds of the parts, each entry behind its tag, and of the lines that a block puts between them
holds of all texts. -/
theorem forall_mem_texts (hdescription : ∀ t ∈ parts.description, P t)
    (htags : ∀ t ∈ parts.tags, P t) (hentries : ∀ e ∈ parts.entries, P (Entry.tag ++ [' '] ++ e))
    (hdiagram : ∀ g ∈ parts.diagram, ∀ t ∈ g, P t) : ∀ t ∈ parts.texts, P t := by
  intro t ht
  simp only [texts, List.mem_append] at ht
  rcases ht with (((ht | ht) | ht) | ht) | ht
  · exact hdescription t ht
  · rw [eq_nil_of_mem_divider ht]
    exact hblank
  · exact htags t ht
  · obtain ⟨e, he, rfl⟩ := List.mem_map.mp ht
    exact hentries e he
  · exact forall_mem_diagramTexts hblank hopen hclose hdiagram t ht

end Every

theorem lines_eq (parts : BlockParts) (style : CommentStyle) :
    parts.lines style =
      [style.blockStart] ++ parts.texts.map style.innerLine ++ [style.blockEnd] := rfl

/-- A text that belongs to no tag and opens no diagram. -/
def Prose (t : List Char) : Prop :=
  ¬ fenceOpen <+: trimStart t ∧ ¬ ['@'] <+: trimStart t

instance (t : List Char) : Decidable (Prose t) :=
  inferInstanceAs (Decidable (¬ fenceOpen <+: trimStart t ∧ ¬ ['@'] <+: trimStart t))

/-- A text that can be a tag or go on with one. -/
def TagText (t : List Char) : Prop :=
  t ≠ [] ∧ ¬ fenceOpen <+: trimStart t ∧ ¬ Entry.tag <+: trimStart t

instance (t : List Char) : Decidable (TagText t) :=
  inferInstanceAs
    (Decidable (t ≠ [] ∧ ¬ fenceOpen <+: trimStart t ∧ ¬ Entry.tag <+: trimStart t))

/-- The text starts a tag. -/
def StartsTag (t : List Char) : Prop :=
  ['@'] <+: trimStart t

instance (t : List Char) : Decidable (StartsTag t) :=
  inferInstanceAs (Decidable (['@'] <+: trimStart t))

/-- A text as a line gives it: it holds no line feed and is trimmed at its end. -/
def LineText (t : List Char) : Prop :=
  '\n' ∉ t ∧ trimEnd t = t

instance (t : List Char) : Decidable (LineText t) :=
  inferInstanceAs (Decidable ('\n' ∉ t ∧ trimEnd t = t))

/-- What the parts of a block always satisfy. -/
structure Formed (parts : BlockParts) : Prop where
  description : ∀ t ∈ parts.description, Prose t ∧ '\n' ∉ t
  first : ∀ t ∈ parts.description.head?, trimEnd t ≠ []
  last : ∀ t ∈ parts.description.getLast?, trimEnd t ≠ []
  tags : ∀ t ∈ parts.tags, TagText t ∧ LineText t
  entries : ∀ t ∈ parts.entries, Entry.Clean t ∧ '\n' ∉ t
  diagram : ∀ g ∈ parts.diagram, ∀ t ∈ g, trim t ≠ fenceClose ∧ '\n' ∉ t

/-- The texts that are kept as they were read are trimmed at their ends. -/
structure Trimmed (parts : BlockParts) : Prop where
  description : ∀ t ∈ parts.description, trimEnd t = t
  diagram : ∀ g ∈ parts.diagram, ∀ t ∈ g, trimEnd t = t

theorem formed_empty : Formed {} := by
  constructor <;> simp

theorem trimmed_empty : Trimmed {} := by
  constructor <;> simp

theorem Formed.newline_notMem {parts : BlockParts} (h : parts.Formed) :
    ∀ t ∈ parts.texts, '\n' ∉ t := by
  apply forall_mem_texts (P := fun t => '\n' ∉ t) List.not_mem_nil (by decide) (by decide)
  · exact fun t ht => (h.description t ht).2
  · exact fun t ht => (h.tags t ht).2.1
  · intro e he
    have htag : '\n' ∉ Entry.tag ++ [' '] := by decide
    exact List.not_mem_append htag (h.entries e he).2
  · exact fun g hg t ht => (h.diagram g hg t ht).2

section OfLine

variable {line : List Char}

theorem newline_notMem_trimEnd_of_suffix {s : List Char} (h : Ended line ∨ '\n' ∉ line)
    (hs : s <:+ line) : '\n' ∉ trimEnd s := by
  intro hmem
  rcases h with ⟨body, rfl, hbody⟩ | h
  · rcases List.suffix_concat_iff.mp hs with rfl | ⟨front, rfl, hfront⟩
    · simp at hmem
    · rw [trimEnd_append_blank (by simp [AllBlank, isBlank, inRanges, blankRanges])] at hmem
      exact hbody (hfront.mem ((trimEnd_isPrefix front).mem hmem))
  · exact h (hs.mem ((trimEnd_isPrefix s).mem hmem))

/-- The text of a block line. -/
theorem lineText_innerText (h : Ended line ∨ '\n' ∉ line) : LineText (innerText line) := by
  refine ⟨?_, trimEnd_trimEnd _⟩
  have hstart : trimStart line <:+ line := List.dropWhile_suffix _
  have hinner : ∀ text, text <:+ line →
      '\n' ∉ trimEnd ((stripFront? [' '] ((stripBack? "*/".toList (trimEnd text)).getD
        (trimEnd text))).getD ((stripBack? "*/".toList (trimEnd text)).getD (trimEnd text))) := by
    intro text htext hmem
    apply newline_notMem_trimEnd_of_suffix h htext
    apply (stripBack?_getD_isPrefix _ _).mem
    exact (stripFront?_getD_suffix _ _).mem ((trimEnd_isPrefix _).mem hmem)
  unfold innerText
  dsimp only
  apply hinner
  split
  · next rest hrest =>
    have hsuf : rest <:+ trimStart line := by
      simp only [Option.orElse_eq_orElse, Option.orElse_eq_or, Option.or_eq_some_iff] at hrest
      rcases hrest with hrest | ⟨-, hrest⟩
      · exact ⟨_, (stripFront?_eq_some_iff.mp hrest).symm⟩
      · exact ⟨_, (stripFront?_eq_some_iff.mp hrest).symm⟩
    exact hsuf.trans hstart
  · split
    · exact hstart
    · exact (stripFront?_getD_suffix _ _).trans hstart

/-- The text of a line comment. -/
theorem lineText_lineCommentBody {hash : Bool} (h : Ended line ∨ '\n' ∉ line) :
    LineText ((lineCommentBody? hash line).getD []) := by
  have htrim : '\n' ∉ trim line :=
    newline_notMem_trimEnd_of_suffix h (List.dropWhile_suffix _)
  have hbody : ∀ body, body <:+ trim line →
      LineText (trimEnd ((stripFront? [' '] body).getD body)) := by
    intro body hbody
    refine ⟨fun hmem => htrim ?_, trimEnd_trimEnd _⟩
    exact hbody.mem ((stripFront?_getD_suffix _ _).mem ((trimEnd_isPrefix _).mem hmem))
  have hnil : LineText [] := ⟨List.not_mem_nil, rfl⟩
  unfold lineCommentBody?
  dsimp only
  split
  · next rest hrest =>
    apply hbody
    exact (List.dropWhile_suffix _).trans ⟨_, (stripFront?_eq_some_iff.mp hrest).symm⟩
  · split
    · cases hrest : stripFront? "#".toList (trim line) with
      | none => exact hnil
      | some rest => exact hbody rest ⟨_, (stripFront?_eq_some_iff.mp hrest).symm⟩
    · exact hnil

end OfLine

section Invariant

variable {parts : BlockParts} {r : Reading} {t : List Char}

/-- What a reading always satisfies. -/
structure Reading.Sound (r : Reading) : Prop where
  parts : r.parts.Formed
  trimmed : r.parts.Trimmed
  description : ∀ t ∈ r.description, Prose t ∧ LineText t
  fence : ∀ g ∈ r.fence, ∀ t ∈ g, trim t ≠ fenceClose ∧ LineText t

theorem head?_eq_at_iff : (trimStart t).head? = some '@' ↔ StartsTag t := by
  cases h : trimStart t with
  | nil => simp [StartsTag, h]
  | cons c cs => simp [StartsTag, h, eq_comm]

theorem Reading.Sound.keepDiagram (h : r.Sound) {g : List (List Char)} (hg : r.fence = some g) :
    (r.keepDiagram g).Formed ∧ (r.keepDiagram g).Trimmed := by
  have hfence := h.fence g hg
  have hkept : ∀ g' ∈ (r.keepDiagram g).diagram, ∀ t ∈ g', trim t ≠ fenceClose ∧ LineText t := by
    intro g' hg' t ht
    cases hd : r.parts.diagram with
    | none =>
      obtain rfl : g = g' := by simpa [Reading.keepDiagram, hd] using hg'
      exact hfence t ht
    | some d =>
      obtain rfl : d = g' := by simpa [Reading.keepDiagram, hd] using hg'
      exact ⟨(h.parts.diagram d hd t ht).1, (h.parts.diagram d hd t ht).2, h.trimmed.diagram d hd t ht⟩
  refine ⟨{ h.parts with diagram := ?_ }, ⟨h.trimmed.description, ?_⟩⟩
  · exact fun g' hg' t ht => ⟨(hkept g' hg' t ht).1, (hkept g' hg' t ht).2.1⟩
  · exact fun g' hg' t ht => (hkept g' hg' t ht).2.2

theorem forall_mem_concat {α : Type} {P : α → Prop} {xs : List α} {x : α} (h : ∀ y ∈ xs, P y)
    (hx : P x) : ∀ y ∈ xs ++ [x], P y :=
  List.forall_mem_append.mpr ⟨h, List.forall_mem_singleton.mpr hx⟩

/-- A tag, or a line that goes on with one, may be added. -/
theorem Reading.Sound.addTag (h : r.Sound) (ht : TagText t ∧ LineText t) (tagged : Bool) :
    Reading.Sound
      { r with parts := { r.parts with tags := r.parts.tags ++ [t] }, inTags := tagged } where
  parts := { h.parts with tags := forall_mem_concat h.parts.tags ht }
  trimmed := ⟨h.trimmed.description, h.trimmed.diagram⟩
  description := h.description
  fence := h.fence

/-- An entry may be added, if it is not empty. -/
theorem Reading.Sound.addEntry (h : r.Sound) (ht : LineText t) {rest : List Char}
    (hrest : stripFront? Entry.tag (trimStart t) = some rest) (tagged : Bool) :
    Reading.Sound { r with
      parts := { r.parts with
        entries := if (trim rest).isEmpty then r.parts.entries else r.parts.entries ++ [trim rest] }
      inTags := tagged } where
  parts := by
    refine { h.parts with entries := ?_ }
    dsimp only
    split
    · exact h.parts.entries
    · next hempty =>
      refine forall_mem_concat h.parts.entries
        ⟨⟨trim_trim rest, by simpa using hempty⟩, fun hmem => ht.1 ?_⟩
      have hline : '\n' ∈ rest :=
        (List.dropWhile_suffix _).mem ((trimEnd_isPrefix _).mem hmem)
      have hstart : '\n' ∈ trimStart t := by
        rw [stripFront?_eq_some_iff.mp hrest]
        exact List.mem_append_right _ hline
      exact (List.dropWhile_suffix _).mem hstart
  trimmed := ⟨h.trimmed.description, h.trimmed.diagram⟩
  description := h.description
  fence := h.fence

/-- A line read in a diagram keeps what a reading satisfies. -/
theorem Reading.Sound.step_diagram (h : r.Sound) (ht : LineText t) {g : List (List Char)}
    (hg : r.fence = some g) : (r.step t).Sound := by
  simp only [Reading.step, hg]
  split
  · obtain ⟨hformed, htrimmed⟩ := h.keepDiagram hg
    exact ⟨hformed, htrimmed, h.description, by simp⟩
  · next hopen =>
    refine ⟨h.parts, h.trimmed, h.description, fun g' hg' => ?_⟩
    obtain rfl : g ++ [t] = g' := by simpa using hg'
    exact forall_mem_concat (h.fence g hg) ⟨by simpa using hopen, ht⟩

/-- A line read keeps what a reading satisfies. -/
theorem Reading.Sound.step (h : r.Sound) (ht : LineText t) : (r.step t).Sound := by
  cases hg : r.fence with
  | some g => exact h.step_diagram ht hg
  | none =>
    simp only [Reading.step, hg]
    split
    · exact ⟨h.parts, h.trimmed, h.description, by simp⟩
    · next hfence =>
      have hfence : ¬ fenceOpen <+: trimStart t := fun hpre =>
        hfence (List.isPrefixOf_iff_prefix.mpr hpre)
      split
      · next rest hrest => exact hg ▸ h.addEntry ht hrest true
      · next hentry =>
        rw [stripFront?_eq_none_iff] at hentry
        split
        · next htag =>
          have htag : StartsTag t := head?_eq_at_iff.mp (by simpa using htag)
          have hne : t ≠ [] := by
            rintro rfl
            simp [StartsTag] at htag
          exact hg ▸ h.addTag ⟨⟨hne, hfence, hentry⟩, ht⟩ true
        · next htag =>
          have htag : ¬ StartsTag t := fun hs => htag (by simpa using head?_eq_at_iff.mpr hs)
          split
          · split
            · exact h
            · next hne => exact hg ▸ h.addTag ⟨⟨by simpa using hne, hfence, hentry⟩, ht⟩ _
          · have hdescription := forall_mem_concat h.description ⟨⟨hfence, htag⟩, ht⟩
            exact hg ▸ ⟨h.parts, h.trimmed, hdescription, h.fence⟩

theorem trimEmptyLines_eq (ls : List (List Char)) :
    trimEmptyLines ls = (ls.dropWhile List.isEmpty).rdropWhile List.isEmpty := rfl

theorem mem_of_mem_trimEmptyLines {ls : List (List Char)} (h : t ∈ trimEmptyLines ls) : t ∈ ls :=
  (List.dropWhile_suffix _).mem ((List.rdropWhile_prefix _ _).mem h)

theorem head?_trimEmptyLines {ls : List (List Char)} (h : t ∈ (trimEmptyLines ls).head?) :
    t ≠ [] := by
  have hpre : trimEmptyLines ls <+: ls.dropWhile List.isEmpty := List.rdropWhile_prefix _ _
  obtain ⟨rest, hrest⟩ := List.head?_eq_some_iff.mp h
  rw [hrest] at hpre
  obtain ⟨more, hmore⟩ := hpre
  have hhead := List.head?_dropWhile_not List.isEmpty ls
  rw [← hmore] at hhead
  simpa using hhead

theorem getLast?_trimEmptyLines {ls : List (List Char)} (h : t ∈ (trimEmptyLines ls).getLast?) :
    t ≠ [] := by
  rw [trimEmptyLines_eq] at h
  obtain ⟨hne, hlast⟩ := List.mem_getLast?_eq_getLast h
  have hnot := List.rdropWhile_last_not List.isEmpty (ls.dropWhile List.isEmpty) hne
  rintro rfl
  rw [← hlast] at hnot
  exact hnot rfl

theorem prose_nil : Prose [] := by
  constructor
  · rw [trimStart_nil, List.prefix_nil]
    decide
  · rw [trimStart_nil, List.prefix_nil]
    decide

/-- The parts once an open diagram is kept. -/
def Reading.kept (r : Reading) : BlockParts :=
  match r.fence with
  | some diagram => r.keepDiagram diagram
  | none => r.parts

/-- The parts with one more description. -/
def addDescription (parts : BlockParts) (description : List (List Char)) : BlockParts :=
  if description.isEmpty then parts
  else if parts.description.isEmpty then { parts with description := description }
  else { parts with description := parts.description ++ [[]] ++ description }

theorem Reading.finish_eq (r : Reading) :
    r.finish = r.kept.addDescription (trimEmptyLines r.description) := rfl

theorem Reading.Sound.kept (h : r.Sound) : r.kept.Formed ∧ r.kept.Trimmed := by
  unfold Reading.kept
  cases hf : r.fence with
  | none => exact ⟨h.parts, h.trimmed⟩
  | some g => exact h.keepDiagram hf

theorem formed_addDescription {description : List (List Char)} (hformed : parts.Formed)
    (htrimmed : parts.Trimmed) (hlines : ∀ u ∈ description, Prose u ∧ LineText u)
    (hfirst : ∀ t ∈ description.head?, t ≠ []) (hlast : ∀ t ∈ description.getLast?, t ≠ []) :
    (parts.addDescription description).Formed ∧ (parts.addDescription description).Trimmed := by
  have hfirst : ∀ t ∈ description.head?, trimEnd t ≠ [] := fun t ht => by
    rw [(hlines t (List.mem_of_mem_head? ht)).2.2]
    exact hfirst t ht
  have hlast : ∀ t ∈ description.getLast?, trimEnd t ≠ [] := fun t ht => by
    rw [(hlines t (List.mem_of_mem_getLast? ht)).2.2]
    exact hlast t ht
  unfold addDescription
  split
  · exact ⟨hformed, htrimmed⟩
  · next hne =>
    have hne : description ≠ [] := by simpa using hne
    split
    · exact ⟨{ hformed with
        description := fun u hu => ⟨(hlines u hu).1, (hlines u hu).2.1⟩
        first := hfirst
        last := hlast },
        { htrimmed with description := fun u hu => (hlines u hu).2.2 }⟩
    · next hsome =>
      have hsome : parts.description ≠ [] := by simpa using hsome
      have hmem : ∀ u ∈ parts.description ++ [[]] ++ description,
          u ∈ parts.description ∨ u = [] ∨ u ∈ description := by
        simp
      refine ⟨{ hformed with description := ?_, first := ?_, last := ?_ },
        { htrimmed with description := ?_ }⟩
      · intro u hu
        rcases hmem u hu with hu | rfl | hu
        · exact hformed.description u hu
        · exact ⟨prose_nil, List.not_mem_nil⟩
        · exact ⟨(hlines u hu).1, (hlines u hu).2.1⟩
      · intro u hu
        rw [List.append_assoc, List.head?_append_of_ne_nil _ hsome] at hu
        exact hformed.first u hu
      · intro u hu
        rw [List.getLast?_append_of_ne_nil _ hne] at hu
        exact hlast u hu
      · intro u hu
        rcases hmem u hu with hu | rfl | hu
        · exact htrimmed.description u hu
        · rfl
        · exact (hlines u hu).2.2

/-- The parts of a finished reading. -/
theorem Reading.Sound.finish (h : r.Sound) : r.finish.Formed ∧ r.finish.Trimmed := by
  rw [Reading.finish_eq]
  exact formed_addDescription h.kept.1 h.kept.2
    (fun u hu => h.description u (mem_of_mem_trimEmptyLines hu))
    (fun t => head?_trimEmptyLines) (fun t => getLast?_trimEmptyLines)

theorem formed_addBlock {block : List (List Char)} (hformed : parts.Formed)
    (htrimmed : parts.Trimmed) (hblock : ∀ t ∈ block, LineText t) :
    (parts.addBlock block).Formed ∧ (parts.addBlock block).Trimmed := by
  have hsound : ∀ (ls : List (List Char)) (r : Reading), r.Sound → (∀ t ∈ ls, LineText t) →
      (ls.foldl Reading.step r).Sound := by
    intro ls
    induction ls with
    | nil => exact fun r hr _ => hr
    | cons l ls ih =>
      intro r hr hls
      exact ih _ (hr.step (hls l List.mem_cons_self)) fun t ht => hls t (List.mem_cons_of_mem l ht)
  exact (hsound block { parts := parts } ⟨hformed, htrimmed, by simp, by simp⟩ hblock).finish

/-- What is read from lines is well formed. -/
theorem formed_ofBlocks {blocks : List (List (List Char))}
    (h : ∀ block ∈ blocks, ∀ t ∈ block, LineText t) :
    (ofBlocks blocks).Formed ∧ (ofBlocks blocks).Trimmed := by
  have hfold : ∀ parts : BlockParts, parts.Formed → parts.Trimmed →
      (blocks.foldl addBlock parts).Formed ∧ (blocks.foldl addBlock parts).Trimmed := by
    induction blocks with
    | nil => exact fun parts hformed htrimmed => ⟨hformed, htrimmed⟩
    | cons block blocks ih =>
      intro parts hformed htrimmed
      obtain ⟨hformed, htrimmed⟩ := formed_addBlock hformed htrimmed (h block List.mem_cons_self)
      exact ih (fun b hb => h b (List.mem_cons_of_mem block hb)) _ hformed htrimmed
  exact hfold {} formed_empty trimmed_empty

end Invariant

section Update

variable {parts : BlockParts} {symbol : Symbol} {entries : List (List Char)}
  {options : BlockOptions}

/-- The texts that go into a block of the symbol hold no line feed: its name, the entries, and the
paths that its diagram shows. -/
structure OneLine (symbol : Symbol) (entries : List (List Char)) (options : BlockOptions) :
    Prop where
  name : '\n' ∉ symbol.qualifiedName.toList
  entries : ∀ t ∈ entries, '\n' ∉ t
  paths : options.includeDiagram = true →
    ∀ u ∈ symbol.usages, '\n' ∉ (displayPath u.filePath options.graph.root).toList

instance (symbol : Symbol) (entries : List (List Char)) (options : BlockOptions) :
    Decidable (OneLine symbol entries options) :=
  decidable_of_iff
    ('\n' ∉ symbol.qualifiedName.toList ∧ (∀ t ∈ entries, '\n' ∉ t) ∧
      (options.includeDiagram = true →
        ∀ u ∈ symbol.usages, '\n' ∉ (displayPath u.filePath options.graph.root).toList))
    ⟨fun h => ⟨h.1, h.2.1, h.2.2⟩, fun h => ⟨h.name, h.entries, h.paths⟩⟩

theorem OneLine.diagramLine (h : OneLine symbol entries options)
    (hdiagram : options.includeDiagram = true) :
    ∀ line ∈ symbol.diagramLines options, DiagramLine line := by
  apply diagramLines_spec _ (h.paths hdiagram)
  intro hmem
  apply h.name
  unfold Symbol.qualifiedName
  split
  · rw [String.toList_append]
    exact List.mem_append_right _ hmem
  · exact hmem

theorem label_cons (kind : SymbolKind) :
    ∃ c rest, kind.label.toList = c :: rest ∧ isBlank c = false ∧ c ≠ '@' ∧ c ≠ '`' ∧
      '\n' ∉ rest := by
  cases kind <;> exact ⟨_, _, rfl, by decide, by decide, by decide, by decide⟩

/-- The default description is prose. -/
theorem defaultDescription_spec (hname : '\n' ∉ symbol.qualifiedName.toList) :
    Prose symbol.defaultDescription ∧ '\n' ∉ symbol.defaultDescription ∧
      trimEnd symbol.defaultDescription ≠ [] := by
  obtain ⟨c, rest, hlabel, hblank, hat, htick, hrest⟩ := label_cons symbol.kind
  have hshape : symbol.defaultDescription =
      c :: (rest ++ [' '] ++ symbol.qualifiedName.toList) := by
    simp [Symbol.defaultDescription, hlabel]
  have hc : c ≠ '\n' := by
    rintro rfl
    revert hblank
    decide
  rw [hshape]
  refine ⟨⟨?_, ?_⟩, ?_, ?_⟩
  · rw [trimStart_cons hblank]
    intro hpre
    exact htick (List.cons_prefix_cons.mp hpre).1.symm
  · rw [trimStart_cons hblank]
    intro hpre
    exact hat (List.cons_prefix_cons.mp hpre).1.symm
  · simp [hc.symm, hrest, hname]
  · rw [trimEnd_cons_of_not_blank hblank]
    simp

theorem mem_trim {c : Char} {t : List Char} (h : c ∈ trim t) : c ∈ t :=
  (List.dropWhile_suffix _).mem ((trimEnd_isPrefix _).mem h)

theorem updated_entries (parts : BlockParts) :
    (parts.updated symbol entries options).entries =
      Entry.merge options.groupByFile (parts.entries ++ entries) := rfl

theorem updated_description (parts : BlockParts) :
    (parts.updated symbol entries options).description =
      if parts.description.isEmpty then [symbol.defaultDescription] else parts.description := rfl

theorem updated_diagram (parts : BlockParts) :
    (parts.updated symbol entries options).diagram =
      if options.includeDiagram then some (symbol.diagramLines options) else parts.diagram := rfl

theorem updated_description_ne_nil (parts : BlockParts) :
    (parts.updated symbol entries options).description ≠ [] := by
  rw [updated_description]
  split
  · simp
  · next h => simpa using h

/-- An update keeps the parts well formed. -/
theorem formed_updated (h : parts.Formed) (hone : OneLine symbol entries options) :
    (parts.updated symbol entries options).Formed := by
  obtain ⟨hprose, hline, hne⟩ := defaultDescription_spec hone.name
  constructor
  · rw [updated_description]
    split
    · simpa using ⟨hprose, hline⟩
    · exact h.description
  · rw [updated_description]
    split
    · simpa using hne
    · exact h.first
  · rw [updated_description]
    split
    · simpa using hne
    · exact h.last
  · exact h.tags
  · intro t ht
    rw [updated_entries] at ht
    have hclean := Entry.mem_cleaned_of_mem_merge ht
    obtain ⟨⟨x, hx, rfl⟩, -⟩ := Entry.mem_cleaned.mp hclean
    refine ⟨Entry.clean_of_mem_cleaned hclean, fun hmem => ?_⟩
    rcases List.mem_append.mp hx with hx | hx
    · exact (h.entries x hx).2 (mem_trim hmem)
    · exact hone.entries x hx (mem_trim hmem)
  · intro g hg t ht
    rw [updated_diagram] at hg
    split at hg
    · next hdiagram =>
      obtain rfl : symbol.diagramLines options = g := by simpa using hg
      obtain ⟨-, hnewline, -, hclose⟩ := hone.diagramLine hdiagram t ht
      exact ⟨hclose, hnewline⟩
    · exact h.diagram g hg t ht

end Update

section ReadBack

variable {parts : BlockParts} {t : List Char} {ls d : List (List Char)} {b : Bool}
  {D T E : List (List Char)} {G : Option (List (List Char))}

theorem not_isPrefixOf {mark text : List Char} (h : ¬ mark <+: text) :
    mark.isPrefixOf text = false := by
  rw [← Bool.not_eq_true]
  exact fun hpre => h (List.isPrefixOf_iff_prefix.mp hpre)

theorem head?_beq_at (h : ¬ StartsTag t) : ((trimStart t).head? == some '@') = false := by
  rw [beq_eq_false_iff_ne]
  exact fun hhead => h (head?_eq_at_iff.mp hhead)

namespace Reading

theorem step_prose (ht : Prose t) : step ⟨parts, d, false, none⟩ t = ⟨parts, d ++ [t], false, none⟩ := by
  have hentry : stripFront? Entry.tag (trimStart t) = none :=
    stripFront?_eq_none_iff.mpr fun hpre =>
      ht.2 ((show ['@'] <+: Entry.tag by decide).trans hpre)
  simp [step, not_isPrefixOf ht.1, hentry, head?_beq_at ht.2]

theorem step_tag (ht : TagText t) (h : b = true ∨ StartsTag t) :
    step ⟨⟨D, T, E, G⟩, d, b, none⟩ t = ⟨⟨D, T ++ [t], E, G⟩, d, true, none⟩ := by
  obtain ⟨hne, hopen, hentry⟩ := ht
  have hentry : stripFront? Entry.tag (trimStart t) = none := stripFront?_eq_none_iff.mpr hentry
  by_cases hat : StartsTag t
  · have hhead : ((trimStart t).head? == some '@') = true := by
      simpa using head?_eq_at_iff.mpr hat
    simp [step, not_isPrefixOf hopen, hentry, hhead]
  · have htags : b = true := h.resolve_right hat
    simp [step, not_isPrefixOf hopen, hentry, head?_beq_at hat, htags, hne]

theorem step_entry (ht : Entry.Clean t) :
    step ⟨⟨D, T, E, G⟩, d, b, none⟩ (Entry.tag ++ [' '] ++ t) =
      ⟨⟨D, T, E ++ [t], G⟩, d, true, none⟩ := by
  have hstart : trimStart (Entry.tag ++ [' '] ++ t) = Entry.tag ++ ([' '] ++ t) := by
    rw [List.append_assoc]
    exact trimStart_cons (c := '@') (by decide)
  have hopen : ¬ fenceOpen <+: Entry.tag ++ ([' '] ++ t) := by
    intro hpre
    exact absurd (List.cons_prefix_cons.mp hpre).1 (by decide)
  have htrim : trim ([' '] ++ t) = t := by
    rw [trim, List.singleton_append, trimStart_cons_blank (by decide)]
    exact ht.1
  have hne : t.isEmpty = false := by simpa using ht.2
  simp only [step, hstart, not_isPrefixOf hopen, stripFront?_append, htrim, hne,
    Bool.false_eq_true, ↓reduceIte]

theorem step_nil : step ⟨⟨D, T, E, G⟩, d, b, none⟩ [] =
    ⟨⟨D, T, E, G⟩, d ++ (if b then [] else [[]]), b, none⟩ := by
  cases b with
  | false => exact step_prose prose_nil
  | true =>
    rw [if_pos rfl, List.append_nil]
    rfl

theorem foldl_prose (hls : ∀ t ∈ ls, Prose t) :
    ls.foldl step ⟨parts, d, false, none⟩ = ⟨parts, d ++ ls, false, none⟩ := by
  induction ls generalizing d with
  | nil => simp
  | cons l ls ih =>
    rw [List.foldl_cons, step_prose (hls l List.mem_cons_self),
      ih fun t ht => hls t (List.mem_cons_of_mem l ht)]
    simp

theorem foldl_tags (hls : ∀ t ∈ ls, TagText t) (h : b = true ∨ ∀ t ∈ ls.head?, StartsTag t) :
    ls.foldl step ⟨⟨D, T, E, G⟩, d, b, none⟩ =
      ⟨⟨D, T ++ ls, E, G⟩, d, b || !ls.isEmpty, none⟩ := by
  induction ls generalizing T b with
  | nil => simp
  | cons l ls ih =>
    rw [List.foldl_cons, step_tag (hls l List.mem_cons_self) (h.imp id fun hhead => hhead l rfl),
      ih (fun t ht => hls t (List.mem_cons_of_mem l ht)) (Or.inl rfl)]
    simp

theorem foldl_entries (hls : ∀ e ∈ ls, Entry.Clean e) :
    (ls.map fun e => Entry.tag ++ [' '] ++ e).foldl step ⟨⟨D, T, E, G⟩, d, b, none⟩ =
      ⟨⟨D, T, E ++ ls, G⟩, d, b || !ls.isEmpty, none⟩ := by
  induction ls generalizing E b with
  | nil => simp
  | cons e es ih =>
    rw [List.map_cons, List.foldl_cons, step_entry (hls e List.mem_cons_self),
      ih fun t ht => hls t (List.mem_cons_of_mem e ht)]
    simp

theorem foldl_inside {g : List (List Char)} (hls : ∀ t ∈ ls, trim t ≠ fenceClose) :
    ls.foldl step ⟨parts, d, b, some g⟩ = ⟨parts, d, b, some (g ++ ls)⟩ := by
  induction ls generalizing g with
  | nil => simp
  | cons l ls ih =>
    have hstep : step ⟨parts, d, b, some g⟩ l = ⟨parts, d, b, some (g ++ [l])⟩ := by
      simp [step, hls l List.mem_cons_self]
    rw [List.foldl_cons, hstep, ih fun t ht => hls t (List.mem_cons_of_mem l ht)]
    simp

/-- A diagram is read back whole; the empty line before it may go to the description. -/
theorem foldl_diagram (hls : ∀ t ∈ ls, trim t ≠ fenceClose) :
    ([[], fenceOpen] ++ ls ++ [fenceClose]).foldl step ⟨⟨D, T, E, none⟩, d, b, none⟩ =
      ⟨⟨D, T, E, some ls⟩, d ++ (if b then [] else [[]]), b, none⟩ := by
  have hopen : ∀ d', step ⟨⟨D, T, E, none⟩, d', b, none⟩ fenceOpen =
      ⟨⟨D, T, E, none⟩, d', b, some []⟩ := by
    intro d'
    have hpre : fenceOpen.isPrefixOf (trimStart fenceOpen) = true := by decide
    simp [step, hpre]
  have hclose : ∀ d', step ⟨⟨D, T, E, none⟩, d', b, some ls⟩ fenceClose =
      ⟨⟨D, T, E, some ls⟩, d', b, none⟩ := by
    intro d'
    have htrim : (trim fenceClose == fenceClose) = true := by decide
    simp [step, htrim, keepDiagram]
  simp only [List.foldl_append, List.foldl_cons, List.foldl_nil, step_nil, hopen,
    foldl_inside hls, List.nil_append, hclose]

end Reading

theorem trimEmptyLines_between {pre ls post : List (List Char)} (hpre : ∀ l ∈ pre, l = [])
    (hpost : ∀ l ∈ post, l = []) (hne : ls ≠ []) (hfirst : ∀ l ∈ ls.head?, l ≠ [])
    (hlast : ∀ l ∈ ls.getLast?, l ≠ []) : trimEmptyLines (pre ++ ls ++ post) = ls := by
  have hfront : (pre ++ ls ++ post).dropWhile List.isEmpty = ls ++ post := by
    rw [List.append_assoc, List.dropWhile_append_of_pos (by simpa using hpre)]
    obtain ⟨l, more, rfl⟩ := List.exists_cons_of_ne_nil hne
    exact List.dropWhile_cons_of_neg (by simpa using hfirst l rfl)
  have hback : (ls ++ post).reverse.dropWhile List.isEmpty = ls.reverse := by
    rw [List.reverse_append, List.dropWhile_append_of_pos (by simpa using hpost)]
    obtain ⟨l, more, hmore⟩ := List.exists_cons_of_ne_nil (List.reverse_ne_nil_iff.mpr hne)
    rw [hmore]
    have hl : l ≠ [] := hlast l (by rw [List.getLast?_eq_head?_reverse, hmore]; rfl)
    exact List.dropWhile_cons_of_neg (by simpa using hl)
  rw [trimEmptyLines, hfront, hback, List.reverse_reverse]

/-- The tags that read as a description because no tag stands before them. -/
def leadingProse (parts : BlockParts) : List (List Char) :=
  parts.tags.takeWhile fun t => !decide (StartsTag t)

/-- The tags from the first that starts one. -/
def ledTags (parts : BlockParts) : List (List Char) :=
  parts.tags.dropWhile fun t => !decide (StartsTag t)

/-- What is read back from the texts of the parts. -/
def reread (parts : BlockParts) : BlockParts where
  description := parts.description ++
    if parts.leadingProse.isEmpty then [] else [] :: parts.leadingProse
  tags := parts.ledTags
  entries := parts.entries
  diagram := parts.diagram

theorem startsTag_of_head?_ledTags (ht : t ∈ parts.ledTags.head?) : StartsTag t := by
  have hhead := List.head?_dropWhile_not (fun t => !decide (StartsTag t)) parts.tags
  rw [show parts.tags.dropWhile (fun t => !decide (StartsTag t)) = parts.ledTags from rfl,
    Option.mem_def.mp ht] at hhead
  simpa using hhead

theorem leadingProse_append_ledTags (parts : BlockParts) :
    parts.leadingProse ++ parts.ledTags = parts.tags :=
  List.takeWhile_append_dropWhile

theorem prose_of_mem_leadingProse (h : parts.Formed) (ht : t ∈ parts.leadingProse) :
    Prose t ∧ t ≠ [] := by
  have hall : parts.leadingProse.all (fun t => !decide (StartsTag t)) = true := List.all_takeWhile
  have hstart : ¬ StartsTag t := by simpa using List.all_eq_true.mp hall t ht
  obtain ⟨hne, hopen, -⟩ := (h.tags t ((List.takeWhile_prefix _).mem ht)).1
  exact ⟨⟨hopen, hstart⟩, hne⟩

/-- The description that is read back: empty lines at the ends are gone, those in between stay. -/
theorem trimEmptyLines_reread (h : parts.Formed) (hne : parts.description ≠ [])
    (blanks : List (List Char)) (hblanks : ∀ l ∈ blanks, l = []) :
    trimEmptyLines ([[]] ++ (parts.description ++ parts.divider ++ parts.leadingProse) ++ blanks) =
      parts.reread.description := by
  have hfirst : ∀ l ∈ parts.description.head?, l ≠ [] := by
    rintro l hl rfl
    exact h.first [] hl rfl
  have hlast : ∀ l ∈ parts.description.getLast?, l ≠ [] := by
    rintro l hl rfl
    exact h.last [] hl rfl
  by_cases hlead : parts.leadingProse = []
  · have hshape : [[]] ++ (parts.description ++ parts.divider ++ parts.leadingProse) ++ blanks =
        [[]] ++ parts.description ++ (parts.divider ++ blanks) := by
      simp [hlead]
    rw [hshape, trimEmptyLines_between (by simp) ?_ hne hfirst hlast]
    · simp [reread, hlead]
    · intro l hl
      rcases List.mem_append.mp hl with hl | hl
      · exact eq_nil_of_mem_divider hl
      · exact hblanks l hl
  · have htags : parts.tags ≠ [] := by
      rw [← leadingProse_append_ledTags]
      simp [hlead]
    have hdivider : parts.divider = [[]] := by
      simp [divider, hne, htags]
    rw [trimEmptyLines_between (by simp) hblanks (by simp [hne]) ?_ ?_]
    · simp [reread, hlead, hdivider]
    · intro l hl
      rw [List.append_assoc, List.head?_append_of_ne_nil _ hne] at hl
      exact hfirst l hl
    · intro l hl
      rw [List.getLast?_append_of_ne_nil _ hlead] at hl
      exact (prose_of_mem_leadingProse h (List.mem_of_mem_getLast? hl)).2

/-- The diagram is read back, and no more than empty lines go to the description. -/
theorem foldl_diagramTexts (h : parts.Formed) (D T E d : List (List Char)) (b : Bool) :
    ∃ blanks : List (List Char), (∀ l ∈ blanks, l = []) ∧
      parts.diagramTexts.foldl Reading.step ⟨⟨D, T, E, none⟩, d, b, none⟩ =
        ⟨⟨D, T, E, parts.diagram⟩, d ++ blanks, b, none⟩ := by
  cases hg : parts.diagram with
  | none => exact ⟨[], by simp, by simp [diagramTexts, hg]⟩
  | some g =>
    have hinside := Reading.foldl_diagram (D := D) (T := T) (E := E) (d := d) (b := b)
      fun t ht => (h.diagram g hg t ht).1
    refine ⟨if b then [] else [[]], by cases b <;> simp, ?_⟩
    simpa only [diagramTexts, hg] using hinside

/-- Reading the texts of a block back: tags that no tag leads become part of the description, all
else stays what it was. -/
theorem addBlock_texts (h : parts.Formed) (hne : parts.description ≠ []) :
    addBlock {} ([[]] ++ parts.texts ++ [[]]) = parts.reread := by
  have htexts : parts.texts =
      (parts.description ++ parts.divider ++ parts.leadingProse) ++ parts.ledTags ++
        parts.entries.map (fun e => Entry.tag ++ [' '] ++ e) ++ parts.diagramTexts := by
    rw [texts, ← leadingProse_append_ledTags parts]
    simp only [List.append_assoc]
  have hprose : ∀ t ∈ parts.description ++ parts.divider ++ parts.leadingProse, Prose t := by
    intro t ht
    simp only [List.append_assoc, List.mem_append] at ht
    rcases ht with ht | ht | ht
    · exact (h.description t ht).1
    · rw [eq_nil_of_mem_divider ht]
      exact prose_nil
    · exact (prose_of_mem_leadingProse h ht).1
  have hled : ∀ t ∈ parts.ledTags, TagText t := fun t ht =>
    (h.tags t ((List.dropWhile_suffix _).mem ht)).1
  have hends := trimEmptyLines_reread h hne
  generalize parts.description ++ parts.divider ++ parts.leadingProse = prose at htexts hprose hends
  have hopening : Reading.step { parts := {} } [] = ⟨⟨[], [], [], none⟩, [[]], false, none⟩ :=
    Reading.step_nil
  have hfirst : prose.foldl Reading.step ⟨⟨[], [], [], none⟩, [[]], false, none⟩ =
      ⟨⟨[], [], [], none⟩, [[]] ++ prose, false, none⟩ := Reading.foldl_prose hprose
  have hthen : parts.ledTags.foldl Reading.step ⟨⟨[], [], [], none⟩, [[]] ++ prose, false, none⟩ =
      ⟨⟨[], parts.ledTags, [], none⟩, [[]] ++ prose, !parts.ledTags.isEmpty, none⟩ :=
    Reading.foldl_tags hled (Or.inr fun t ht => startsTag_of_head?_ledTags ht)
  have hentries := Reading.foldl_entries (D := []) (T := parts.ledTags) (E := []) (G := none)
    (d := [[]] ++ prose) (b := !parts.ledTags.isEmpty) fun t ht => (h.entries t ht).1
  obtain ⟨blanks, hblanks, hlast⟩ := foldl_diagramTexts h [] parts.ledTags parts.entries
    ([[]] ++ prose) (!parts.ledTags.isEmpty || !parts.entries.isEmpty)
  rw [addBlock, htexts]
  simp only [List.foldl_append, List.foldl_cons, List.foldl_nil, hopening, hfirst, hthen, hentries,
    List.nil_append, hlast, Reading.step_nil, Reading.finish_eq, Reading.kept]
  rw [List.append_assoc, hends]
  · simp [addDescription, reread]
  · intro l hl
    rcases List.mem_append.mp hl with hl | hl
    · exact hblanks l hl
    · split at hl <;> simp_all

/-- The parts as their written lines give them, trimmed at their ends. -/
def trimTexts (parts : BlockParts) : BlockParts :=
  { parts with
    description := parts.description.map trimEnd
    diagram := parts.diagram.map (·.map trimEnd) }

theorem trimEnd_entryText (h : Entry.Clean t) :
    trimEnd (Entry.tag ++ [' '] ++ t) = Entry.tag ++ [' '] ++ t := by
  obtain ⟨htrim, hne⟩ := h
  have hend : trimEnd t = t := (trim_eq_self_iff.mp htrim).2
  rw [trimEnd_append_of_ne_nil _ (by rw [hend]; exact hne), hend]

theorem map_trimEnd_eq_self (h : ∀ t ∈ ls, trimEnd t = t) : ls.map trimEnd = ls :=
  (List.map_congr_left h).trans (List.map_id' ls)

theorem map_trimEnd_eq_self_iff : ls.map trimEnd = ls ↔ ∀ t ∈ ls, trimEnd t = t := by
  refine ⟨fun heq t ht => ?_, map_trimEnd_eq_self⟩
  rw [← heq] at ht
  obtain ⟨u, -, rfl⟩ := List.mem_map.mp ht
  exact trimEnd_trimEnd u

theorem trimEnd_of_mem_texts (h : parts.Formed) (htrimmed : parts.Trimmed) :
    ∀ t ∈ parts.texts, trimEnd t = t :=
  forall_mem_texts (P := fun t => trimEnd t = t) rfl (by decide) (by decide) htrimmed.description
    (fun t ht => (h.tags t ht).2.2) (fun e he => trimEnd_entryText (h.entries e he).1)
    htrimmed.diagram

theorem texts_trimTexts (h : parts.Formed) : parts.trimTexts.texts = parts.texts.map trimEnd := by
  have hdivider : parts.trimTexts.divider = parts.divider.map trimEnd := by
    have hsame : parts.trimTexts.divider = parts.divider := by
      simp [divider, trimTexts]
    rw [hsame, map_trimEnd_eq_self fun t ht => by rw [eq_nil_of_mem_divider ht]; rfl]
  have htags : parts.tags.map trimEnd = parts.tags :=
    map_trimEnd_eq_self fun t ht => (h.tags t ht).2.2
  have hentries : (parts.entries.map fun e => Entry.tag ++ [' '] ++ e).map trimEnd =
      parts.entries.map fun e => Entry.tag ++ [' '] ++ e := by
    apply map_trimEnd_eq_self
    intro t ht
    obtain ⟨e, he, rfl⟩ := List.mem_map.mp ht
    exact trimEnd_entryText (h.entries e he).1
  have hdiagram : parts.trimTexts.diagramTexts = parts.diagramTexts.map trimEnd := by
    cases hg : parts.diagram with
    | none => simp [diagramTexts, trimTexts, hg]
    | some g =>
      have hopen : trimEnd fenceOpen = fenceOpen := by decide
      have hclose : trimEnd fenceClose = fenceClose := by decide
      simp [diagramTexts, trimTexts, hg, hopen, hclose]
  simp only [texts, List.map_append, htags, hentries, ← hdivider, ← hdiagram]
  rfl

theorem Prose.trimEnd (h : Prose t) : Prose (trimEnd t) := by
  have hpre : trimStart (Text.trimEnd t) <+: trimStart t := by
    rw [trimStart_trimEnd]
    exact trimEnd_isPrefix _
  exact ⟨fun hopen => h.1 (hopen.trans hpre), fun hat => h.2 (hat.trans hpre)⟩

theorem formed_trimTexts (h : parts.Formed) : parts.trimTexts.Formed := by
  refine { h with description := ?_, first := ?_, last := ?_, diagram := ?_ }
  · intro u hu
    obtain ⟨t, ht, rfl⟩ := List.mem_map.mp hu
    exact ⟨(h.description t ht).1.trimEnd,
      fun hmem => (h.description t ht).2 ((trimEnd_isPrefix t).mem hmem)⟩
  · intro u hu
    obtain ⟨t, ht, rfl⟩ : ∃ t ∈ parts.description.head?, trimEnd t = u := by
      simpa [trimTexts] using hu
    rw [trimEnd_trimEnd]
    exact h.first t ht
  · intro u hu
    obtain ⟨t, ht, rfl⟩ : ∃ t ∈ parts.description.getLast?, trimEnd t = u := by
      simpa [trimTexts] using hu
    rw [trimEnd_trimEnd]
    exact h.last t ht
  · intro g' hg' u hu
    obtain ⟨g, hg, rfl⟩ : ∃ g, parts.diagram = some g ∧ g.map trimEnd = g' := by
      simpa [trimTexts] using hg'
    obtain ⟨t, ht, rfl⟩ := List.mem_map.mp hu
    refine ⟨?_, fun hmem => (h.diagram g hg t ht).2 ((trimEnd_isPrefix t).mem hmem)⟩
    rw [trim, trimStart_trimEnd, trim, trimEnd_trimEnd]
    exact (h.diagram g hg t ht).1

/-- Tags keep their place: the first of them starts a tag, or none does and no entry follows. -/
def Led (parts : BlockParts) : Prop :=
  (∀ t ∈ parts.tags.head?, StartsTag t) ∨
    (parts.entries = [] ∧ ∀ t ∈ parts.tags, ¬ StartsTag t)

theorem leadingProse_eq_nil_iff :
    parts.leadingProse = [] ↔ ∀ t ∈ parts.tags.head?, StartsTag t := by
  unfold leadingProse
  cases parts.tags with
  | nil => simp
  | cons t ts => by_cases ht : StartsTag t <;> simp [ht]

theorem ledTags_eq_nil_iff : parts.ledTags = [] ↔ ∀ t ∈ parts.tags, ¬ StartsTag t := by
  simp [ledTags, List.dropWhile_eq_nil_iff]

theorem divider_of_description (hne : parts.description ≠ []) :
    parts.divider = if parts.tags = [] ∧ parts.entries = [] then [] else [[]] := by
  unfold divider
  by_cases htags : parts.tags = [] <;> by_cases hentries : parts.entries = [] <;>
    simp [hne, htags, hentries]

section Again

variable {again : BlockParts} (hne : parts.description ≠ [])
  (hdescription : again.description = parts.trimTexts.reread.description)
  (htags : again.tags = parts.ledTags) (hentries : again.entries = parts.entries)
  (hdiagram : again.diagram = parts.diagram)

include hne hdescription htags hentries hdiagram

/-- If the first tag starts one, all parts stay in their places. -/
theorem texts_eq_of_leadingProse_nil (hlead : parts.leadingProse = []) :
    again.texts = parts.texts ↔ parts.description.map trimEnd = parts.description := by
  have hled : parts.ledTags = parts.tags := by
    have hall := leadingProse_append_ledTags parts
    rwa [hlead, List.nil_append] at hall
  have hshape : again.description = parts.description.map trimEnd := by
    have hsame : parts.trimTexts.leadingProse = parts.leadingProse := rfl
    rw [hdescription, reread, hsame, hlead]
    simp [trimTexts]
  have hagain : again.description ≠ [] := by
    simp [hshape, hne]
  have hdivider : again.divider = parts.divider := by
    rw [divider_of_description hagain, divider_of_description hne, htags, hled, hentries]
  simp only [texts, diagramTexts, hshape, hdivider, htags, hled, hentries, hdiagram,
    List.append_assoc]
  exact ⟨fun heq => (List.append_inj heq (List.length_map _)).1, fun heq => by rw [heq]⟩

/-- If it does not, an empty line is added behind the description, unless nothing more follows. -/
theorem texts_eq_of_leadingProse_ne_nil (hlead : parts.leadingProse ≠ []) :
    again.texts = parts.texts ↔
      parts.description.map trimEnd = parts.description ∧ again.divider = [] := by
  have hall := leadingProse_append_ledTags parts
  have hdivider : parts.divider = [[]] := by
    have hsome : parts.tags ≠ [] := by
      rw [← hall]
      simp [hlead]
    simp [divider_of_description hne, hsome]
  have hshape : again.description =
      parts.description.map trimEnd ++ ([[]] ++ parts.leadingProse) := by
    have hsame : parts.trimTexts.leadingProse = parts.leadingProse := rfl
    rw [hdescription, reread, hsame]
    simp [trimTexts, hlead]
  simp only [texts, diagramTexts, hshape, hdivider, htags, hentries, hdiagram, ← hall,
    List.append_assoc]
  constructor
  · intro heq
    obtain ⟨hdesc, hrest⟩ := List.append_inj heq (List.length_map _)
    refine ⟨hdesc, ?_⟩
    have hlength := congrArg List.length hrest
    simp only [List.length_append] at hlength
    exact List.eq_nil_of_length_eq_zero (by omega)
  · rintro ⟨hdesc, hnone⟩
    rw [hdesc, hnone]
    simp

/-- Parts that are read back and written again have the same texts exactly if the description is
trimmed at its ends and the tags are led by one. -/
theorem texts_eq_of_reread_iff :
    again.texts = parts.texts ↔ (∀ t ∈ parts.description, trimEnd t = t) ∧ parts.Led := by
  rw [← map_trimEnd_eq_self_iff]
  by_cases hlead : parts.leadingProse = []
  · rw [texts_eq_of_leadingProse_nil hne hdescription htags hentries hdiagram hlead]
    exact (and_iff_left (Or.inl (leadingProse_eq_nil_iff.mp hlead))).symm
  · rw [texts_eq_of_leadingProse_ne_nil hne hdescription htags hentries hdiagram hlead]
    have hhead : ¬ ∀ t ∈ parts.tags.head?, StartsTag t := mt leadingProse_eq_nil_iff.mpr hlead
    have hLed : parts.Led ↔ parts.entries = [] ∧ parts.ledTags = [] := by
      rw [Led, ledTags_eq_nil_iff]
      exact or_iff_right hhead
    have hagain : again.description ≠ [] := by
      simp [hdescription, reread, trimTexts, hne]
    have hempty : again.divider = [] ↔ parts.Led := by
      rw [divider_of_description hagain, htags, hentries, hLed]
      simp [and_comm]
    rw [hempty]

end Again

end ReadBack

end BlockParts

end Concordance
