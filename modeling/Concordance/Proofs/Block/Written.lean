import Concordance.Proofs.Block.Edit
import Concordance.Proofs.Block.Parts

/-!
The lines of a written block, seen by the search for comments and by the reading of their texts.

Main statements: `blocksAbove_written` (the search finds a written block again, unless a text in it
holds a mark of a comment), `body_written` (its lines give back their texts) and
`flatMap_lines_eq_written` (comments that give way to a block without moving the code below them are
that block).
-/

namespace Concordance

open Text

/-- The text holds no mark that opens or closes a comment. -/
def Unmarked (t : List Char) : Prop :=
  ¬ "/*".toList <:+: t ∧ ¬ "*/".toList <:+: t

instance (t : List Char) : Decidable (Unmarked t) :=
  inferInstanceAs (Decidable (¬ "/*".toList <:+: t ∧ ¬ "*/".toList <:+: t))

namespace BlockParts

/-- The lines of the block of the parts. -/
def written (parts : BlockParts) (indent lineEnd : List Char) : List (List Char) :=
  (parts.lines .starred).map fun line => indent ++ line ++ lineEnd

end BlockParts

section Line

variable {indent lineEnd t : List Char}

theorem innerLine_eq (t : List Char) :
    CommentStyle.starred.innerLine t = [' ', '*'] ++ if t = [] then [] else ' ' :: t := by
  cases t <;> rfl

theorem newline_notMem_lines {parts : BlockParts} (h : parts.Formed) :
    ∀ line ∈ parts.lines .starred, '\n' ∉ line := by
  intro line hline
  simp only [BlockParts.lines_eq, List.mem_append, List.mem_singleton, List.mem_map] at hline
  rcases hline with (rfl | ⟨t, ht, rfl⟩) | rfl
  · decide
  · rw [innerLine_eq]
    have := h.newline_notMem t ht
    split <;> simp [this]
  · decide

theorem allBlank_of_layout (hindent : ∀ c ∈ indent, c = ' ' ∨ c = '\t')
    (hend : lineEnd = ['\n'] ∨ lineEnd = ['\r', '\n']) : AllBlank indent ∧ AllBlank lineEnd := by
  constructor
  · intro c hc
    rcases hindent c hc with rfl | rfl <;> decide
  · rcases hend with rfl | rfl <;> decide

/-- What follows the star of a line, with the white space at its end gone. -/
theorem trimEnd_afterStar (t : List Char) (hend : AllBlank lineEnd) :
    trimEnd ((if t = [] then [] else ' ' :: t) ++ lineEnd) = trimEnd (' ' :: t) := by
  rw [trimEnd_append_blank hend]
  split
  · next h =>
    subst h
    rfl
  · rfl

theorem trimEnd_space_cons (t : List Char) :
    trimEnd (' ' :: t) = if trimEnd t = [] then [] else ' ' :: trimEnd t := by
  split
  · next h =>
    rw [trimEnd_eq_nil_iff] at h ⊢
    intro c hc
    rcases List.mem_cons.mp hc with rfl | hc
    · decide
    · exact h c hc
  · next h => exact trimEnd_cons_of_ne_nil h

theorem trim_written {c : Char} {rest : List Char} (hindent : AllBlank indent)
    (hend : AllBlank lineEnd) (hc : isBlank c = false) :
    trim (indent ++ (c :: rest) ++ lineEnd) = c :: trimEnd rest := by
  rw [List.append_assoc, List.cons_append, trim_of_head hindent hc, trimEnd_append_blank hend]

theorem trim_innerLine (t : List Char) (hindent : AllBlank indent) (hend : AllBlank lineEnd) :
    trim (indent ++ CommentStyle.starred.innerLine t ++ lineEnd) = '*' :: trimEnd (' ' :: t) := by
  have hblank : AllBlank (indent ++ [' ']) := by
    intro c hc
    rcases List.mem_append.mp hc with hc | hc
    · exact hindent c hc
    · obtain rfl : c = ' ' := by simpa using hc
      decide
  have hshape : indent ++ CommentStyle.starred.innerLine t ++ lineEnd =
      (indent ++ [' ']) ++ ('*' :: ((if t = [] then [] else ' ' :: t) ++ lineEnd)) := by
    rw [innerLine_eq]
    simp
  rw [hshape, trim_of_head hblank (by decide), trimEnd_afterStar t hend]

theorem isInfix_star_iff {mark : List Char} (hne : mark ≠ [])
    (hmark : ∀ c ∈ mark, isBlank c = false) (hhead : ∀ x, ¬ mark <+: '*' :: x ∨ x.head? = some '/')
    (t : List Char) : mark <:+: '*' :: trimEnd (' ' :: t) ↔ mark <:+: t := by
  have hspace : mark <:+: ' ' :: t ↔ mark <:+: t := by
    rw [List.infix_cons_iff]
    refine or_iff_right fun hpre => ?_
    obtain ⟨c, rest, rfl⟩ := List.exists_cons_of_ne_nil hne
    have hc := hmark c List.mem_cons_self
    rw [(List.cons_prefix_cons.mp hpre).1] at hc
    exact absurd hc (by decide)
  have hstar : ¬ mark <+: '*' :: trimEnd (' ' :: t) := by
    rcases hhead (trimEnd (' ' :: t)) with h | h
    · exact h
    · rw [trimEnd_space_cons] at h
      split at h <;> simp at h
  rw [List.infix_cons_iff, isInfix_trimEnd_iff hne hmark, hspace]
  exact or_iff_right hstar

theorem contains_open_innerLine (t : List Char) :
    contains "/*".toList ('*' :: trimEnd (' ' :: t)) = true ↔ "/*".toList <:+: t := by
  have hblank : isBlank '/' = false ∧ isBlank '*' = false := by decide
  rw [contains_iff]
  apply isInfix_star_iff (by decide) (by simpa using hblank)
  exact fun x => Or.inl fun hpre => absurd (List.cons_prefix_cons.mp hpre).1 (by decide)

theorem contains_close_innerLine (t : List Char) :
    contains "*/".toList ('*' :: trimEnd (' ' :: t)) = true ↔ "*/".toList <:+: t := by
  have hblank : isBlank '*' = false ∧ isBlank '/' = false := by decide
  rw [contains_iff]
  apply isInfix_star_iff (by decide) (by simpa using hblank)
  intro x
  cases x with
  | nil => exact Or.inl (by decide)
  | cons c cs =>
    by_cases hc : c = '/'
    · exact Or.inr (by simp [hc])
    · refine Or.inl fun hpre => ?_
      have hpre := (List.cons_prefix_cons.mp hpre).2
      exact hc (List.cons_prefix_cons.mp hpre).1.symm

/-- A line holds a mark exactly if its text does. -/
theorem unmarked_innerLine_iff (hindent : AllBlank indent) (hend : AllBlank lineEnd) :
    Unmarked (indent ++ CommentStyle.starred.innerLine t ++ lineEnd) ↔ Unmarked t := by
  have hslash : isBlank '/' = false := by decide
  have hstar : isBlank '*' = false := by decide
  have hopen : ∀ c ∈ "/*".toList, isBlank c = false := by simp [hslash, hstar]
  have hclose : ∀ c ∈ "*/".toList, isBlank c = false := by simp [hslash, hstar]
  rw [Unmarked, Unmarked, ← contains_open_innerLine t, ← contains_close_innerLine t,
    ← trim_innerLine t hindent hend, contains_iff, contains_iff, isInfix_trim_iff (by decide) hopen,
    isInfix_trim_iff (by decide) hclose]

theorem trimStart_innerLine (t : List Char) (hindent : AllBlank indent) :
    trimStart (indent ++ CommentStyle.starred.innerLine t ++ lineEnd) =
      '*' :: ((if t = [] then [] else ' ' :: t) ++ lineEnd) := by
  rw [innerLine_eq, List.append_assoc, trimStart_append_blank hindent]
  simp only [List.cons_append, List.nil_append]
  rw [trimStart_cons_blank (by decide), trimStart_cons (by decide)]

theorem stripOpening_star (x : List Char) :
    (stripFront? "/**".toList ('*' :: x) <|> stripFront? "/*".toList ('*' :: x)) = none := by
  have hlong : stripFront? "/**".toList ('*' :: x) = none :=
    stripFront?_eq_none_iff.mpr fun h => absurd (List.cons_prefix_cons.mp h).1 (by decide)
  have hshort : stripFront? "/*".toList ('*' :: x) = none :=
    stripFront?_eq_none_iff.mpr fun h => absurd (List.cons_prefix_cons.mp h).1 (by decide)
  rw [hlong, hshort]
  rfl

/-- A line gives back its text, trimmed at its end, unless the text closes the comment there. -/
theorem innerText_innerLine_of_not_suffix (hindent : AllBlank indent) (hend : AllBlank lineEnd)
    (ht : ¬ "*/".toList <:+ trimEnd t) :
    BlockParts.innerText (indent ++ CommentStyle.starred.innerLine t ++ lineEnd) = trimEnd t := by
  have hclose : "*/".toList.isPrefixOf
      ('*' :: ((if t = [] then [] else ' ' :: t) ++ lineEnd)) = false := by
    apply BlockParts.not_isPrefixOf
    intro hpre
    have hslash := (List.cons_prefix_cons.mp hpre).2
    split at hslash
    · have hmem : '/' ∈ lineEnd := hslash.mem List.mem_cons_self
      exact absurd (hend '/' hmem) (by decide)
    · exact absurd (List.cons_prefix_cons.mp hslash).1 (by decide)
  have hstar : ∀ x, stripFront? ['*'] ('*' :: x) = some x := fun x => stripFront?_append
  have hback : stripBack? "*/".toList (trimEnd (' ' :: t)) = none := by
    rw [stripBack?_eq_none_iff, trimEnd_space_cons]
    split
    · exact fun hsuf => absurd (List.suffix_nil.mp hsuf) (by decide)
    · intro hsuf
      rcases List.suffix_cons_iff.mp hsuf with heq | hsuf
      · exact absurd (List.cons.inj heq).1 (by decide)
      · exact ht hsuf
  have hspace : (stripFront? [' '] (trimEnd (' ' :: t))).getD (trimEnd (' ' :: t)) = trimEnd t := by
    rw [trimEnd_space_cons]
    split
    · next h =>
      rw [h]
      rfl
    · rfl
  simp only [BlockParts.innerText, trimStart_innerLine t hindent, stripOpening_star, hclose, hstar,
    Bool.false_eq_true, ↓reduceIte, Option.getD_some,
    trimEnd_afterStar t hend, hback, Option.getD_none, hspace, trimEnd_trimEnd]

theorem Unmarked.not_suffix (h : Unmarked t) : ¬ "*/".toList <:+ trimEnd t := fun hsuf =>
  h.2 (hsuf.isInfix.trans (trimEnd_isPrefix t).isInfix)

theorem innerText_blockStart (hindent : AllBlank indent) (hend : AllBlank lineEnd) :
    BlockParts.innerText (indent ++ CommentStyle.starred.blockStart ++ lineEnd) = [] := by
  have hstart : trimStart (indent ++ CommentStyle.starred.blockStart ++ lineEnd) =
      "/**".toList ++ lineEnd := by
    rw [List.append_assoc, trimStart_append_blank hindent]
    exact trimStart_cons (c := '/') (by decide)
  have hnone : trimEnd lineEnd = [] := trimEnd_eq_nil_iff.mpr hend
  rw [BlockParts.innerText, hstart, stripFront?_append]
  simp only [Option.orElse_eq_orElse, Option.orElse_some, hnone]
  rfl

theorem trimStart_blockEnd (hindent : AllBlank indent) :
    trimStart (indent ++ CommentStyle.starred.blockEnd ++ lineEnd) = "*/".toList ++ lineEnd := by
  rw [List.append_assoc, trimStart_append_blank hindent]
  show trimStart (' ' :: '*' :: '/' :: lineEnd) = '*' :: '/' :: lineEnd
  rw [trimStart_cons_blank (by decide), trimStart_cons (by decide)]

theorem trim_blockEnd (hindent : AllBlank indent) (hend : AllBlank lineEnd) :
    trim (indent ++ CommentStyle.starred.blockEnd ++ lineEnd) = "*/".toList := by
  rw [trim, trimStart_blockEnd hindent, trimEnd_append_blank hend]
  decide

theorem innerText_blockEnd (hindent : AllBlank indent) (hend : AllBlank lineEnd) :
    BlockParts.innerText (indent ++ CommentStyle.starred.blockEnd ++ lineEnd) = [] := by
  have hprefix : "*/".toList.isPrefixOf ("*/".toList ++ lineEnd) = true :=
    List.isPrefixOf_iff_prefix.mpr (List.prefix_append _ _)
  have hnone : (stripFront? "/**".toList ("*/".toList ++ lineEnd) <|>
      stripFront? "/*".toList ("*/".toList ++ lineEnd)) = none := stripOpening_star _
  have htrim : trimEnd ("*/".toList ++ lineEnd) = "*/".toList := by
    rw [trimEnd_append_blank hend]
    decide
  simp only [BlockParts.innerText, trimStart_blockEnd hindent, hnone, hprefix, ↓reduceIte, htrim]
  decide

end Line

section Block

variable {parts : BlockParts} {indent lineEnd : List Char} {above : List (List Char)}

/-- The search upwards passes a line without marks. -/
theorem blockStart_innerLine (hindent : AllBlank indent) (hend : AllBlank lineEnd) {t : List Char}
    (ht : Unmarked t) :
    blockStart false ((indent ++ CommentStyle.starred.innerLine t ++ lineEnd) :: above) =
      match blockStart false above with
      | .lines count => .lines (count + 1)
      | other => other := by
  have hopen : contains "/*".toList ('*' :: trimEnd (' ' :: t)) = false := by
    rw [← Bool.not_eq_true, contains_open_innerLine]
    exact ht.1
  have hclose : contains "*/".toList ('*' :: trimEnd (' ' :: t)) = false := by
    rw [← Bool.not_eq_true, contains_close_innerLine]
    exact ht.2
  rw [blockStart]
  cases blockStart false above <;>
    simp only [trim_innerLine t hindent hend, hopen, hclose, Bool.and_false, Bool.false_eq_true,
      ↓reduceIte]

/-- The search upwards stops at a line with a mark. -/
theorem blockStart_innerLine_marked (hindent : AllBlank indent) (hend : AllBlank lineEnd)
    {t : List Char} (ht : ¬ Unmarked t) :
    blockStart false ((indent ++ CommentStyle.starred.innerLine t ++ lineEnd) :: above) =
      .unmatched := by
  have hprefix : "/*".toList.isPrefixOf ('*' :: trimEnd (' ' :: t)) = false :=
    BlockParts.not_isPrefixOf fun h => absurd (List.cons_prefix_cons.mp h).1 (by decide)
  rw [blockStart]
  simp only [trim_innerLine t hindent hend, hprefix, Bool.false_eq_true, ↓reduceIte, Bool.not_false,
    Bool.true_and]
  split
  · rfl
  · next hopen =>
    rw [contains_open_innerLine] at hopen
    have hclose : "*/".toList <:+: t := by
      by_contra hno
      exact ht ⟨hopen, hno⟩
    rw [if_pos ((contains_close_innerLine t).mpr hclose)]

theorem blockStart_opening (hindent : AllBlank indent) (hend : AllBlank lineEnd) :
    blockStart false ((indent ++ CommentStyle.starred.blockStart ++ lineEnd) :: above) =
      .lines 1 := by
  have htrim : trim (indent ++ CommentStyle.starred.blockStart ++ lineEnd) = "/**".toList :=
    (trim_written hindent hend (by decide)).trans (by decide)
  rw [blockStart, htrim]
  rfl

open Classical in
/-- The lines of the texts, the lowest first, up to the line that opens the block. -/
theorem blockStart_innerLines (hindent : AllBlank indent) (hend : AllBlank lineEnd)
    (ts : List (List Char)) :
    blockStart false
      (ts.map (fun t => indent ++ CommentStyle.starred.innerLine t ++ lineEnd) ++
        (indent ++ CommentStyle.starred.blockStart ++ lineEnd) :: above) =
      if ∀ t ∈ ts, Unmarked t then .lines (ts.length + 1) else .unmatched := by
  induction ts with
  | nil => simpa using blockStart_opening hindent hend
  | cons t ts ih =>
    rw [List.map_cons, List.cons_append]
    by_cases ht : Unmarked t
    · rw [blockStart_innerLine hindent hend ht, ih]
      by_cases hts : ∀ u ∈ ts, Unmarked u
      · have hall : ∀ u ∈ t :: ts, Unmarked u := by
          simpa using ⟨ht, hts⟩
        rw [if_pos hts, if_pos hall]
        rfl
      · have hnot : ¬ ∀ u ∈ t :: ts, Unmarked u := fun hall =>
          hts fun u hu => hall u (List.mem_cons_of_mem t hu)
        rw [if_neg hts, if_neg hnot]
    · have hnot : ¬ ∀ u ∈ t :: ts, Unmarked u := fun hall => ht (hall t List.mem_cons_self)
      rw [blockStart_innerLine_marked hindent hend ht, if_neg hnot]

theorem written_eq (parts : BlockParts) (indent lineEnd : List Char) :
    parts.written indent lineEnd =
      [indent ++ CommentStyle.starred.blockStart ++ lineEnd] ++
        parts.texts.map (fun t => indent ++ CommentStyle.starred.innerLine t ++ lineEnd) ++
        [indent ++ CommentStyle.starred.blockEnd ++ lineEnd] := by
  rw [BlockParts.written, BlockParts.lines_eq]
  simp

/-- The lines of a block between the first and the last. -/
theorem dropLast_tail_written (parts : BlockParts) (indent lineEnd : List Char) :
    (parts.written indent lineEnd).tail.dropLast =
      parts.texts.map fun t => indent ++ CommentStyle.starred.innerLine t ++ lineEnd := by
  rw [written_eq, List.append_assoc, List.singleton_append, List.tail_cons, List.dropLast_concat]

theorem length_written (parts : BlockParts) (indent lineEnd : List Char) :
    (parts.written indent lineEnd).length = parts.texts.length + 2 := by
  rw [written_eq]
  simp

open Classical in
/-- The search upwards takes a written block whole, unless a text in it holds a mark. -/
theorem blockStart_written (parts : BlockParts) (above : List (List Char))
    (hindent : AllBlank indent) (hend : AllBlank lineEnd) :
    blockStart true ((parts.written indent lineEnd).reverse ++ above) =
      if ∀ t ∈ parts.texts, Unmarked t then .lines (parts.written indent lineEnd).length
      else .unmatched := by
  have hshape : (parts.written indent lineEnd).reverse ++ above =
      (indent ++ CommentStyle.starred.blockEnd ++ lineEnd) ::
        (parts.texts.reverse.map (fun t => indent ++ CommentStyle.starred.innerLine t ++ lineEnd) ++
          (indent ++ CommentStyle.starred.blockStart ++ lineEnd) :: above) := by
    rw [written_eq]
    simp
  have hmarks : (contains "/*".toList "*/".toList) = false := by decide
  rw [hshape, blockStart, trim_blockEnd hindent hend]
  simp only [hmarks, Bool.false_eq_true, ↓reduceIte, Bool.not_true, Bool.false_and,
    blockStart_innerLines hindent hend, List.mem_reverse, List.length_reverse]
  rw [length_written]
  by_cases hall : ∀ t ∈ parts.texts, Unmarked t
  · rw [if_pos hall, if_pos hall]
  · rw [if_neg hall, if_neg hall]

theorem innerLine_injective {t u : List Char}
    (h : CommentStyle.starred.innerLine t = CommentStyle.starred.innerLine u) : t = u := by
  rw [innerLine_eq, innerLine_eq] at h
  by_cases ht : t = [] <;> by_cases hu : u = [] <;> simp_all

/-- A block is written in the same way exactly for the same texts and the same line end. -/
theorem written_eq_iff {parts other : BlockParts} {indent lineEnd lineEnd' : List Char} :
    parts.written indent lineEnd = other.written indent lineEnd' ↔
      lineEnd = lineEnd' ∧ parts.texts = other.texts := by
  constructor
  · intro h
    simp only [written_eq, List.cons_append, List.nil_append, List.append_assoc] at h
    obtain ⟨hfirst, hrest⟩ := List.cons.inj h
    obtain rfl := List.append_cancel_left (List.append_cancel_left hfirst)
    refine ⟨rfl, ?_⟩
    have hmap := (List.append_inj' hrest rfl).1
    rw [List.map_inj_right] at hmap
    · exact hmap
    · intro t u htu
      exact innerLine_injective (List.append_cancel_right (List.append_cancel_left htu))
  · rintro ⟨rfl, htexts⟩
    rw [written_eq, written_eq, htexts]

theorem written_ne_nil (parts : BlockParts) (indent lineEnd : List Char) :
    parts.written indent lineEnd ≠ [] := by
  rw [written_eq]
  simp

open Classical in
/-- What is found above a definition that a written block stands right above of. -/
theorem blocksAbove_written (parts : BlockParts) (front back : List (List Char))
    (hindent : AllBlank indent) (hend : AllBlank lineEnd) {hash : Bool}
    (hnone : NoneAbove hash front.reverse) :
    blocksAbove hash (front ++ parts.written indent lineEnd ++ back)
        (front.length + (parts.written indent lineEnd).length) =
      if ∀ t ∈ parts.texts, Unmarked t then .found [⟨parts.written indent lineEnd, false⟩]
      else .malformed := by
  have habove : ((front ++ parts.written indent lineEnd ++ back).take
      (front.length + (parts.written indent lineEnd).length)).reverse =
        (parts.written indent lineEnd).reverse ++ front.reverse := by
    rw [← List.length_append, List.take_left, List.reverse_append]
  have hstart := blockStart_written parts front.reverse hindent hend
  obtain ⟨more, hmore⟩ : ∃ more, (parts.written indent lineEnd).reverse ++ front.reverse =
      (indent ++ CommentStyle.starred.blockEnd ++ lineEnd) :: more := by
    rw [written_eq]
    simp
  have hcomment : (lineCommentBody? hash
      (indent ++ CommentStyle.starred.blockEnd ++ lineEnd)).isSome = false := by
    simp only [lineCommentBody?, trim_blockEnd hindent hend]
    cases hash <;> decide
  have hclosed : "*/".toList.isSuffixOf
      (trim (indent ++ CommentStyle.starred.blockEnd ++ lineEnd)) = true := by
    rw [trim_blockEnd hindent hend]
    decide
  have hup : ∀ fuel, commentsUpwards hash (fuel + 1)
      ((parts.written indent lineEnd).reverse ++ front.reverse) =
        if ∀ t ∈ parts.texts, Unmarked t then ([⟨parts.written indent lineEnd, false⟩], false)
        else ([], true) := by
    intro fuel
    rw [hmore] at hstart
    rw [hmore, commentsUpwards]
    simp only [hcomment, hclosed, Bool.not_true, Bool.false_eq_true, ↓reduceIte, hstart]
    by_cases hall : ∀ t ∈ parts.texts, Unmarked t
    · rw [if_pos hall, if_pos hall]
      have hlength : (parts.written indent lineEnd).reverse.length =
          (parts.written indent lineEnd).length := List.length_reverse
      simp only [← hmore]
      rw [List.drop_left' hlength, List.take_left' hlength, hnone, List.reverse_reverse,
        List.nil_append]
    · rw [if_neg hall, if_neg hall]
  have hlength : ((parts.written indent lineEnd).reverse ++ front.reverse).length = more.length + 1 := by
    rw [hmore, List.length_cons]
  simp only [blocksAbove, habove, hlength, hup]
  by_cases hall : ∀ t ∈ parts.texts, Unmarked t
  · rw [if_pos hall, if_pos hall]
  · rw [if_neg hall, if_neg hall]

/-- The lines of a written block give back their texts. -/
theorem map_innerText_written (hindent : AllBlank indent) (hend : AllBlank lineEnd)
    (hall : ∀ t ∈ parts.texts, ¬ "*/".toList <:+ trimEnd t) :
    (parts.written indent lineEnd).map BlockParts.innerText =
      [[]] ++ parts.texts.map trimEnd ++ [[]] := by
  have htexts : (parts.texts.map fun t =>
      indent ++ CommentStyle.starred.innerLine t ++ lineEnd).map BlockParts.innerText =
        parts.texts.map trimEnd := by
    rw [List.map_map]
    exact List.map_congr_left fun t ht =>
      innerText_innerLine_of_not_suffix hindent hend (hall t ht)
  rw [written_eq, List.map_append, List.map_append, htexts, List.map_singleton, List.map_singleton,
    innerText_blockStart hindent hend, innerText_blockEnd hindent hend]

theorem body_written (hindent : AllBlank indent) (hend : AllBlank lineEnd) (hash : Bool)
    (hall : ∀ t ∈ parts.texts, Unmarked t) :
    CommentBlock.body hash ⟨parts.written indent lineEnd, false⟩ =
      [[]] ++ parts.texts.map trimEnd ++ [[]] := by
  simp only [CommentBlock.body, Bool.false_eq_true, ↓reduceIte]
  exact map_innerText_written hindent hend fun t ht => (hall t ht).not_suffix

end Block

section Beside

variable {parts : BlockParts} {indent lineEnd line : List Char} {hash : Bool}

/-- Below its first line a written block is made of lines that start with a star. -/
theorem exists_written_eq_cons (parts : BlockParts) (hindent : AllBlank indent)
    (hend : AllBlank lineEnd) :
    ∃ rest, parts.written indent lineEnd =
        (indent ++ CommentStyle.starred.blockStart ++ lineEnd) :: rest ++
          [indent ++ CommentStyle.starred.blockEnd ++ lineEnd] ∧
      ∀ l ∈ rest ++ [indent ++ CommentStyle.starred.blockEnd ++ lineEnd],
        ∃ more, trim l = '*' :: more := by
  refine ⟨_, written_eq parts indent lineEnd, fun l hl => ?_⟩
  rcases List.mem_append.mp hl with hl | hl
  · obtain ⟨t, -, rfl⟩ := List.mem_map.mp hl
    exact ⟨_, trim_innerLine t hindent hend⟩
  · obtain rfl := List.mem_singleton.mp hl
    exact ⟨['/'], trim_blockEnd hindent hend⟩

theorem trim_blockStart (hindent : AllBlank indent) (hend : AllBlank lineEnd) :
    trim (indent ++ CommentStyle.starred.blockStart ++ lineEnd) = "/**".toList :=
  trim_written hindent hend (by decide)

/-- A comment starts with a line comment or with a line that opens it. -/
theorem CommentBlock.Shaped.lines_ne_cons {b : CommentBlock} (h : b.Shaped hash)
    (hcomment : (lineCommentBody? hash line).isSome = false)
    (hopen : "/*".toList.isPrefixOf (trim line) = false) (rest : List (List Char)) :
    b.lines ≠ line :: rest := by
  intro hlines
  obtain ⟨first, tail, htail, hfirst⟩ := h
  obtain ⟨rfl, -⟩ := List.cons.inj (hlines.symm.trans htail)
  rcases hfirst with hfirst | ⟨hfirst, -⟩
  · rw [hcomment] at hfirst
    cases hfirst
  · rw [hopen] at hfirst
    cases hfirst

theorem lineCommentBody?_of_star {more : List Char} (h : trim line = '*' :: more) (hash : Bool) :
    (lineCommentBody? hash line).isSome = false := by
  simp [lineCommentBody?, h, stripFront?]

theorem isPrefixOf_open_of_star {more : List Char} (h : trim line = '*' :: more) :
    "/*".toList.isPrefixOf (trim line) = false := by
  rw [h]
  rfl

theorem lineCommentBody?_blockStart (hindent : AllBlank indent) (hend : AllBlank lineEnd)
    (hash : Bool) :
    (lineCommentBody? hash (indent ++ CommentStyle.starred.blockStart ++ lineEnd)).isSome =
      false := by
  rw [lineCommentBody?, trim_blockStart hindent hend]
  cases hash <;> decide

section Code

variable {blocks : List CommentBlock} (hshaped : ∀ b ∈ blocks, b.Shaped hash)
  (hcomment : (lineCommentBody? hash line).isSome = false)
  (hcode : isCommentLine (trim line) = false)

include hcode in
theorem isPrefixOf_open_of_code : "/*".toList.isPrefixOf (trim line) = false := by
  simp only [isCommentLine, Bool.or_eq_false_iff] at hcode
  exact hcode.1.1

include hshaped hcomment hcode in
/-- Comments do not start with the lower part of a block and a line of code. -/
theorem flatMap_lines_ne_append (stars : List (List Char))
    (hstars : ∀ l ∈ stars, ∃ more, trim l = '*' :: more) (below : List (List Char)) :
    blocks.flatMap CommentBlock.lines ≠ stars ++ line :: below := by
  intro heq
  cases blocks with
  | nil => simp at heq
  | cons b blocks =>
    have hb := hshaped b List.mem_cons_self
    obtain ⟨first, rest, hlines, -⟩ := id hb
    rw [List.flatMap_cons, hlines, List.cons_append] at heq
    cases stars with
    | nil =>
      obtain ⟨rfl, -⟩ := List.cons.inj heq
      exact hb.lines_ne_cons hcomment (isPrefixOf_open_of_code hcode) rest hlines
    | cons l stars =>
      obtain ⟨rfl, -⟩ := List.cons.inj heq
      obtain ⟨_, hstar⟩ := hstars first List.mem_cons_self
      exact hb.lines_ne_cons (lineCommentBody?_of_star hstar hash) (isPrefixOf_open_of_star hstar)
        rest hlines

include hshaped hcomment hcode in
/-- Comments do not start with a whole block and a line of code: no comment goes on below the line
that closes the block, and none starts with the code. -/
theorem flatMap_lines_ne_written_append (hindent : AllBlank indent) (hend : AllBlank lineEnd)
    (below : List (List Char)) :
    blocks.flatMap CommentBlock.lines ≠ parts.written indent lineEnd ++ line :: below := by
  intro heq
  obtain ⟨inner, hwritten, hstars⟩ := exists_written_eq_cons parts hindent hend
  cases blocks with
  | nil => simp [hwritten] at heq
  | cons b blocks =>
    obtain ⟨⟨first, rest, hlines, hfirst⟩, hothers⟩ := List.forall_mem_cons.mp hshaped
    rw [List.flatMap_cons, hlines, hwritten, List.cons_append, List.cons_append,
      List.cons_append] at heq
    obtain ⟨rfl, hrest⟩ := List.cons.inj heq
    have hinside : ∀ l ∈ rest.dropLast, contains "*/".toList (trim l) = false := by
      rcases hfirst with hfirst | ⟨-, hinside⟩
      · rw [lineCommentBody?_blockStart hindent hend] at hfirst
        cases hfirst
      · exact hinside
    rcases List.append_eq_append_iff.mp hrest with ⟨stars, hsplit, hnext⟩ | ⟨after, hsplit, hnext⟩
    · refine flatMap_lines_ne_append hothers hcomment hcode stars (fun l hl => hstars l ?_) below hnext
      rw [hsplit]
      exact List.mem_append_right _ hl
    · cases after with
      | nil => exact flatMap_lines_ne_append hothers hcomment hcode [] (by simp) below hnext.symm
      | cons l after =>
        have hclosed := hinside (indent ++ CommentStyle.starred.blockEnd ++ lineEnd) (by
          rw [hsplit, List.dropLast_append_of_ne_nil (List.cons_ne_nil l after)]
          simp)
        rw [trim_blockEnd hindent hend] at hclosed
        revert hclosed
        decide

include hcode in
/-- A line of code is no line of a block. -/
theorem code_notMem_written (parts : BlockParts) (hindent : AllBlank indent) (hend : AllBlank lineEnd) :
    line ∉ parts.written indent lineEnd := by
  intro hmem
  obtain ⟨inner, hwritten, hstars⟩ := exists_written_eq_cons parts hindent hend
  rw [hwritten, List.cons_append] at hmem
  rcases List.mem_cons.mp hmem with rfl | hmem
  · rw [trim_blockStart hindent hend] at hcode
    revert hcode
    decide
  · obtain ⟨more, hstar⟩ := hstars line hmem
    simp [isCommentLine, hstar] at hcode

include hshaped hcomment hcode in
/-- Comments that give way to a block, with the same line of code below before and after, are that
block. -/
theorem flatMap_lines_eq_written (hindent : AllBlank indent) (hend : AllBlank lineEnd)
    {below below' : List (List Char)}
    (h : parts.written indent lineEnd ++ line :: below =
      blocks.flatMap CommentBlock.lines ++ line :: below') :
    blocks.flatMap CommentBlock.lines = parts.written indent lineEnd := by
  rcases List.append_eq_append_iff.mp h with ⟨more, hblocks, hbelow⟩ | ⟨more, hwritten, hbelow⟩
  · cases more with
    | nil => rw [hblocks, List.append_nil]
    | cons l more =>
      obtain ⟨rfl, -⟩ := List.cons.inj hbelow
      exact absurd hblocks (flatMap_lines_ne_written_append hshaped hcomment hcode hindent hend more)
  · cases more with
    | nil => rw [hwritten, List.append_nil]
    | cons l more =>
      obtain ⟨rfl, -⟩ := List.cons.inj hbelow
      refine absurd ?_ (code_notMem_written hcode parts hindent hend)
      rw [hwritten]
      simp

end Code

end Beside

section Edit

theorem BlockEdit.block_eq (e : BlockEdit) (text : List Char) :
    e.block text =
      e.parts.written (indentOf ((linesWithEnds text)[e.definition]?.getD [])) (lineEndOf text) :=
  rfl

theorem allBlank_indentOf (line : List Char) : AllBlank (indentOf line) := by
  intro c hc
  rcases mem_indentOf hc with rfl | rfl <;> decide

theorem allBlank_lineEndOf (text : List Char) : AllBlank (lineEndOf text) := by
  apply List.all_eq_true.mp
  rcases lineEndOf_cases text with h | h <;> rw [h] <;> decide

end Edit

end Concordance
