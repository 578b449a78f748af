import Concordance.Block.Place
import Concordance.Proofs.Selector.Parts
import Concordance.Proofs.Text.Cut
import Concordance.Proofs.Text.Occurrence

/-!
What a line has to hold to define a symbol, and where on the line.

Main statements: `quotesName_iff`, `declaresVariable_iff` and `startsSelector_iff`, each of which says
at which places one test of a line finds the name; `quotesAt_iff`, `declaresAt_iff` and
`holdsSelectorAt_iff`, which say what is left to ask for at a place of which something is known.
-/

namespace Concordance

open Text

variable {line name : List Char}

/-- The name stands on the line with no character of an identifier next to it. -/
def StandsAlone (name line : List Char) : Prop :=
  ∃ pre post, line = pre ++ name ++ post ∧ edge isIdentChar pre.getLast? = true ∧
    edge isIdentChar post.head? = true

/-- A character that opens and closes a string literal. -/
def isQuote (c : Char) : Bool :=
  c == '\'' || c == '"' || c == '`'

theorem eq_of_isQuote {c : Char} (h : isQuote c = true) : c = '\'' ∨ c = '"' ∨ c = '`' := by
  simpa [isQuote, or_assoc] using h

/-- The name stands at `column` of the line, between two quotes of one kind. -/
def QuotesAt (name line : List Char) (column : Nat) : Prop :=
  ∃ pre q post, isQuote q = true ∧ line = pre ++ q :: (name ++ q :: post) ∧ pre.length + 1 = column

/-- The name stands at `column` of the line as a whole, followed by a colon. -/
def DeclaresAt (name line : List Char) (column : Nat) : Prop :=
  ∃ pre post, line = pre ++ name ++ post ∧ pre.length = column ∧
    edge (fun c => isNameChar c || c == '$') pre.getLast? = true ∧
    edge isNameChar post.head? = true ∧ (trimStart post).head? = some ':'

/-- The text, which stands at the byte `start`, starts with the head of a rule: it goes on to an
opening brace, and a part of it that starts before the byte `stop` is the name once white space is
collapsed. -/
def HeadsRule (name : List Char) (start stop : Nat) (text : List Char) : Prop :=
  ∃ head tail, text = head ++ '{' :: tail ∧ (∀ c ∈ head, isRuleMark c = false) ∧
    ∃ part ∈ splitSelectors head, collapseBlanks part.2 = name ∧
      start + part.1 + (byteLength part.2 - byteLength (trimStart part.2)) < stop

/-- The text starts, or starts anew behind a brace or a semicolon. -/
def StartsAnew (text : List Char) : Prop :=
  text = [] ∨ ∃ c ∈ text.getLast?, isRuleMark c = true

/-- A selector of a rule may stand behind the text: from where it starts anew there are selectors up to
a comma, or none, and then white space. -/
def LeadsToSelector (text : List Char) : Prop :=
  ∃ before front blanks, text = before ++ front ++ blanks ∧ StartsAnew before ∧
    (∀ c ∈ front, isRuleMark c = false) ∧ EndsAtCut front ∧ AllBlank blanks

/-- A selector that is the name once white space is collapsed, and what follows it: a comma outside
brackets, or the brace that opens the block. -/
structure SelectorBefore (name part post : List Char) : Prop where
  uncut : Uncut part
  trimmed : trimStart part = part
  name : collapseBlanks part = name
  follows : post.head? = some '{' ∨ post.head? = some ',' ∧ openBrackets part = 0

/-- Around `column` of the first line there is what the head of a rule needs: the line leads to a
selector, and the next brace or semicolon on the lines that a head may take opens the block. -/
structure HeadsRuleAt (lines : List (List Char)) (column : Nat) : Prop where
  leads : LeadsToSelector ((lines.head?.getD []).take column)
  opens : ((lines.take headLines).flatten.drop column).find? isRuleMark = some '{'

/-- A selector that is the name stands at `column` of the first line, in the head of a rule. -/
structure HoldsSelectorAt (name : List Char) (lines : List (List Char)) (column : Nat) : Prop
    extends HeadsRuleAt lines column where
  lt : column < (lines.head?.getD []).length
  selector : ∃ part post, (lines.take headLines).flatten.drop column = part ++ post ∧
    SelectorBefore name part post ∧ ∀ c ∈ part, isRuleMark c = false

theorem quotesName_iff : quotesName line name = true ↔ ∃ column, QuotesAt name line column := by
  simp only [quotesName, List.any_eq_true, contains_iff]
  constructor
  · rintro ⟨q, hq, pre, post, rfl⟩
    exact ⟨pre.length + 1, pre, q, post, by simpa [isQuote, or_assoc] using hq, by simp, rfl⟩
  · rintro ⟨_, pre, q, post, hq, rfl, -⟩
    exact ⟨q, by simpa using eq_of_isQuote hq, pre, post, by simp⟩

/-- Between two quotes the name is quoted if they are of one kind. -/
theorem quotesAt_iff {pre post : List Char} {q q' : Char} (hq : isQuote q = true) :
    QuotesAt name (pre ++ q :: (name ++ q' :: post)) (pre.length + 1) ↔ q = q' := by
  constructor
  · rintro ⟨pre', _, post', -, heq, hlength⟩
    obtain ⟨-, hrest⟩ := List.append_inj heq (Nat.add_right_cancel hlength).symm
    obtain ⟨rfl, hname⟩ := List.cons.inj hrest
    exact (List.cons.inj (List.append_cancel_left hname)).1.symm
  · rintro rfl
    exact ⟨pre, q, post, hq, rfl, rfl⟩

theorem declaresVariable_iff (hne : name ≠ [])
    (hname : ∀ c ∈ name, isNameChar c = true ∨ c = '$') (hdot : name.head? ≠ some '.')
    (hhash : name.head? ≠ some '#') :
    declaresVariable line name = true ↔ ∃ column, DeclaresAt name line column := by
  have hunmarked : (name.head? == some '.' || name.head? == some '#') = false := by
    simp [hdot, hhash]
  have hmem : declaresVariable line name = true ↔ ∃ o ∈ occurrences name line,
      isTokenEdge name o = true ∧
        (trimStart (dropBytes (o.offset + byteLength name) line)).head? = some ':' := by
    simp only [declaresVariable, tokenOffsets, List.isEmpty_iff, hne, ↓reduceIte, List.any_eq_true,
      List.mem_map, List.mem_filter, beq_iff_eq]
    constructor
    · rintro ⟨i, ⟨o, ⟨ho, hedge⟩, rfl⟩, hcolon⟩
      exact ⟨o, ho, hedge, hcolon⟩
    · rintro ⟨o, ho, hedge, hcolon⟩
      exact ⟨_, ⟨o, ⟨ho, hedge⟩, rfl⟩, hcolon⟩
  rw [hmem]
  constructor
  · rintro ⟨o, ho, hedge, hcolon⟩
    obtain ⟨pre, rfl, hbefore, hoffset⟩ := mem_occurrences hne ho
    simp only [isTokenEdge, hunmarked, Bool.false_or, Bool.and_eq_true] at hedge
    rw [hoffset, ← byteLength_append, dropBytes_byteLength] at hcolon
    exact ⟨pre.length, pre, o.after, rfl, rfl, hbefore ▸ hedge.1, hedge.2, hcolon⟩
  · rintro ⟨_, pre, post, rfl, -, hleft, hright, hcolon⟩
    have hclass : ∀ c ∈ name, (isNameChar c || c == '$') = true := by
      intro c hc
      simpa using hname c hc
    refine ⟨_, mem_occurrences_append hne (notMem_of_edge hclass hleft) post, ?_, ?_⟩
    · simp only [isTokenEdge, hunmarked, Bool.false_or, hleft, hright, Bool.and_self]
    · rwa [← byteLength_append, dropBytes_byteLength]

theorem isNameChar_of_isBlank {c : Char} (h : isBlank c = true) : isNameChar c = false := by
  have hident := isIdentChar_of_isBlank h
  have hdash : c ≠ '-' := by
    rintro rfl
    cases h
  simp only [isIdentChar, Bool.or_eq_false_iff] at hident
  simp [isNameChar, hident.1, hdash]

/-- Where the line holds the name, and no character of a name behind it, it is declared if it is whole to
the left and a colon follows. -/
theorem declaresAt_iff {pre post : List Char} (hright : edge isNameChar post.head? = true) :
    DeclaresAt name (pre ++ name ++ post) pre.length ↔
      edge (fun c => isNameChar c || c == '$') pre.getLast? = true ∧
        (trimStart post).head? = some ':' := by
  constructor
  · rintro ⟨pre', post', heq, hlength, hleft, -, hcolon⟩
    rw [List.append_assoc, List.append_assoc] at heq
    obtain ⟨rfl, hrest⟩ := List.append_inj heq hlength.symm
    obtain rfl := List.append_cancel_left hrest
    exact ⟨hleft, hcolon⟩
  · rintro ⟨hleft, hcolon⟩
    exact ⟨pre, post, rfl, rfl, hleft, hright, hcolon⟩

section Rule

/-- A head may start behind each mark of a line. -/
theorem mem_headStarts {offset n : Nat} {cs : List Char} :
    n ∈ headStarts offset cs ↔
      ∃ pre c post, cs = pre ++ c :: post ∧ isRuleMark c = true ∧
        n = offset + byteLength (pre ++ [c]) := by
  induction cs generalizing offset with
  | nil => simp [headStarts]
  | cons a cs ih =>
    have hlater : n ∈ headStarts (offset + a.utf8Size) cs ↔
        ∃ pre c post, cs = pre ++ c :: post ∧ isRuleMark c = true ∧
          n = offset + byteLength (a :: pre ++ [c]) := by
      rw [ih]
      simp [Nat.add_assoc]
    have hhere : (∃ pre c post, a :: cs = pre ++ c :: post ∧ isRuleMark c = true ∧
        n = offset + byteLength (pre ++ [c])) ↔
          (isRuleMark a = true ∧ n = offset + a.utf8Size) ∨
          ∃ pre c post, cs = pre ++ c :: post ∧ isRuleMark c = true ∧
            n = offset + byteLength (a :: pre ++ [c]) := by
      constructor
      · rintro ⟨pre, c, post, heq, hc, hn⟩
        cases pre with
        | nil =>
          obtain ⟨rfl, rfl⟩ := List.cons.inj heq
          exact Or.inl ⟨hc, by simpa using hn⟩
        | cons b pre =>
          obtain ⟨rfl, rfl⟩ := List.cons.inj heq
          exact Or.inr ⟨pre, c, post, rfl, hc, hn⟩
      · rintro (⟨ha, hn⟩ | ⟨pre, c, post, rfl, hc, hn⟩)
        · exact ⟨[], a, cs, rfl, ha, by simpa using hn⟩
        · exact ⟨a :: pre, c, post, rfl, hc, hn⟩
    rw [hhere, ← hlater]
    simp only [headStarts]
    split
    · next ha => simp [ha]
    · next ha => simp [ha]

theorem headsRule_iff (start stop : Nat) (rest : List Char) :
    ((rest.drop (rest.takeWhile (!isRuleMark ·)).length).head? == some '{' &&
      (splitSelectors (rest.takeWhile (!isRuleMark ·))).any fun (offset, part) =>
        start + offset + (byteLength part - byteLength (trimStart part)) < stop &&
          collapseBlanks part == name) = true ↔ HeadsRule name start stop rest := by
  have hparts : ∀ head : List Char, ((splitSelectors head).any fun (offset, part) =>
      start + offset + (byteLength part - byteLength (trimStart part)) < stop &&
        collapseBlanks part == name) = true ↔
      ∃ part ∈ splitSelectors head, collapseBlanks part.2 = name ∧
        start + part.1 + (byteLength part.2 - byteLength (trimStart part.2)) < stop := by
    intro head
    simp only [List.any_eq_true, Bool.and_eq_true, decide_eq_true_eq, beq_iff_eq, and_comm]
  have hdrop : rest.drop (rest.takeWhile (!isRuleMark ·)).length =
      rest.dropWhile (!isRuleMark ·) := by
    have h := congrArg (List.drop (rest.takeWhile (!isRuleMark ·)).length)
      (List.takeWhile_append_dropWhile (p := (!isRuleMark ·)) (l := rest))
    rw [List.drop_left] at h
    exact h.symm
  rw [hdrop, Bool.and_eq_true, hparts, beq_iff_eq]
  constructor
  · rintro ⟨hopen, hpart⟩
    obtain ⟨tail, htail⟩ := List.head?_eq_some_iff.mp hopen
    refine ⟨_, tail, ?_, ?_, hpart⟩
    · rw [← htail, List.takeWhile_append_dropWhile]
    · intro c hc
      simpa using List.all_eq_true.mp List.all_takeWhile c hc
  · rintro ⟨head, tail, rfl, hhead, hpart⟩
    have hmark : ∀ c ∈ head, (!isRuleMark c) = true := fun c hc => by simp [hhead c hc]
    have htake : (head ++ '{' :: tail).takeWhile (!isRuleMark ·) = head := by
      rw [List.takeWhile_append_of_pos hmark]
      simp [isRuleMark]
    have hrest : (head ++ '{' :: tail).dropWhile (!isRuleMark ·) = '{' :: tail := by
      rw [List.dropWhile_append_of_pos hmark]
      simp [isRuleMark]
    rw [htake, hrest]
    exact ⟨rfl, hpart⟩

variable {lines : List (List Char)}

/-- The lines that a head may take start with the first one. -/
theorem exists_take_headLines (lines : List (List Char)) :
    ∃ more, (lines.take headLines).flatten = lines.head?.getD [] ++ more := by
  cases lines with
  | nil => exact ⟨[], rfl⟩
  | cons line lines => exact ⟨(lines.take 15).flatten, rfl⟩

theorem startsSelector_iff_headsRule :
    startsSelector lines name = true ↔ ∃ before rest,
      (lines.take headLines).flatten = before ++ rest ∧ StartsAnew before ∧
        before <+: lines.head?.getD [] ∧
          HeadsRule name (byteLength before) (byteLength (lines.head?.getD [])) rest := by
  obtain ⟨more, hmore⟩ := exists_take_headLines lines
  have hany : startsSelector lines name = true ↔
      ∃ start ∈ 0 :: headStarts 0 (lines.head?.getD []),
        HeadsRule name start (byteLength (lines.head?.getD []))
          (dropBytes start (lines.take headLines).flatten) := by
    simp only [startsSelector, List.any_eq_true, headsRule_iff]
  rw [hany]
  constructor
  · rintro ⟨start, hstart, hhead⟩
    rcases List.mem_cons.mp hstart with rfl | hstart
    · rw [dropBytes_zero] at hhead
      exact ⟨[], _, rfl, Or.inl rfl, List.nil_prefix, hhead⟩
    · obtain ⟨pre, c, post, hfirst, hc, rfl⟩ := mem_headStarts.mp hstart
      have htext : (lines.take headLines).flatten = (pre ++ [c]) ++ (post ++ more) := by
        rw [hmore, hfirst]
        simp
      rw [Nat.zero_add, htext, dropBytes_byteLength] at hhead
      refine ⟨pre ++ [c], post ++ more, htext, Or.inr ⟨c, by simp, hc⟩, ⟨post, ?_⟩, hhead⟩
      rw [hfirst]
      simp
  · rintro ⟨before, rest, htext, hbefore, ⟨post, hfirst⟩, hhead⟩
    refine ⟨byteLength before, ?_, by rwa [htext, dropBytes_byteLength]⟩
    rcases hbefore with rfl | ⟨c, hlast, hc⟩
    · exact List.mem_cons_self
    · obtain ⟨pre, rfl⟩ := List.getLast?_eq_some_iff.mp hlast
      apply List.mem_cons_of_mem
      refine mem_headStarts.mpr ⟨pre, c, post, ?_, hc, by rw [Nat.zero_add]⟩
      rw [← hfirst]
      simp

theorem isRuleMark_of_isBlank {c : Char} (h : isBlank c = true) : isRuleMark c = false := by
  rw [Bool.eq_false_iff]
  intro hmark
  simp only [isRuleMark, Bool.or_eq_true, beq_iff_eq] at hmark
  rcases hmark with (rfl | rfl) | rfl <;> cases h

/-- A part of a list stands before a comma, or before what follows the list. -/
theorem IsPart.selectorBefore {front blanks part back : List Char}
    (h : IsPart front (blanks ++ part) back) (hblanks : AllBlank blanks)
    (htrim : trimStart part = part) (hname : collapseBlanks (blanks ++ part) = name)
    (tail : List Char) : SelectorBefore name part (back ++ '{' :: tail) := by
  refine ⟨(uncut_blank_append_iff hblanks).mp h.uncut, htrim, ?_, ?_⟩
  · rwa [collapseBlanks_append_blank hblanks] at hname
  · rcases h.closing with rfl | ⟨hcomma, hclosed⟩
    · exact Or.inl rfl
    · rw [openBrackets_append (openBrackets_blank hblanks)] at hclosed
      exact Or.inr ⟨by simp [List.head?_append, hcomma], hclosed⟩

/-- A selector behind a cut of a list is a part of it, if the list ends at the next brace. -/
theorem SelectorBefore.isPart {front blanks part back tail : List Char}
    (h : SelectorBefore name part (back ++ '{' :: tail)) (hcut : EndsAtCut front)
    (hblanks : AllBlank blanks) (hback : ∀ c ∈ back, isRuleMark c = false) :
    IsPart front (blanks ++ part) back := by
  refine ⟨(uncut_blank_append_iff hblanks).mpr h.uncut, hcut, ?_⟩
  rw [openBrackets_append (openBrackets_blank hblanks)]
  cases back with
  | nil => exact Or.inl rfl
  | cons c back =>
    right
    refine h.follows.resolve_left fun hbrace => ?_
    obtain rfl : c = '{' := by simpa using hbrace
    exact absurd (hback '{' List.mem_cons_self) (by decide)

/-- The parts of a head that start on the first line are the selectors there. -/
theorem exists_holdsSelectorAt (hname : name ≠ []) {before rest : List Char}
    (htext : (lines.take headLines).flatten = before ++ rest) (hbefore : StartsAnew before)
    (h : HeadsRule name (byteLength before) (byteLength (lines.head?.getD [])) rest) :
    ∃ column, HoldsSelectorAt name lines column := by
  obtain ⟨more, hmore⟩ := exists_take_headLines lines
  obtain ⟨head, tail, rfl, hmarks, ⟨offset, piece⟩, hpiece, hpart, hlt⟩ := h
  obtain ⟨front, back, rfl, rfl, hlist⟩ := mem_splitSelectors_iff.mp hpiece
  dsimp only at hpart hlt
  obtain ⟨blanks, part, rfl, hblanks, hne, htrim, hself⟩ :=
    exists_blanks_of_collapseBlanks (hpart ▸ hname)
  obtain ⟨c, part, rfl⟩ := List.exists_cons_of_ne_nil hne
  rw [htrim, byteLength_append, Nat.add_sub_cancel] at hlt
  have hplace : (lines.take headLines).flatten =
      (before ++ front ++ blanks) ++ (c :: part ++ (back ++ '{' :: tail)) := by
    rw [htext]
    simp
  -- the selector starts on the first line
  obtain ⟨behind, hfirst, -⟩ := exists_of_byteLength_lt (hplace.symm.trans hmore)
    (by simpa only [byteLength_append] using hlt)
  have hdrop : (lines.take headLines).flatten.drop (before ++ front ++ blanks).length =
      c :: part ++ (back ++ '{' :: tail) := by
    rw [hplace, List.drop_left]
  have hnone : ∀ d ∈ c :: part ++ back, isRuleMark d = false := by
    intro d hd
    apply hmarks
    rcases List.mem_append.mp hd with hd | hd
    · simp only [List.mem_append, hd, or_true, true_or]
    · simp only [List.mem_append, hd, or_true]
  refine ⟨(before ++ front ++ blanks).length, ⟨⟨?_, ?_⟩, ?_, c :: part, back ++ '{' :: tail, hdrop,
    hlist.selectorBefore hblanks hself hpart tail,
    fun d hd => hnone d (List.mem_append_left back hd)⟩⟩
  · rw [hfirst, List.take_left]
    exact ⟨before, front, blanks, rfl, hbefore, fun d hd => hmarks d (by simp [hd]), hlist.opening,
      hblanks⟩
  · rw [hdrop, ← List.append_assoc]
    refine List.find?_eq_some_iff_append.mpr ⟨rfl, c :: part ++ back, tail, rfl, fun d hd => ?_⟩
    simp [hnone d hd]
  · rw [hfirst]
    simp

/-- Behind a selector without marks the list goes on without marks, up to the brace. -/
theorem exists_tail_of_find? {part post : List Char} (hpart : ∀ c ∈ part, isRuleMark c = false)
    (h : (part ++ post).find? isRuleMark = some '{') :
    ∃ back tail, post = back ++ '{' :: tail ∧ ∀ c ∈ back, isRuleMark c = false := by
  have hnone : part.find? isRuleMark = none :=
    List.find?_eq_none.mpr fun c hc => by simp [hpart c hc]
  rw [List.find?_append, hnone, Option.none_or] at h
  obtain ⟨-, back, tail, hpost, hback⟩ := List.find?_eq_some_iff_append.mp h
  exact ⟨back, tail, hpost, fun c hc => by simpa using hback c hc⟩

/-- A selector on the first line is a part of a head that starts there. -/
theorem HoldsSelectorAt.exists_headsRule {column : Nat} (h : HoldsSelectorAt name lines column) :
    ∃ before rest, (lines.take headLines).flatten = before ++ rest ∧ StartsAnew before ∧
      before <+: lines.head?.getD [] ∧
        HeadsRule name (byteLength before) (byteLength (lines.head?.getD [])) rest := by
  obtain ⟨more, hmore⟩ := exists_take_headLines lines
  obtain ⟨before, front, blanks, htake, hbefore, hfront, hcut, hblanks⟩ := h.leads
  obtain ⟨part, post, hdrop, hpart, hmarks⟩ := h.selector
  obtain ⟨back, tail, rfl, hback⟩ := exists_tail_of_find? hmarks (hdrop ▸ h.opens)
  have hfirst := List.take_append_drop column (lines.head?.getD [])
  have htext : (lines.take headLines).flatten =
      before ++ ((front ++ (blanks ++ part) ++ back) ++ '{' :: tail) := by
    rw [← List.take_append_drop column (lines.take headLines).flatten, hdrop, hmore,
      List.take_append_of_le_length h.lt.le, htake]
    simp
  refine ⟨before, _, htext, hbefore, ?_, front ++ (blanks ++ part) ++ back, tail, rfl, ?_,
    ⟨byteLength front, blanks ++ part⟩, mem_splitSelectors_iff.mpr ⟨front, back, rfl, rfl,
      hpart.isPart hcut hblanks hback⟩, ?_, ?_⟩
  · rw [← hfirst, htake, List.append_assoc, List.append_assoc]
    exact List.prefix_append before _
  · simp only [List.mem_append]
    rintro c ((hc | hc | hc) | hc)
    · exact hfront c hc
    · exact isRuleMark_of_isBlank (hblanks c hc)
    · exact hmarks c hc
    · exact hback c hc
  · rw [collapseBlanks_append_blank hblanks, hpart.name]
  · dsimp only
    rw [trimStart_append_blank hblanks, hpart.trimmed, byteLength_append, Nat.add_sub_cancel]
    have hrest : (lines.head?.getD []).drop column ≠ [] := by
      simpa [List.drop_eq_nil_iff] using h.lt
    obtain ⟨c, behind, hbehind⟩ := List.exists_cons_of_ne_nil hrest
    have hpos := c.utf8Size_pos
    rw [← hfirst, htake, hbehind]
    simp only [byteLength_append, byteLength_cons]
    omega

theorem startsSelector_iff (hname : name ≠ []) :
    startsSelector lines name = true ↔ ∃ column, HoldsSelectorAt name lines column := by
  rw [startsSelector_iff_headsRule]
  constructor
  · rintro ⟨before, rest, htext, hbefore, -, hhead⟩
    exact exists_holdsSelectorAt hname htext hbefore hhead
  · rintro ⟨column, h⟩
    exact h.exists_headsRule

/-- Where the text holds a selector, it is part of a head on the lines if no mark stands in its name and
the lines have there what a head needs. -/
theorem holdsSelectorAt_iff {before part post : List Char}
    (htext : lines.flatten = before ++ (part ++ post))
    (hlt : before.length < (lines.head?.getD []).length) (h : SelectorBefore name part post) :
    HoldsSelectorAt name lines before.length ↔
      (∀ c ∈ name, isRuleMark c = false) ∧ HeadsRuleAt lines before.length := by
  have hmarks : (∀ c ∈ name, isRuleMark c = false) → ∀ c ∈ part, isRuleMark c = false := by
    intro hname c hc
    cases hblank : isBlank c with
    | true => exact isRuleMark_of_isBlank hblank
    | false => exact hname c (h.name ▸ (mem_collapseBlanks_iff hblank).mpr hc)
  constructor
  · intro hholds
    obtain ⟨part', post', -, hpart', hmarks'⟩ := hholds.selector
    refine ⟨fun c hc => ?_, hholds.toHeadsRuleAt⟩
    cases hblank : isBlank c with
    | true => exact isRuleMark_of_isBlank hblank
    | false => exact hmarks' c ((mem_collapseBlanks_iff hblank).mp (hpart'.name ▸ hc))
  · rintro ⟨hname, hhead⟩
    have hnone := hmarks hname
    have hpart : part.find? isRuleMark = none :=
      List.find?_eq_none.mpr fun c hc => by simp [hnone c hc]
    have hle : before.length ≤ (lines.take headLines).flatten.length := by
      obtain ⟨more, hmore⟩ := exists_take_headLines lines
      rw [hmore, List.length_append]
      omega
    have hwhole : (lines.take headLines).flatten.drop before.length ++
        (lines.drop headLines).flatten = part ++ post := by
      rw [← List.drop_append_of_le_length hle, ← List.flatten_append, List.take_append_drop, htext,
        List.drop_left]
    have hopens := hhead.opens
    -- the brace is none of the selector, so the lines go on behind it
    rcases List.append_eq_append_iff.mp hwhole with ⟨inner, hinner, -⟩ | ⟨inner, hinner, hpost⟩
    · rw [hinner, List.find?_append, hopens] at hpart
      cases hpart
    · refine ⟨hhead, hlt, part, inner, hinner, ⟨h.uncut, h.trimmed, h.name, ?_⟩, hnone⟩
      rw [hinner, List.find?_append, hpart, Option.none_or] at hopens
      cases inner with
      | nil => cases hopens
      | cons c inner => simpa [hpost] using h.follows

end Rule

end Concordance
