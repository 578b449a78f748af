import Concordance.Proofs.Definition.Commented
import Concordance.Proofs.Definition.Moved
import Concordance.Proofs.Keyed
import Concordance.Reading

/-!
The selectors of a stylesheet that is printed from a tree.

The reading of selectors goes through the code once. It keeps a stack of the blocks that are open and
the place where the next prelude starts, and asks apart from that where a block closes. On a tree that
is printed both follow the tree: behind the items of a block the stack is what it was before
(`selectorsFrom_print`), and the brace that is found for a block is its own (`matchingBrace?_print`).
Main statement: `selectors_definitions_print`.
-/

namespace Concordance

open Text

section PlainCode

variable {rules : LexicalRules} {s : SourceText} {offset : Nat} {cs : List Char}

/-- The characters with their bytes, the first at `offset`. -/
def placed : Nat → List Char → List CodeChar
  | _, [] => []
  | offset, c :: cs => ⟨offset, c⟩ :: placed (offset + c.utf8Size) cs

theorem placed_append (offset : Nat) (cs ds : List Char) :
    placed offset (cs ++ ds) = placed offset cs ++ placed (offset + byteLength cs) ds := by
  induction cs generalizing offset with
  | nil => rfl
  | cons c cs ih =>
    simp only [List.cons_append, placed, ih, byteLength_cons, Nat.add_assoc]

/-- The text has neither quotes nor comments, so all of it is code. -/
structure SourceText.AllCode (s : SourceText) : Prop where
  comments : s.comments = []
  unquoted : ∀ c ∈ s.chars, c ∉ s.rules.quotes

/-- Where lines end no comment, a text without the mark of a comment and without quotes has none. -/
theorem commentsFrom_of_unmarked (hmarks : rules.lineMarks = []) (hquotes : ∀ c ∈ cs, c ∉ rules.quotes)
    (hmark : ¬ "/*".toList <:+: cs) : commentsFrom rules .code offset cs = [] := by
  induction cs generalizing offset with
  | nil => rfl
  | cons c cs ih =>
    have hafter : CommentReading.afterCode rules offset c cs = .code := by
      have hquote : rules.quotes.contains c = false := by simpa using hquotes c List.mem_cons_self
      have hopen : ¬ (c = '/' ∧ cs.head? = some '*') := by
        rintro ⟨rfl, hstar⟩
        obtain ⟨rest, rfl⟩ := List.head?_eq_some_iff.mp hstar
        exact hmark (List.prefix_append ['/', '*'] rest).isInfix
      simp [CommentReading.afterCode, hquotes c List.mem_cons_self, hopen, hmarks]
    rw [commentsFrom, CommentReading.step, hafter]
    exact ih (fun d hd => hquotes d (List.mem_cons_of_mem c hd))
      fun h => hmark (h.trans (List.suffix_cons c cs).isInfix)

theorem codeIn_of_unquoted {quotes : List Char} (h : ∀ c ∈ cs, c ∉ quotes) :
    codeIn quotes .code [] offset cs = placed offset cs := by
  induction cs generalizing offset with
  | nil => rfl
  | cons c cs ih =>
    have hfresh : CodeReading.fresh quotes [] offset c = .code := by
      simp [CodeReading.fresh, h c List.mem_cons_self]
    have hstep : CodeReading.step quotes (commentsAhead offset []) offset c .code = .code := hfresh
    rw [codeIn, hstep]
    exact congrArg (_ :: ·) (ih fun d hd => h d (List.mem_cons_of_mem c hd))

theorem SourceText.AllCode.codeFrom_eq (h : s.AllCode) {pre post : List Char}
    (hchars : s.chars = pre ++ post) :
    s.codeFrom (byteLength pre) = placed (byteLength pre) post := by
  rw [SourceText.codeFrom, SourceText.spotAt, offset_spotAt, rest_spotAt, h.comments, hchars,
    takeBytes_byteLength, dropBytes_byteLength]
  exact codeIn_of_unquoted fun c hc => h.unquoted c (by rw [hchars]; exact List.mem_append_right _ hc)

theorem byteLength_concat_mark {c : Char} (hc : c.utf8Size = 1) {t : List Char} :
    byteLength (t ++ [c]) = byteLength t + 1 := by
  rw [byteLength_append, byteLength_cons, hc, byteLength_nil]

/-- A mark of two characters does not stand across a third one. -/
theorem unmarked_cut {pre post : List Char} {a b c : Char} (hc : c ≠ a ∧ c ≠ b)
    (hpre : ¬ [a, b] <:+: pre) (hpost : ¬ [a, b] <:+: post) : ¬ [a, b] <:+: pre ++ c :: post := by
  induction pre with
  | nil =>
    intro h
    rcases List.infix_cons_iff.mp h with h | h
    · exact hc.1 (List.cons_prefix_cons.mp h).1.symm
    · exact hpost h
  | cons x pre ih =>
    intro h
    rcases List.infix_cons_iff.mp h with h | h
    · obtain ⟨rfl, hsecond⟩ := List.cons_prefix_cons.mp h
      cases pre with
      | nil => exact hc.2 (List.cons_prefix_cons.mp hsecond).1.symm
      | cons y pre =>
        obtain ⟨rfl, -⟩ := List.cons_prefix_cons.mp hsecond
        exact hpre (List.prefix_append [a, b] pre).isInfix
    · exact ih (fun h => hpre (h.trans (List.suffix_cons x pre).isInfix)) h

end PlainCode

/-- An extraction with symbols met before it. -/
def Extraction.behind (r : Extraction) (symbols : List Symbol) : Extraction :=
  { r with symbols := symbols ++ r.symbols }

@[simp] theorem Extraction.behind_nil (r : Extraction) : r.behind [] = r := rfl

@[simp] theorem Extraction.behind_behind (r : Extraction) (symbols later : List Symbol) :
    (r.behind later).behind symbols = r.behind (symbols ++ later) := by
  simp [Extraction.behind]

namespace Stylesheet

/-- The items of a stylesheet, one after the other: declarations, and blocks of items behind their
preludes. -/
inductive Items where
  | none
  | declaration (text : List Char) (rest : Items)
  | block (prelude : List Char) (inner rest : Items)
deriving Repr, DecidableEq

/-- The text holds no mark that the reading of a stylesheet stops at. -/
def PlainText (t : List Char) : Prop :=
  (∀ c ∈ t, c ∉ ['{', '}', ';', '\'', '"']) ∧ ¬ "/*".toList <:+: t

instance (t : List Char) : Decidable (PlainText t) :=
  inferInstanceAs (Decidable (_ ∧ ¬ _))

/-- The prelude is that of a rule. -/
def isRulePrelude (prelude : List Char) : Bool :=
  (trim prelude).head? != some '@'

/-- The block behind the prelude is read for rules: it belongs to a rule or to one of the at-rules
under whose condition rules stand. -/
def holdsRules (prelude : List Char) : Bool :=
  isRulePrelude prelude ||
    ["media", "supports", "layer", "container", "document", "scope"].contains
      (String.ofList (asciiLower ((trim prelude).tail.takeWhile isNameChar)))

/-- The selector that a part of a prelude is read as, if it names a class or an id and refers to no
outer rule. The prelude is printed from `offset` on, and the block behind it closes at `close`. -/
def partSelector? (s : SourceText) (path : String) (offset close : Nat) (part : Nat × List Char) :
    Option Symbol :=
  let name := collapseBlanks part.2
  if name ≠ [] ∧ '&' ∉ name ∧ (selectorKey? name).isSome then
    some (s.symbolAt path .selector name
      (offset + part.1 + byteLength (part.2.takeWhile isBlank)) (close + 1))
  else none

/-- The selectors of a rule whose prelude is printed from `offset` on and whose block closes at
`close`. -/
def preludeSelectors (s : SourceText) (path : String) (prelude : List Char) (offset close : Nat) :
    List Symbol :=
  (splitSelectors prelude).filterMap (partSelector? s path offset close)

namespace Items

/-- The text of the items. -/
def print : Items → List Char
  | .none => []
  | .declaration text rest => text ++ ';' :: rest.print
  | .block prelude inner rest => prelude ++ '{' :: (inner.print ++ '}' :: rest.print)

/-- The texts of the items are plain, and no prelude ends like that of an interpolation. -/
def Formed : Items → Prop
  | .none => True
  | .declaration text rest => PlainText text ∧ rest.Formed
  | .block prelude inner rest =>
    PlainText prelude ∧ prelude.getLast? ≠ some '#' ∧ inner.Formed ∧ rest.Formed

instance decidableFormed : (items : Items) → Decidable items.Formed
  | .none => inferInstanceAs (Decidable True)
  | .declaration text rest =>
    have := decidableFormed rest
    inferInstanceAs (Decidable (PlainText text ∧ rest.Formed))
  | .block prelude inner rest =>
    have := decidableFormed inner
    have := decidableFormed rest
    inferInstanceAs (Decidable (PlainText prelude ∧ prelude.getLast? ≠ some '#' ∧ inner.Formed ∧
      rest.Formed))

/-- The selectors of the rules among the items, which are printed from `offset` on. -/
def selectors (s : SourceText) (path : String) : Nat → Items → List Symbol
  | _, .none => []
  | offset, .declaration text rest => rest.selectors s path (offset + byteLength text + 1)
  | offset, .block prelude inner rest =>
    let opening := offset + byteLength prelude
    let close := opening + 1 + byteLength inner.print
    (if isRulePrelude prelude then preludeSelectors s path prelude offset close else []) ++
      (if holdsRules prelude then inner.selectors s path (opening + 1) else []) ++
      rest.selectors s path (close + 1)

end Items

section Print

theorem Items.byteLength_declaration (text : List Char) (rest : Items) :
    byteLength (Items.declaration text rest).print =
      byteLength text + 1 + byteLength rest.print := by
  rw [Items.print, byteLength_append, Nat.add_assoc]
  rfl

theorem Items.byteLength_block (prelude : List Char) (inner rest : Items) :
    byteLength (Items.block prelude inner rest).print =
      byteLength prelude + 1 + byteLength inner.print + 1 + byteLength rest.print := by
  have hmark : ∀ c ∈ ['{', '}'], c.utf8Size = 1 := by decide
  rw [Items.print, byteLength_append, byteLength_cons, byteLength_append, byteLength_cons,
    hmark '{' (by decide), hmark '}' (by decide)]
  omega

variable {s : SourceText} {path : String} {t pre post : List Char} {items : Items}
  {rest : List CodeChar}

/-- The characters of a printed block at their places. -/
theorem placed_block (prelude : List Char) (inner more : Items) (offset : Nat) :
    placed offset (Items.block prelude inner more).print =
      placed offset prelude ++ ⟨offset + byteLength prelude, '{'⟩ ::
        (placed (offset + byteLength prelude + 1) inner.print ++
          ⟨offset + byteLength prelude + 1 + byteLength inner.print, '}'⟩ ::
            placed (offset + byteLength prelude + 1 + byteLength inner.print + 1) more.print) := by
  rw [Items.print, placed_append, placed, placed_append, placed]
  rfl

theorem PlainText.notMem (h : PlainText t) {c : Char} (hc : c ∈ ['{', '}', ';', '\'', '"']) : c ∉ t :=
  fun hmem => h.1 c hmem hc

/-- A printed tree has no quotes and no mark of a comment. -/
theorem Items.Formed.print_spec (h : items.Formed) :
    (∀ c ∈ items.print, c ∉ ['\'', '"']) ∧ ¬ "/*".toList <:+: items.print := by
  have hquote : ∀ {t : List Char}, PlainText t → ∀ c ∈ t, c ∉ ['\'', '"'] := fun ht c hc hq =>
    ht.1 c hc (by simp only [List.mem_cons, List.not_mem_nil, or_false] at hq ⊢; tauto)
  induction items with
  | none => exact ⟨by simp [Items.print], by decide⟩
  | declaration text rest ih =>
    obtain ⟨htext, hrest⟩ := h
    obtain ⟨hquotes, hmark⟩ := ih hrest
    refine ⟨?_, unmarked_cut (by decide) htext.2 hmark⟩
    simp only [Items.print, List.forall_mem_append, List.forall_mem_cons]
    exact ⟨hquote htext, by decide, hquotes⟩
  | block prelude inner rest ihInner ihRest =>
    obtain ⟨hprelude, -, hinner, hrest⟩ := h
    obtain ⟨hquotesInner, hmarkInner⟩ := ihInner hinner
    obtain ⟨hquotesRest, hmarkRest⟩ := ihRest hrest
    refine ⟨?_, unmarked_cut (by decide) hprelude.2
      (unmarked_cut (by decide) hmarkInner hmarkRest)⟩
    simp only [Items.print, List.forall_mem_append, List.forall_mem_cons]
    exact ⟨hquote hprelude, by decide, hquotesInner, by decide, hquotesRest⟩

theorem Items.Formed.allCode (h : items.Formed) :
    (Language.css.source (String.ofList items.print)).AllCode := by
  obtain ⟨hquotes, hmark⟩ := h.print_spec
  have hchars : (Language.css.source (String.ofList items.print)).chars = items.print :=
    String.toList_ofList
  constructor
  · rw [SourceText.comments_eq, hchars]
    exact commentsFrom_of_unmarked rfl hquotes hmark
  · rw [hchars]
    exact hquotes

/-- A search for a closing brace passes over a text without braces. -/
theorem searchList_closingBrace_plain (ht : PlainText t) (depth : Int) (offset : Nat) :
    searchList closingBrace depth (placed offset t ++ rest) = searchList closingBrace depth rest := by
  have hopen := ht.notMem (c := '{') (by decide)
  have hclose := ht.notMem (c := '}') (by decide)
  clear ht
  induction t generalizing offset with
  | nil => rfl
  | cons c t ih =>
    simp only [List.mem_cons, not_or] at hopen hclose
    have hgo : closingBrace depth ⟨offset, c⟩ = .go depth := by
      simp [closingBrace, Ne.symm hopen.1, Ne.symm hclose.1]
    rw [placed, List.cons_append, searchList, hgo]
    exact ih _ hopen.2 hclose.2

/-- Within a block, a search for its closing brace passes over printed items: the braces of their
blocks balance. -/
theorem searchList_closingBrace_print (h : items.Formed) {depth : Int} (hdepth : 0 < depth)
    (offset : Nat) :
    searchList closingBrace depth (placed offset items.print ++ rest) =
      searchList closingBrace depth rest := by
  induction items generalizing depth offset rest with
  | none => rfl
  | declaration text more ih =>
    obtain ⟨htext, hmore⟩ := h
    rw [Items.print, placed_append, List.append_assoc, searchList_closingBrace_plain htext]
    exact ih hmore hdepth _
  | block prelude inner more ihInner ihMore =>
    obtain ⟨hprelude, -, hinner, hmore⟩ := h
    have hback : ∀ o, closingBrace (depth + 1) ⟨o, '}'⟩ = .go depth := by
      intro o
      have hopen : depth + 1 - 1 = depth := by omega
      have hne : depth ≠ 0 := by omega
      simp [closingBrace, hopen, hne]
    rw [placed_block, List.append_assoc, searchList_closingBrace_plain hprelude, List.cons_append,
      searchList]
    show searchList closingBrace (depth + 1) _ = _
    rw [List.append_assoc, ihInner hinner (by omega), List.cons_append, searchList, hback]
    exact ihMore hmore hdepth _

/-- The brace that closes a printed block is the one behind its items. -/
theorem matchingBrace?_print (hcode : s.AllCode) (h : items.Formed)
    (hchars : s.chars = pre ++ '{' :: (items.print ++ '}' :: post)) :
    s.matchingBrace? (byteLength pre) = some (byteLength pre + 1 + byteLength items.print) := by
  have hspot : (s.spotAt (byteLength pre)).offset = byteLength pre ∧
      (s.spotAt (byteLength pre)).rest.head? = some '{' := by
    rw [SourceText.spotAt, offset_spotAt, rest_spotAt, hchars, takeBytes_byteLength,
      dropBytes_byteLength]
    exact ⟨rfl, rfl⟩
  rw [SourceText.matchingBrace?, if_pos hspot, SourceText.searchFrom_spotAt,
    hcode.codeFrom_eq hchars, placed, searchList]
  show searchList closingBrace 1 _ = _
  rw [placed_append, searchList_closingBrace_print h (by decide), placed, searchList]
  rfl

/-- The brace behind a prelude opens no interpolation. -/
theorem isInterpolation_eq_false (hchars : s.chars = pre ++ '{' :: post)
    (hlast : pre.getLast? ≠ some '#') : isInterpolation s (byteLength pre) = false := by
  rw [isInterpolation, beq_eq_false_iff_ne, SourceText.charAt?]
  intro hmark
  split at hmark
  · next hspot =>
    obtain ⟨front, back, htext, hfront⟩ := onBoundary_iff.mp ((offset_spotAt_eq_iff _ _).mp hspot)
    rw [SourceText.spotAt, rest_spotAt, htext, ← hfront, dropBytes_byteLength] at hmark
    obtain ⟨back, rfl⟩ := List.head?_eq_some_iff.mp hmark
    rw [hchars] at htext
    cases hpre : pre with
    | nil =>
      obtain rfl : front = [] := by
        cases front with
        | nil => rfl
        | cons c front =>
          have := c.utf8Size_pos
          simp [hpre] at hfront
          omega
      rw [hpre] at htext
      exact absurd (List.cons.inj htext).1 (by decide)
    | cons c cs =>
      have hpos : 0 < byteLength pre := by
        have := c.utf8Size_pos
        rw [hpre, byteLength_cons]
        omega
      have hsame : byteLength (front ++ ['#']) = byteLength pre := by
        rw [byteLength_append, hfront]
        show byteLength pre - 1 + 1 = _
        omega
      have hcut : takeBytes (byteLength pre) (pre ++ '{' :: post) = front ++ ['#'] := by
        rw [htext, ← hsame, show front ++ '#' :: back = (front ++ ['#']) ++ back by simp,
          takeBytes_byteLength]
      rw [takeBytes_byteLength] at hcut
      exact hlast (by rw [hcut, List.getLast?_concat])
  · cases hmark

end Print

section Selectors

variable {s : SourceText} {path : String} {t pre post : List Char} {items : Items}
  {blocks : List BlockKind} {rest : List CodeChar}

theorem blockKind_eq (prelude : List Char) :
    blockKind prelude =
      if isRulePrelude prelude then .rule else if holdsRules prelude then .conditional
      else .other := by
  rw [blockKind, holdsRules, isRulePrelude]
  cases htrim : trim prelude with
  | nil => rfl
  | cons c cs =>
    by_cases hc : c = '@'
    · subst hc
      have hstrip : stripFront? ['@'] ('@' :: cs) = some cs := stripFront?_eq_some_iff.mpr rfl
      simp [hstrip, conditionalRules]
    · have hstrip : stripFront? ['@'] (c :: cs) = none := by
        rw [stripFront?_eq_none_iff]
        intro hprefix
        exact hc (List.cons_prefix_cons.mp hprefix).1.symm
      simp [hstrip, hc]

/-- The selectors of a rule are those of its prelude. -/
theorem selectorsOf_eq (hchars : s.chars = pre ++ (t ++ post)) (close : Nat) :
    selectorsOf s path (byteLength pre) (byteLength pre + byteLength t) close =
      preludeSelectors s path t (byteLength pre) close := by
  have hslice : s.slice (byteLength pre) (byteLength pre + byteLength t) = t := by
    rw [SourceText.slice, hchars, ← List.append_assoc]
    exact sliceBytes_append pre t post
  rw [selectorsOf, preludeSelectors, hslice]
  refine List.filterMap_congr fun x _ => ?_
  obtain ⟨place, part⟩ := x
  have hblanks : byteLength part =
      byteLength (part.takeWhile isBlank) + byteLength (trimStart part) := by
    rw [← byteLength_append]
    exact congrArg byteLength List.takeWhile_append_dropWhile.symm
  have hleading : byteLength part - byteLength (trimStart part) =
      byteLength (part.takeWhile isBlank) := by omega
  dsimp only [partSelector?]
  rw [hleading]
  split
  · next hskip =>
    rw [if_neg]
    simp only [Bool.or_eq_true, List.isEmpty_iff, List.contains_iff_mem, Option.isNone_iff_eq_none]
      at hskip
    rintro ⟨hname, hamp, hkey⟩
    rcases hskip with (hskip | hskip) | hskip
    · exact hname hskip
    · exact hamp hskip
    · rw [hskip] at hkey
      cases hkey
  · next hkeep =>
    rw [if_pos]
    simp only [Bool.or_eq_true, List.isEmpty_iff, List.contains_iff_mem, not_or] at hkeep
    exact ⟨hkeep.1.1, hkeep.1.2, Option.isSome_iff_ne_none.mpr (by simpa using hkeep.2)⟩

theorem headStart_of_allCode (hcode : s.AllCode) (start stop : Nat) :
    headStart s start stop = start := by
  rw [headStart, hcode.comments]
  rfl

/-- The reading of selectors passes over a text without marks. -/
theorem selectorsFrom_plain (ht : PlainText t) (start offset : Nat) :
    selectorsFrom s path 0 start blocks (placed offset t ++ rest) =
      selectorsFrom s path 0 start blocks rest := by
  have hopen := ht.notMem (c := '{') (by decide)
  have hclose := ht.notMem (c := '}') (by decide)
  have hsemicolon := ht.notMem (c := ';') (by decide)
  clear ht
  induction t generalizing offset with
  | nil => rfl
  | cons c t ih =>
    simp only [List.mem_cons, not_or] at hopen hclose hsemicolon
    rw [placed, List.cons_append, selectorsFrom, if_neg (Nat.not_lt_zero _),
      if_neg (Ne.symm hopen.1), if_neg (Ne.symm hclose.1), if_neg (Ne.symm hsemicolon.1)]
    exact ih _ hopen.2 hclose.2 hsemicolon.2

/-- What the reading takes a block for that opens behind a prelude while others are open. -/
def kindWithin (blocks : List BlockKind) (prelude : List Char) : BlockKind :=
  if blocks.head? = some .other then .other else blockKind prelude

/-- At the brace behind a prelude the reading takes the selectors of a rule and goes on inside. -/
theorem selectorsFrom_open {close : Nat} (hcode : s.AllCode)
    (hchars : s.chars = pre ++ (t ++ '{' :: post)) (hlast : (pre ++ t).getLast? ≠ some '#')
    (hclose : s.matchingBrace? (byteLength (pre ++ t)) = some close) :
    selectorsFrom s path 0 (byteLength pre) blocks (⟨byteLength (pre ++ t), '{'⟩ :: rest) =
      (selectorsFrom s path 0 (byteLength (pre ++ t) + 1) (kindWithin blocks t :: blocks)
        rest).behind
      (if kindWithin blocks t = .rule then preludeSelectors s path t (byteLength pre) close
        else []) := by
  have hslice : s.slice (byteLength pre) (byteLength (pre ++ t)) = t := by
    rw [SourceText.slice, hchars, ← List.append_assoc, byteLength_append]
    exact sliceBytes_append pre t ('{' :: post)
  have hnot : isInterpolation s (byteLength (pre ++ t)) = false :=
    isInterpolation_eq_false (by rw [hchars, List.append_assoc]) hlast
  rw [selectorsFrom, if_neg (Nat.not_lt_zero _), if_pos rfl, hnot, if_neg Bool.false_ne_true]
  simp only [headStart_of_allCode hcode, hslice, hclose]
  rw [← kindWithin, byteLength_append, selectorsOf_eq hchars]
  split
  · rfl
  · rfl

theorem selectorsFrom_close (start offset : Nat) (kind : BlockKind) :
    selectorsFrom s path 0 start (kind :: blocks) (⟨offset, '}'⟩ :: rest) =
      selectorsFrom s path 0 (offset + 1) blocks rest := by
  simp [selectorsFrom]

theorem selectorsFrom_semicolon (start offset : Nat) :
    selectorsFrom s path 0 start blocks (⟨offset, ';'⟩ :: rest) =
      selectorsFrom s path 0 (offset + 1) blocks rest := by
  simp [selectorsFrom]

/-- What a block and the items behind it give, by the kinds that the reading goes by. -/
theorem selectors_block (prelude : List Char) (inner more : Items) (offset : Nat) :
    (if kindWithin blocks prelude = .rule then
        preludeSelectors s path prelude offset
          (offset + byteLength prelude + 1 + byteLength inner.print) else []) ++
      ((if kindWithin blocks prelude = .other then []
        else inner.selectors s path (offset + byteLength prelude + 1)) ++
      (if blocks.head? = some .other then []
        else more.selectors s path (offset + byteLength prelude + 1 + byteLength inner.print + 1))) =
    if blocks.head? = some .other then []
    else (Items.block prelude inner more).selectors s path offset := by
  by_cases hother : blocks.head? = some .other
  · simp [kindWithin, hother]
  · rw [kindWithin, if_neg hother, if_neg hother, if_neg hother, blockKind_eq, Items.selectors]
    by_cases hrule : isRulePrelude prelude = true
    · have hholds : holdsRules prelude = true := by simp [holdsRules, hrule]
      simp [hrule, hholds]
    · by_cases hholds : holdsRules prelude = true
      · simp [hrule, hholds]
      · simp [hrule, hholds]

/-- On printed items the reading takes the selectors of the items, unless they are in a block that is
passed over, and ends with the blocks that it started with. -/
theorem selectorsFrom_print (path : String) (hcode : s.AllCode) (h : items.Formed)
    (pre post : List Char) (blocks : List BlockKind) (rest : List CodeChar)
    (hchars : s.chars = pre ++ (items.print ++ post)) (hlast : pre.getLast? ≠ some '#') :
    selectorsFrom s path 0 (byteLength pre) blocks (placed (byteLength pre) items.print ++ rest) =
      (selectorsFrom s path 0 (byteLength (pre ++ items.print)) blocks rest).behind
        (if blocks.head? = some .other then [] else items.selectors s path (byteLength pre)) := by
  induction items generalizing pre post blocks rest with
  | none => simp [Items.print, Items.selectors, placed]
  | declaration text more ih =>
    obtain ⟨htext, hmore⟩ := h
    have hrest := ih hmore (pre ++ text ++ [';']) post blocks rest
      (by rw [hchars, Items.print]; simp) (by simp)
    rw [byteLength_concat_mark rfl, byteLength_append] at hrest
    rw [Items.print, placed_append, List.append_assoc, selectorsFrom_plain htext, placed,
      List.cons_append, selectorsFrom_semicolon,
      show pre ++ (text ++ ';' :: more.print) = (pre ++ text ++ [';']) ++ more.print by simp]
    exact hrest
  | block prelude inner more ihInner ihMore =>
    obtain ⟨hprelude, hmark, hinner, hmore⟩ := h
    have hfront : (pre ++ prelude).getLast? ≠ some '#' := by
      rw [List.getLast?_append]
      cases hlastOf : prelude.getLast? with
      | none => exact hlast
      | some c => rwa [hlastOf] at hmark
    have hcut : s.chars =
        pre ++ prelude ++ '{' :: (inner.print ++ '}' :: (more.print ++ post)) := by
      rw [hchars, Items.print]
      simp
    -- the places of the block
    have hopening : byteLength (pre ++ prelude ++ ['{']) = byteLength (pre ++ prelude) + 1 :=
      byteLength_concat_mark rfl
    have hclosing : byteLength (pre ++ prelude ++ ['{'] ++ inner.print) =
        byteLength (pre ++ prelude) + 1 + byteLength inner.print := by
      rw [byteLength_append, hopening]
    have hbehind : byteLength (pre ++ prelude ++ ['{'] ++ inner.print ++ ['}']) =
        byteLength (pre ++ prelude) + 1 + byteLength inner.print + 1 := by
      rw [byteLength_concat_mark rfl, hclosing]
    have hinside := ihInner hinner (pre ++ prelude ++ ['{']) ('}' :: (more.print ++ post))
      (kindWithin blocks prelude :: blocks)
      (⟨byteLength (pre ++ prelude) + 1 + byteLength inner.print, '}'⟩ ::
        (placed (byteLength (pre ++ prelude) + 1 + byteLength inner.print + 1) more.print ++ rest))
      (by rw [hcut]; simp) (by simp)
    have houtside := ihMore hmore (pre ++ prelude ++ ['{'] ++ inner.print ++ ['}']) post blocks rest
      (by rw [hcut]; simp) (by rw [List.getLast?_concat]; decide)
    rw [hopening, hclosing, selectorsFrom_close] at hinside
    rw [hbehind] at houtside
    rw [placed_block, ← byteLength_append, List.append_assoc, selectorsFrom_plain hprelude,
      List.cons_append, List.append_assoc, List.cons_append,
      selectorsFrom_open hcode (by rw [hcut, List.append_assoc]) hfront
        (matchingBrace?_print hcode hinner hcut),
      hinside, houtside, Extraction.behind_behind, Extraction.behind_behind]
    have hend : pre ++ prelude ++ ['{'] ++ inner.print ++ ['}'] ++ more.print =
        pre ++ (Items.block prelude inner more).print := by simp [Items.print]
    rw [hend, ← selectors_block, byteLength_append pre prelude]
    simp

end Selectors

section Order

variable {s : SourceText} {path : String} {t pre post : List Char} {items : Items}
  {low mid high : Nat} {symbols later : List Symbol}

/-- The symbols stand from one byte up to another, in reading order. -/
structure InOrder (s : SourceText) (low high : Nat) (symbols : List Symbol) : Prop where
  within : ∀ symbol ∈ symbols, ∃ n, symbol.StandsAt s n ∧ low ≤ n ∧ n ≤ high
  sorted : symbols.Pairwise fun a b => a.position.upTo b.position = true

theorem inOrder_nil : InOrder s low high [] :=
  ⟨by simp, List.Pairwise.nil⟩

theorem InOrder.append {next : Nat} (h : InOrder s low mid symbols) (h' : InOrder s next high later)
    (hlow : low ≤ mid) (hmid : mid ≤ next) (hhigh : next ≤ high) :
    InOrder s low high (symbols ++ later) := by
  constructor
  · intro symbol hsymbol
    rcases List.mem_append.mp hsymbol with hsymbol | hsymbol
    · obtain ⟨n, hstands, hn, hn'⟩ := h.within symbol hsymbol
      exact ⟨n, hstands, hn, by omega⟩
    · obtain ⟨n, hstands, hn, hn'⟩ := h'.within symbol hsymbol
      exact ⟨n, hstands, by omega, hn'⟩
  · refine List.pairwise_append.mpr ⟨h.sorted, h'.sorted, fun a ha b hb => ?_⟩
    obtain ⟨n, hstandsA, -, hn⟩ := h.within a ha
    obtain ⟨m, hstandsB, hm, -⟩ := h'.within b hb
    rw [hstandsA.position, hstandsB.position]
    exact upTo_positionAt hstandsA.boundary (by omega)

theorem InOrder.mono {low' high' : Nat} (h : InOrder s low high symbols) (hlow : low' ≤ low)
    (hhigh : high ≤ high') : InOrder s low' high' symbols := by
  refine ⟨fun symbol hsymbol => ?_, h.sorted⟩
  obtain ⟨n, hstands, hn, hn'⟩ := h.within symbol hsymbol
  exact ⟨n, hstands, hlow.trans hn, hn'.trans hhigh⟩

theorem InOrder.ite (h : InOrder s low high symbols) (p : Prop) [Decidable p] :
    InOrder s low high (if p then symbols else []) := by
  split
  · exact h
  · exact inOrder_nil

/-- The selectors of a prelude stand in it, in order. -/
theorem inOrder_preludeSelectors (hchars : s.chars = pre ++ (t ++ post)) (close : Nat) :
    InOrder s (byteLength pre) (byteLength pre + byteLength t)
      (preludeSelectors s path t (byteLength pre) close) := by
  have hplace : ∀ part ∈ splitSelectors t, ∀ symbol,
      partSelector? s path (byteLength pre) close part = some symbol →
      ∃ n, symbol.StandsAt s n ∧ byteLength pre + part.1 ≤ n ∧
        n ≤ byteLength pre + part.1 + byteLength part.2 ∧
        n ≤ byteLength pre + byteLength t := by
    intro part hpart symbol hsymbol
    obtain ⟨front, back, rfl, hfront, -⟩ := mem_splitSelectors_iff.mp hpart
    dsimp only [partSelector?] at hsymbol
    split at hsymbol
    · obtain rfl := Option.some.inj hsymbol
      have hblanks : byteLength part.2 =
          byteLength (part.2.takeWhile isBlank) + byteLength (part.2.dropWhile isBlank) := by
        rw [← byteLength_append, List.takeWhile_append_dropWhile]
      have hboundary : onBoundary
          (byteLength pre + part.1 + byteLength (part.2.takeWhile isBlank)) s.chars = true := by
        refine onBoundary_iff.mpr ⟨pre ++ front ++ part.2.takeWhile isBlank,
          part.2.dropWhile isBlank ++ (back ++ post), ?_, ?_⟩
        · rw [hchars]
          conv_lhs => rw [← List.takeWhile_append_dropWhile (p := isBlank) (l := part.2)]
          simp only [List.append_assoc]
        · rw [byteLength_append, byteLength_append, hfront]
      refine ⟨_, ⟨hboundary, rfl⟩, by omega, by omega, ?_⟩
      rw [byteLength_append, byteLength_append, hfront]
      omega
    · cases hsymbol
  constructor
  · intro symbol hsymbol
    obtain ⟨part, hpart, hsymbol⟩ := List.mem_filterMap.mp hsymbol
    obtain ⟨n, hstands, hlow, -, hhigh⟩ := hplace part hpart symbol hsymbol
    exact ⟨n, hstands, by omega, hhigh⟩
  · rw [preludeSelectors, List.pairwise_filterMap]
    refine (partsFrom_splitSelectors t).pairwise.imp_of_mem ?_
    intro a b ha hb hab symbol hsymbol symbol' hsymbol'
    obtain ⟨n, hstands, -, hn, -⟩ := hplace a ha symbol hsymbol
    obtain ⟨m, hstands', hm, -, -⟩ := hplace b hb symbol' hsymbol'
    rw [hstands.position, hstands'.position]
    exact upTo_positionAt hstands.boundary (by omega)

/-- The selectors of printed items stand in them, in order. -/
theorem inOrder_selectors (path : String) (pre post : List Char)
    (hchars : s.chars = pre ++ (items.print ++ post)) :
    InOrder s (byteLength pre) (byteLength pre + byteLength items.print)
      (items.selectors s path (byteLength pre)) := by
  induction items generalizing pre post with
  | none => exact inOrder_nil
  | declaration text more ih =>
    have hmore := ih (pre ++ text ++ [';']) post (by rw [hchars, Items.print]; simp)
    rw [byteLength_concat_mark rfl, byteLength_append] at hmore
    rw [Items.byteLength_declaration]
    exact hmore.mono (by omega) (by omega)
  | block prelude inner more ihInner ihMore =>
    have hprelude : InOrder s (byteLength pre) (byteLength pre + byteLength prelude)
        (preludeSelectors s path prelude (byteLength pre)
          (byteLength pre + byteLength prelude + 1 + byteLength inner.print)) :=
      inOrder_preludeSelectors (by rw [hchars, Items.print, List.append_assoc]) _
    have hinner := ihInner (pre ++ prelude ++ ['{']) ('}' :: (more.print ++ post))
      (by rw [hchars, Items.print]; simp)
    have hmore := ihMore (pre ++ prelude ++ ['{'] ++ inner.print ++ ['}']) post
      (by rw [hchars, Items.print]; simp)
    rw [byteLength_concat_mark rfl, byteLength_append] at hinner
    rw [byteLength_concat_mark rfl, byteLength_append (pre ++ prelude ++ ['{']),
      byteLength_concat_mark rfl, byteLength_append pre] at hmore
    rw [Items.byteLength_block, Items.selectors]
    have hblock := (hprelude.ite (isRulePrelude prelude = true)).append
      (hinner.ite (holdsRules prelude = true)) (by omega) (by omega) (by omega)
    exact (hblock.append hmore (by omega) (by omega) (by omega)).mono (Nat.le_refl _) (by omega)

end Order

/-- The reading of a whole text that is printed from a tree. -/
theorem symbols_selectorsFrom_print {s : SourceText} {items : Items} (path : String)
    (hcode : s.AllCode) (h : items.Formed) (hchars : s.chars = items.print) :
    (selectorsFrom s path 0 0 [] (s.codeFrom 0)).symbols = items.selectors s path 0 := by
  have hcut : s.chars = [] ++ (items.print ++ []) := by
    rw [hchars, List.nil_append, List.append_nil]
  have hplaced : s.codeFrom 0 = placed 0 items.print := by
    have hfrom := hcode.codeFrom_eq hcut
    rwa [List.append_nil] at hfrom
  have hscan := selectorsFrom_print path hcode h [] [] [] [] hcut (by simp)
  rw [List.append_nil] at hscan
  rw [hplaced]
  refine (congrArg Extraction.symbols hscan).trans ?_
  simp [Extraction.behind, selectorsFrom]

/-- The selectors of a stylesheet that is printed from a tree are the first occurrences of those of its
rules, in order. -/
theorem selectors_definitions_print (items : Items) (hitems : items.Formed) (path : String) :
    (Language.css.definitions (String.ofList items.print) path).symbols.filter
        (·.kind == .selector) =
      firstPerKey Symbol.name []
        (items.selectors (Language.css.source (String.ofList items.print)) path 0) := by
  have hread := symbols_selectorsFrom_print path hitems.allCode hitems String.toList_ofList
  have hcut : (Language.css.source (String.ofList items.print)).chars =
      [] ++ (items.print ++ []) := by
    rw [List.nil_append, List.append_nil]
    exact String.toList_ofList
  have hsorted := inOrder_selectors path [] [] hcut
  change (definitions (Language.css.source (String.ofList items.print)) path).symbols.filter _ = _
  generalize Language.css.source (String.ofList items.print) = s at hread hsorted ⊢
  rw [definitions, inReadingOrder, filter_mergeSort]
  · rw [filter_firstPerKey_append, hread]
    · exact List.mergeSort_of_pairwise (hsorted.sorted.sublist (firstPerKey_sublist Symbol.name [] _))
    · exact fun symbol hsymbol => beq_iff_eq.mpr (mem_selectorsFrom hsymbol).1
    · intro symbol hsymbol
      rw [(mem_propertiesAndVariables hsymbol).1]
      rfl
  · intro a b c
    exact Position.upTo_trans
  · intro a b
    exact Bool.or_eq_true_iff.mpr (Position.upTo_total a.position b.position)

/-- A rule with a nested one, a condition around a rule with the first selector again, and frames of an
animation, which are passed over. -/
def sampleItems : Items :=
  .block ".a, p > .b ".toList
    (.declaration "color: red".toList (.block " .c:hover".toList .none .none))
    (.block "@media print".toList (.block " #d,\n .a".toList .none .none)
      (.block "@keyframes k".toList (.block ".e".toList .none .none) .none))

theorem selectors_definitions_print_sample :
    sampleItems.Formed ∧
      (Language.css.definitions (String.ofList sampleItems.print) "a.css").symbols.filter
          (·.kind == .selector) =
        firstPerKey Symbol.name []
          (sampleItems.selectors (Language.css.source (String.ofList sampleItems.print)) "a.css" 0) ∧
      (firstPerKey Symbol.name [] (sampleItems.selectors
          (Language.css.source (String.ofList sampleItems.print)) "a.css" 0)).map
        (fun symbol => (symbol.name, symbol.range)) =
        [(".a", ⟨⟨0, 0⟩, ⟨0, 35⟩⟩), ("p > .b", ⟨⟨0, 4⟩, ⟨0, 35⟩⟩),
          (".c:hover", ⟨⟨0, 24⟩, ⟨0, 34⟩⟩), ("#d", ⟨⟨0, 49⟩, ⟨1, 5⟩⟩)] :=
  have hformed : sampleItems.Formed := by decide +kernel
  ⟨hformed, selectors_definitions_print sampleItems hformed "a.css", by decide +kernel⟩

end Stylesheet

end Concordance
