import Concordance.Proofs.Definition.Standing
import Concordance.Proofs.Source.Spans
import Concordance.Reading

/-!
Definitions and comments.

A name that a pattern finds is kept only if it stands in code. The head of a rule is cut into
selectors as it is written, comments included; only the comments in front of it are passed over.

Main statements: `Php.inCode_of_mem_definitions` and `JavaScript.inCode_of_mem_definitions` (no
definition stands in a comment), `Stylesheet.inComment_headStart` (the head of a rule starts in code)
and `inComment_standsAt_iff` (a definition stands in a comment exactly if it is a selector behind a
comma that a comment covers or follows).
-/

namespace Concordance

open Text Pattern

variable {s : SourceText} {path : String} {symbol : Symbol}

section Site

/-- The symbol is recorded at the byte, which lies between two characters. -/
structure Symbol.StandsAt (symbol : Symbol) (s : SourceText) (offset : Nat) : Prop where
  boundary : onBoundary offset s.chars = true
  position : symbol.position = s.positionAt offset

theorem Symbol.StandsAt.unique {a b : Nat} (ha : symbol.StandsAt s a) (hb : symbol.StandsAt s b) :
    a = b :=
  positionAt_injOn ha.boundary hb.boundary (ha.position.symm.trans hb.position)

/-- The symbol is recorded at a byte that no comment covers. -/
def Symbol.InCode (symbol : Symbol) (s : SourceText) : Prop :=
  ∃ offset, symbol.StandsAt s offset ∧ s.inComment offset = false

variable {p body : Pattern} {front back : List Pattern} {f : Char → Bool} {n : FoundName}
  {lead rest : List Char} {start stop : Nat}

/-- A name that is found starts between two characters. -/
theorem onBoundary_of_mem_namesIn (hp : p.Finds front body back f) (hchars : s.chars = lead ++ rest)
    (hstart : byteLength lead = start) (h : n ∈ s.namesIn p start stop) :
    onBoundary n.start s.chars = true := by
  obtain ⟨c, e, g, d, pre, post, -, -, -, -, hall, hpre, -⟩ := exists_found hp hchars hstart h
  exact onBoundary_iff.mpr ⟨pre, n.text ++ (g.rest ++ post), by simpa using hall, hpre⟩

theorem onBoundary_of_mem_names (hp : p.Finds front body back f) (h : n ∈ s.names p) :
    onBoundary n.start s.chars = true :=
  onBoundary_of_mem_namesIn hp (List.nil_append s.chars).symm rfl h

theorem Symbol.Records.inCode (h : symbol.Records s n) (hn : onBoundary n.start s.chars = true)
    (hcode : s.inComment n.start = false) : symbol.InCode s :=
  ⟨n.start, ⟨hn, h.position⟩, hcode⟩

/-- Classes in comments might as well not be found. -/
theorem readClasses_filter (nested : Bool) (members : FoundName → Nat → Nat → List Symbol)
    (bodies : List Span) (names : List FoundName) :
    readClasses s path nested members bodies names =
      readClasses s path nested members bodies (names.filter fun n => !s.inComment n.start) := by
  induction names generalizing bodies with
  | nil => rfl
  | cons n names ih =>
    cases hn : s.inComment n.start with
    | true =>
      rw [List.filter_cons_of_neg (by simp [hn]), readClasses, hn, Bool.true_or, if_pos rfl]
      exact ih bodies
    | false =>
      rw [List.filter_cons_of_pos (by simp [hn]), readClasses, readClasses]
      simp only [ih]

/-- A definition that is read with the classes stands in code if the members do. -/
theorem inCode_of_mem_readClasses (hp : p.Finds front body back f) {nested : Bool}
    {members : FoundName → Nat → Nat → List Symbol} {bodies : List Span}
    (hmembers : ∀ m start stop, s.bodyFrom m.stop 0 = .closed start stop →
      ∀ d ∈ members m start stop, d.InCode s)
    (h : symbol ∈ (readClasses s path nested members bodies (s.names p)).symbols) :
    symbol.InCode s := by
  rw [readClasses_filter] at h
  rcases mem_readClasses h with ⟨m, hm, -, hrecords⟩ | ⟨m, -, start, stop, hbody, hmember⟩
  · obtain ⟨hm, hcode⟩ := List.mem_filter.mp hm
    exact hrecords.inCode (onBoundary_of_mem_names hp hm) (by simpa using hcode)
  · exact hmembers m start stop hbody symbol hmember

theorem inCode_of_mem_readEvents (hp : p.Finds front body back f)
    (h : symbol ∈ readEvents s path (s.names p)) : symbol.InCode s := by
  obtain ⟨n, hn, hcode, rfl⟩ := exists_of_mem_readEvents h
  exact Symbol.Records.inCode ⟨String.toList_ofList, rfl⟩ (onBoundary_of_mem_names hp hn) hcode

end Site

namespace Php

theorem inCode_of_mem_methods {owner : FoundName} {offset start stop : Nat}
    (hbody : s.bodyFrom offset 0 = .closed start stop) (h : symbol ∈ methods s path owner start stop) :
    symbol.InCode s := by
  obtain ⟨n, last, rfl, hcode, hn⟩ := exists_of_mem_methods h
  obtain ⟨pre, rest, hchars, hstart⟩ := exists_bodyFrom hbody
  exact Symbol.Records.inCode ⟨String.toList_ofList, rfl⟩
    (onBoundary_of_mem_namesIn finds_methodHead hchars hstart hn) hcode

/-- No definition stands in a comment. -/
theorem inCode_of_mem_definitions (h : symbol ∈ (definitions s path).symbols) :
    symbol.InCode s := by
  rcases List.mem_append.mp (List.mem_mergeSort.mp h) with h | h
  · rcases List.mem_append.mp h with h | h
    · rcases List.mem_append.mp h with h | h
      · exact inCode_of_mem_readClasses finds_classHead
          (fun m start stop hbody d hd => inCode_of_mem_methods hbody hd) h
      · obtain ⟨n, hn, ⟨stop, rfl⟩, hcode, -⟩ := exists_of_mem_functions h
        exact (records_symbolAt s path .function n stop).inCode
          (onBoundary_of_mem_names finds_functionHead hn) hcode
    · obtain ⟨n, hn, rfl, hcode, -⟩ := exists_of_mem_constants h
      refine (records_symbolAt s path .variable n n.stop).inCode ?_ hcode
      rcases hn with hn | hn
      · exact onBoundary_of_mem_names finds_definedConstant hn
      · exact onBoundary_of_mem_names finds_declaredConstant hn
  · exact inCode_of_mem_readEvents finds_firedHook h

end Php

namespace JavaScript

theorem inCode_of_mem_methods {owner : FoundName} {offset start stop : Nat}
    (hbody : s.bodyFrom offset 0 = .closed start stop) (h : symbol ∈ methods s path owner start stop) :
    symbol.InCode s := by
  obtain ⟨n, last, rfl, hcode, hfound⟩ := exists_of_mem_methods h
  obtain ⟨pre, rest, hchars, hstart⟩ := exists_bodyFrom hbody
  have hrecords := records_symbolAt s path .method n last
  refine Symbol.Records.inCode ⟨hrecords.name, hrecords.position⟩ ?_ hcode
  rcases hfound with hfound | hfound
  · exact onBoundary_of_mem_namesIn finds_methodHead hchars hstart hfound
  · exact onBoundary_of_mem_namesIn finds_arrowField hchars hstart hfound

/-- No definition stands in a comment. -/
theorem inCode_of_mem_definitions (h : symbol ∈ (definitions s path).symbols) :
    symbol.InCode s := by
  rcases List.mem_append.mp (List.mem_mergeSort.mp h) with h | h
  · rcases List.mem_append.mp h with h | h
    · exact inCode_of_mem_readClasses finds_classHead
        (fun m start stop hbody d hd => inCode_of_mem_methods hbody hd) h
    · obtain ⟨n, stop, rfl, hcode, hn⟩ := exists_of_mem_functions h
      refine (records_symbolAt s path .function n stop).inCode ?_ hcode
      rcases hn with hn | hn
      · exact onBoundary_of_mem_names finds_functionHead hn
      · exact onBoundary_of_mem_names finds_assignedFunction hn
  · exact inCode_of_mem_readEvents finds_firedEvent h

end JavaScript

section Head

namespace Stylesheet

/-- Behind the comments that are passed over, and the white space that follows them, none of the
comments lies. -/
theorem covers_foldl_passComment {spans : List Span} {start o : Nat}
    (hsorted : spans.Pairwise (fun a b => a.stop ≤ b.start))
    (hne : ∀ span ∈ spans, span.start < span.stop)
    (hclear : ∀ span ∈ spans, span.strictlyCovers start = false)
    (hle : spans.foldl (passComment s) start ≤ o)
    (hblank : AllBlank (s.slice (spans.foldl (passComment s) start) o)) :
    ∀ span ∈ spans, span.covers o = false := by
  induction spans generalizing start with
  | nil => simp
  | cons c spans ih =>
    obtain ⟨hbehind, hsorted⟩ := List.pairwise_cons.mp hsorted
    obtain ⟨hnec, hne⟩ := List.forall_mem_cons.mp hne
    obtain ⟨hclearc, hclear⟩ := List.forall_mem_cons.mp hclear
    rw [List.foldl_cons] at hle hblank
    have hlater : ∀ span ∈ spans, span.strictlyCovers (passComment s start c) = false := by
      intro span hspan
      rw [passComment]
      split
      · have hspan := hbehind span hspan
        simp only [Span.strictlyCovers, Bool.and_eq_false_iff, decide_eq_false_iff_not]
        omega
      · exact hclear span hspan
    refine List.forall_mem_cons.mpr ⟨?_, ih hsorted hne hlater hle hblank⟩
    rw [Bool.eq_false_iff]
    intro hcovers
    simp only [Span.covers, Bool.and_eq_true, decide_eq_true_eq] at hcovers
    have hfold : spans.foldl (passComment s) (passComment s start c) = passComment s start c := by
      rcases foldl_passComment_cases (s := s) (passComment s start c) spans with h | ⟨d, hd, h⟩
      · exact h
      · have hstart := hbehind d hd
        have hstop := hne d hd
        omega
    rw [hfold, passComment] at hle hblank
    split at hle
    · omega
    · next hkept =>
      rw [if_neg hkept] at hblank
      by_cases hbefore : start ≤ c.start
      · -- what stands between the start and the comment stands before the byte too
        apply hkept
        rw [Bool.and_eq_true, decide_eq_true_eq]
        refine ⟨hbefore, List.all_eq_true.mpr fun a ha => hblank a ?_⟩
        exact (takeBytes_prefix_of_le (by omega) (dropBytes start s.chars)).subset ha
      · simp only [Span.strictlyCovers, Bool.and_eq_false_iff, decide_eq_false_iff_not] at hclearc
        omega

/-- The head of a rule starts in code, behind the white space at its front. -/
theorem inComment_headStart {start stop o : Nat} (hclear : s.ClearAt start) (ho : o < stop)
    (hle : headStart s start stop ≤ o) (hblank : AllBlank (s.slice (headStart s start stop) o)) :
    s.inComment o = false := by
  rw [Bool.eq_false_iff]
  intro hin
  obtain ⟨span, hspan, hcovers⟩ := SourceText.inComment_iff.mp hin
  have hstart : span.start < stop := by
    simp only [Span.covers, Bool.and_eq_true, decide_eq_true_eq] at hcovers
    omega
  have hfilter : span ∈ s.comments.filter (·.start < stop) :=
    List.mem_filter.mpr ⟨hspan, by simpa using hstart⟩
  rw [headStart_eq] at hle hblank
  have hnot := covers_foldl_passComment
    (s.pairwise_comments.sublist List.filter_sublist)
    (fun c hc => SourceText.start_lt_stop (List.mem_filter.mp hc).1)
    (fun c hc => hclear c (List.mem_filter.mp hc).1) hle hblank span hfilter
  rw [hcovers] at hnot
  cases hnot

end Stylesheet

end Head

section Comma

/-- The byte stands behind a comma, with nothing but white space between, and a comment covers the
comma or starts at the byte. -/
def SourceText.BehindCommentedComma (s : SourceText) (offset : Nat) : Prop :=
  ∃ front blanks rest, s.chars = front ++ ',' :: (blanks ++ rest) ∧ AllBlank blanks ∧
    byteLength (front ++ ',' :: blanks) = offset ∧
    (s.inComment (byteLength front) = true ∨ ∃ span ∈ s.comments, span.start = offset)

/-- A character that is no white space stands before a comma that white space follows, is the comma,
or stands behind them. -/
theorem before_or_comma_or_behind {front blanks rest pre post : List Char} {c : Char}
    (h : front ++ ',' :: (blanks ++ rest) = pre ++ c :: post) (hblanks : AllBlank blanks)
    (hc : isBlank c = false) :
    byteLength pre < byteLength front ∨ (pre = front ∧ c = ',') ∨
      byteLength (front ++ ',' :: blanks) ≤ byteLength pre := by
  rcases List.append_eq_append_iff.mp h with ⟨as, rfl, has⟩ | ⟨bs, rfl, hbs⟩
  · cases as with
    | nil =>
      obtain ⟨rfl, -⟩ := List.cons.inj has
      exact Or.inr (Or.inl ⟨List.append_nil front, rfl⟩)
    | cons a as =>
      obtain ⟨rfl, hbehind⟩ := List.cons.inj has
      right
      right
      rcases List.append_eq_append_iff.mp hbehind with ⟨ds, rfl, -⟩ | ⟨ds, rfl, hds⟩
      · simp only [byteLength_append, byteLength_cons]
        omega
      · cases ds with
        | nil => rw [List.append_nil]
        | cons d ds =>
          obtain ⟨rfl, -⟩ := List.cons.inj hds
          rw [hblanks c (List.mem_append_right as List.mem_cons_self)] at hc
          cases hc
  · cases bs with
    | nil =>
      obtain ⟨rfl, -⟩ := List.cons.inj hbs
      exact Or.inr (Or.inl ⟨(List.append_nil pre).symm, rfl⟩)
    | cons d bs =>
      have hpos := d.utf8Size_pos
      rw [byteLength_append, byteLength_cons]
      exact Or.inl (by omega)

/-- Where lines end no comment, a comment that covers the comma goes on behind it. -/
theorem SourceText.BehindCommentedComma.inComment (hmarks : s.rules.lineMarks = []) {offset : Nat}
    (hrest : dropBytes offset s.chars ≠ []) (h : s.BehindCommentedComma offset) :
    s.inComment offset = true := by
  obtain ⟨front, blanks, rest, hchars, hblanks, rfl, hcomma | ⟨span, hspan, hstart⟩⟩ := h
  · obtain ⟨span, hspan, hcovers⟩ := inComment_iff.mp hcomma
    refine inComment_iff.mpr ⟨span, hspan, ?_⟩
    obtain ⟨pre, post, htext, hstop, hend⟩ := exists_stop_of_mem_comments hmarks hspan
    simp only [Span.covers, Bool.and_eq_true, decide_eq_true_eq] at hcovers ⊢
    have hsize : byteLength (front ++ ',' :: blanks) = byteLength front + (1 + byteLength blanks) := by
      rw [byteLength_append, byteLength_cons]
      rfl
    refine ⟨by omega, ?_⟩
    rcases hend with rfl | hslash
    · -- the comment goes on to the end of the text
      rw [← hstop]
      rw [List.append_nil] at htext
      rw [hchars, ← List.cons_append, ← List.append_assoc, dropBytes_byteLength] at hrest
      rw [← htext, hchars, ← List.cons_append, ← List.append_assoc,
        byteLength_append (front ++ ',' :: blanks)]
      obtain ⟨c, cs, rfl⟩ := List.exists_cons_of_ne_nil hrest
      have hpos := c.utf8Size_pos
      rw [byteLength_cons]
      omega
    · obtain ⟨inner, rfl⟩ := List.getLast?_eq_some_iff.mp hslash
      rw [hchars, List.append_assoc, List.singleton_append] at htext
      rw [byteLength_append inner, show byteLength ['/'] = 1 from rfl] at hstop
      rcases before_or_comma_or_behind htext hblanks (by decide) with hlt | ⟨-, hslash⟩ | hle
      · omega
      · cases hslash
      · omega
  · have hlt := start_lt_stop hspan
    refine inComment_iff.mpr ⟨span, hspan, ?_⟩
    simp only [Span.covers, Bool.and_eq_true, decide_eq_true_eq]
    omega

/-- A comment that covers a place behind a comma and white space covers the comma or starts there. -/
theorem SourceText.behindCommentedComma_of_inComment (hrules : s.rules.Usual) {front blanks rest : List Char}
    (hchars : s.chars = front ++ ',' :: (blanks ++ rest)) (hblanks : AllBlank blanks)
    (h : s.inComment (byteLength (front ++ ',' :: blanks)) = true) :
    s.BehindCommentedComma (byteLength (front ++ ',' :: blanks)) := by
  obtain ⟨span, hspan, hcovers⟩ := inComment_iff.mp h
  refine ⟨front, blanks, rest, hchars, hblanks, rfl, ?_⟩
  obtain ⟨pre, c, post, htext, hstart, hc⟩ := exists_start_of_mem_comments hrules hspan
  simp only [Span.covers, Bool.and_eq_true, decide_eq_true_eq] at hcovers
  by_cases hcomma : span.start ≤ byteLength front
  · left
    refine inComment_iff.mpr ⟨span, hspan, ?_⟩
    simp only [Span.covers, Bool.and_eq_true, decide_eq_true_eq]
    rw [byteLength_append] at hcovers
    omega
  · right
    rw [hchars] at htext
    rcases before_or_comma_or_behind htext hblanks hc with hlt | ⟨rfl, -⟩ | hle
    · omega
    · omega
    · exact ⟨span, hspan, by omega⟩

end Comma

namespace Stylesheet

/-- A selector stands in a comment exactly if it stands behind a comma that a comment covers or
follows. -/
theorem inComment_iff_of_mem_selectorsFrom (hrules : s.rules.Usual) (hmarks : s.rules.lineMarks = [])
    (h : symbol ∈ (selectorsFrom s path 0 0 [] (s.codeFrom 0)).symbols) :
    ∃ offset, symbol.StandsAt s offset ∧
      (s.inComment offset = true ↔ s.BehindCommentedComma offset) := by
  obtain ⟨start, stop, close, hclear, hhead, hopen, h⟩ := exists_head_of_mem_selectorsFrom h
  obtain ⟨front, blanks, part, post, hsite⟩ := exists_site_of_mem_selectorsOf hhead hopen h
  have hchars := hsite.chars
  have hblanks := hsite.blank
  have hposition : symbol.position = s.positionAt (byteLength (front ++ blanks)) :=
    congrArg Symbol.position hsite.recorded
  have hcut : s.chars = (front ++ blanks) ++ (part ++ post) := by rw [hchars, List.append_assoc]
  have hrest : part ++ post ≠ [] := List.append_ne_nil_of_left_ne_nil hsite.ne_nil post
  have hlt := hsite.before
  have hlast := hsite.opening
  generalize part ++ post = rest at hchars hcut hrest
  refine ⟨byteLength (front ++ blanks),
    ⟨onBoundary_iff.mpr ⟨_, rest, hcut, rfl⟩, hposition⟩, fun hin => ?_, fun hbehind =>
      hbehind.inComment hmarks (by rw [hcut, dropBytes_byteLength]; exact hrest)⟩
  rcases hlast with hfirst | hcomma
  · -- the first selector of the head
    have hslice : s.slice (byteLength front) (byteLength (front ++ blanks)) = blanks := by
      rw [SourceText.slice, byteLength_append, hcut]
      exact sliceBytes_append front blanks rest
    have hnot := inComment_headStart hclear hlt
      (by rw [← hfirst, byteLength_append]; exact Nat.le_add_right _ _)
      (by rw [← hfirst, hslice]; exact hblanks)
    rw [hin] at hnot
    cases hnot
  · obtain ⟨inner, rfl⟩ := List.getLast?_eq_some_iff.mp hcomma
    have hshape : inner ++ [','] ++ blanks = inner ++ ',' :: blanks := by simp
    rw [hshape] at hin ⊢
    have hchars' : s.chars = inner ++ ',' :: (blanks ++ rest) := by simpa using hchars
    exact SourceText.behindCommentedComma_of_inComment hrules hchars' hblanks hin

theorem inCode_of_mem_propertiesAndVariables (h : symbol ∈ propertiesAndVariables s path) :
    symbol.InCode s := by
  obtain ⟨n, rfl, hcode, hn⟩ := exists_of_mem_propertiesAndVariables h
  have hrecords := records_symbolAt s path .variable n n.stop
  rcases hn with hn | hn
  · exact hrecords.inCode (onBoundary_of_mem_names finds_customProperty hn) hcode
  · exact hrecords.inCode (onBoundary_of_mem_names finds_scriptVariable hn) hcode

end Stylesheet

/-- A definition stands at one byte of its text. It stands in a comment exactly if it is a selector of
a stylesheet behind a comma that a comment covers or follows. -/
theorem inComment_standsAt_iff (language : Language) (content path : String) {symbol : Symbol}
    (h : symbol ∈ (language.definitions content path).symbols) :
    (∃ offset, symbol.StandsAt (language.source content) offset) ∧
      ∀ offset, symbol.StandsAt (language.source content) offset →
        ((language.source content).inComment offset = true ↔
          language = .css ∧ symbol.kind = .selector ∧
            (language.source content).BehindCommentedComma offset) := by
  have hcode : symbol.InCode (language.source content) →
      ¬ (language = .css ∧ symbol.kind = .selector) →
      ∃ offset, symbol.StandsAt (language.source content) offset ∧
        ((language.source content).inComment offset = true ↔
          language = .css ∧ symbol.kind = .selector ∧
            (language.source content).BehindCommentedComma offset) := by
    rintro ⟨offset, hstands, hcode⟩ hnot
    refine ⟨offset, hstands, fun hin => ?_, fun hselector => ?_⟩
    · rw [hcode] at hin
      cases hin
    · exact absurd ⟨hselector.1, hselector.2.1⟩ hnot
  have hsite : ∃ offset, symbol.StandsAt (language.source content) offset ∧
      ((language.source content).inComment offset = true ↔
        language = .css ∧ symbol.kind = .selector ∧
          (language.source content).BehindCommentedComma offset) := by
    cases language with
    | php => exact hcode (Php.inCode_of_mem_definitions h) (by simp)
    | javascript => exact hcode (JavaScript.inCode_of_mem_definitions h) (by simp)
    | css =>
      rcases List.mem_append.mp (mem_of_mem_firstPerKey _ (List.mem_mergeSort.mp h)) with h | h
      · obtain ⟨offset, hstands, hiff⟩ :=
          Stylesheet.inComment_iff_of_mem_selectorsFrom (usual_lexicalRules .css) rfl h
        have hkind := (Stylesheet.mem_selectorsFrom h).1
        exact ⟨offset, hstands, by simpa [hkind] using hiff⟩
      · have hkind := (Stylesheet.mem_propertiesAndVariables h).1
        exact hcode (Stylesheet.inCode_of_mem_propertiesAndVariables h) (by simp [hkind])
  obtain ⟨offset, hstands, hiff⟩ := hsite
  refine ⟨⟨offset, hstands⟩, fun other hother => ?_⟩
  rwa [hother.unique hstands]

/-- The second selector of a list with a comment between the two. -/
def commentedSelector : Symbol :=
  (Language.css.source ".a, /* x */ .b {}").symbolAt "a.css" .selector "/* x */ .b".toList 4 17

theorem commentedSelector_mem :
    commentedSelector ∈ (Language.css.definitions ".a, /* x */ .b {}" "a.css").symbols :=
  List.mem_mergeSort.mpr (by decide +kernel)

theorem commentedSelector_standsAt :
    commentedSelector.StandsAt (Language.css.source ".a, /* x */ .b {}") 4 :=
  ⟨by decide, rfl⟩

theorem commentedSelector_behindComma :
    commentedSelector ∈ (Language.css.definitions ".a, /* x */ .b {}" "a.css").symbols ∧
      (Language.css.source ".a, /* x */ .b {}").BehindCommentedComma 4 := by
  have hiff := (inComment_standsAt_iff .css _ _ commentedSelector_mem).2 4 commentedSelector_standsAt
  exact ⟨commentedSelector_mem, (hiff.mp (by decide)).2.2⟩

/-- The comment is taken for the start of the selector behind it. -/
theorem commentedSelector_inComment :
    commentedSelector ∈ (Language.css.definitions ".a, /* x */ .b {}" "a.css").symbols ∧
      ∃ offset, commentedSelector.StandsAt (Language.css.source ".a, /* x */ .b {}") offset ∧
        (Language.css.source ".a, /* x */ .b {}").inComment offset = true :=
  ⟨commentedSelector_mem, 4, commentedSelector_standsAt, by decide⟩

end Concordance
