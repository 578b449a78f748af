import Concordance.Proofs.Definition.Anchor
import Concordance.Proofs.Source.BareCode

/-!
The comments of a text as spans: their order, what they start with and what they end with.

Main statements: `pairwise_comments` (each comment starts behind the one before it),
`exists_cut_of_mem_comments` (the text of a comment, what opens it and what closes it), and
`covers_of_mem_codeFrom` (no comment covers a code character).
-/

namespace Concordance

open Text

namespace LexicalRules

/-- What a comment starts with. -/
def openings (rules : LexicalRules) : List (List Char) :=
  "/*".toList :: rules.lineMarks

/-- The text starts with what a comment starts with. -/
def Opens (rules : LexicalRules) (text : List Char) : Prop :=
  ∃ mark ∈ rules.openings, mark <+: text

/-- A comment can end between the two texts: behind the mark that ends a block, before the end of a
line or at the end of all. -/
def Closes (rules : LexicalRules) (front back : List Char) : Prop :=
  back = [] ∨ "*/".toList <:+ front ∨ rules.lineMarks ≠ [] ∧ back.head? = some '\n'

variable {rules : LexicalRules}

theorem Closes.of_suffix {front front' back : List Char} (h : rules.Closes front back)
    (hsuffix : front <:+ front') : rules.Closes front' back :=
  h.imp_right (Or.imp_left fun hend => hend.trans hsuffix)

/-- A comment starts with a character that is no white space. -/
theorem Opens.exists_cons (hrules : rules.Usual) {text : List Char} (h : rules.Opens text) :
    ∃ c rest, text = c :: rest ∧ isBlank c = false := by
  obtain ⟨mark, hmark, back, rfl⟩ := h
  rcases List.mem_cons.mp hmark with rfl | hmark
  · exact ⟨'/', '*' :: back, rfl, by decide⟩
  · obtain ⟨hne, hchars⟩ := hrules.marks mark hmark
    obtain ⟨c, cs, rfl⟩ := List.exists_cons_of_ne_nil hne
    exact ⟨c, cs ++ back, rfl, hchars c List.mem_cons_self⟩

end LexicalRules

section Order

variable {rules : LexicalRules} {r : CommentReading}

namespace CommentReading

/-- A comment that is open after a character was open before it or is opened by it. -/
theorem openStart?_step_cases (rules : LexicalRules) (offset : Nat) (c : Char) (rest : List Char)
    (r : CommentReading) :
    (r.step rules offset c rest).2.openStart? = r.openStart? ∨
      (r.step rules offset c rest).2.openStart? = none ∨
      (r.step rules offset c rest).2 = afterCode rules offset c rest := by
  cases r with
  | code => exact Or.inr (Or.inr rfl)
  | escaped quote => exact Or.inl rfl
  | literal quote =>
    simp only [step]
    split
    · exact Or.inl rfl
    · split
      · exact Or.inl rfl
      · split
        · exact Or.inr (Or.inr rfl)
        · exact Or.inl rfl
  | opening start => exact Or.inl rfl
  | block start star =>
    simp only [step]
    split
    · exact Or.inr (Or.inl rfl)
    · exact Or.inl rfl
  | line start =>
    simp only [step]
    split
    · exact Or.inr (Or.inr rfl)
    · exact Or.inl rfl

/-- Where a reading of code has a comment open, a mark opens it. -/
theorem opens_of_afterCode {offset : Nat} {c : Char} {rest : List Char}
    (h : (afterCode rules offset c rest).openStart? ≠ none) : rules.Opens (c :: rest) := by
  unfold afterCode at h
  split at h
  · exact absurd rfl h
  · split at h
    · next hslash =>
      obtain ⟨rfl, hstar⟩ := hslash
      obtain ⟨rest, rfl⟩ := List.head?_eq_some_iff.mp hstar
      exact ⟨"/*".toList, List.mem_cons_self, List.prefix_append ['/', '*'] rest⟩
    · split at h
      · next hmark =>
        obtain ⟨mark, hmem, hpre⟩ := List.any_eq_true.mp hmark
        exact ⟨mark, List.mem_cons_of_mem _ hmem, List.isPrefixOf_iff_prefix.mp hpre⟩
      · exact absurd rfl h

/-- What the reading knows of the character before it: the star that may end a block comment. -/
def passed : CommentReading → List Char
  | .block _ true => ['*']
  | _ => []

theorem passed_step (rules : LexicalRules) (offset : Nat) (c : Char) (rest : List Char)
    (r : CommentReading) : (r.step rules offset c rest).2.passed <:+ [c] := by
  have hafter : (afterCode rules offset c rest).passed = [] := by
    unfold afterCode
    repeat' split
    all_goals rfl
  cases r with
  | code => exact hafter ▸ List.nil_suffix
  | escaped quote | opening start => exact List.nil_suffix
  | literal quote =>
    simp only [step]
    repeat' split
    all_goals first | exact List.nil_suffix | exact hafter ▸ List.nil_suffix
  | block start star =>
    simp only [step]
    split
    · exact List.nil_suffix
    · by_cases hstar : c = '*'
      · subst hstar
        exact List.suffix_refl _
      · rw [beq_false_of_ne hstar]
        exact List.nil_suffix
  | line start =>
    simp only [step]
    split
    · exact hafter ▸ List.nil_suffix
    · exact List.nil_suffix

/-- A reading is in a comment that ends with the line only if a mark opens such comments. -/
theorem lineMarks_of_step {offset : Nat} {c : Char} {rest : List Char}
    (hr : ∀ start, r = .line start → rules.lineMarks ≠ []) {start : Nat}
    (h : (r.step rules offset c rest).2 = .line start) : rules.lineMarks ≠ [] := by
  intro hmarks
  have hafter : ∀ start, afterCode rules offset c rest ≠ .line start := by
    intro start
    unfold afterCode
    rw [hmarks]
    split
    · simp
    · split <;> simp
  cases r <;> simp only [step] at h <;> (repeat' split at h) <;> simp_all

end CommentReading

theorem start_lt_step {offset : Nat} (rules : LexicalRules) (c : Char) (rest : List Char)
    (hr : ∀ start ∈ r.openStart?, start < offset) :
    ∀ start ∈ (r.step rules offset c rest).2.openStart?, start < offset + c.utf8Size := by
  intro start hstart
  have hle := CommentReading.openStart?_step rules c rest (fun s hs => Nat.le_of_lt (hr s hs)) start
    hstart
  exact Nat.lt_of_le_of_lt hle (Nat.lt_add_of_pos_right c.utf8Size_pos)

/-- What one step finds starts where a comment was open or could start, and what comes later starts
behind its end. -/
theorem bounds_of_step {offset : Nat} (rules : LexicalRules) (c : Char) (rest : List Char)
    (hr : ∀ start ∈ r.openStart?, start < offset) :
    r.openStart?.getD offset ≤
        (r.step rules offset c rest).2.openStart?.getD (offset + c.utf8Size) ∧
      (r.step rules offset c rest).1.Pairwise (fun a b => a.stop ≤ b.start) ∧
      ∀ span ∈ (r.step rules offset c rest).1, r.openStart?.getD offset ≤ span.start ∧
        span.start < span.stop ∧
          span.stop ≤ (r.step rules offset c rest).2.openStart?.getD (offset + c.utf8Size) := by
  have hpos := c.utf8Size_pos
  rcases CommentReading.step_cases rules offset c rest r with
    ⟨hfound, hopen⟩ | ⟨hfound, hbefore, hopen⟩ | ⟨start, -, hbefore, rfl, hfound, hopen⟩ |
    ⟨start, -, hbefore, hfound, hopen⟩
  · rw [hfound, hopen]
    refine ⟨?_, .nil, by simp⟩
    cases r.openStart? with
    | none => exact Nat.le_add_right _ _
    | some start => exact Nat.le_refl start
  · rw [hfound, hbefore, hopen]
    exact ⟨Nat.le_refl offset, .nil, by simp⟩
  · have hlt := hr start hbefore
    have hsize : '/'.utf8Size = 1 := by decide
    rw [hfound, hbefore, hopen, hsize]
    simp only [Option.getD_some, Option.getD_none, List.mem_singleton, forall_eq]
    exact ⟨by omega, List.pairwise_singleton _ _, by omega⟩
  · have hlt := hr start hbefore
    have hle : offset ≤ (r.step rules offset c rest).2.openStart?.getD (offset + c.utf8Size) := by
      rcases hopen with hopen | hopen
      · rw [hopen]
        exact Nat.le_add_right _ _
      · rw [hopen]
        exact Nat.le_refl offset
    rw [hfound, hbefore]
    simp only [Option.getD_some, List.mem_singleton, forall_eq]
    exact ⟨by omega, List.pairwise_singleton _ _, by omega⟩

/-- The comments met from a place on start one behind the other, the first of them where the open
comment does or at the place. -/
theorem pairwise_commentsFrom {cs : List Char} {offset : Nat}
    (hr : ∀ start ∈ r.openStart?, start < offset) :
    (commentsFrom rules r offset cs).Pairwise (fun a b => a.stop ≤ b.start) ∧
      ∀ span ∈ commentsFrom rules r offset cs,
        r.openStart?.getD offset ≤ span.start ∧ span.start < span.stop := by
  induction cs generalizing r offset with
  | nil =>
    cases r <;> simp_all [commentsFrom, CommentReading.unfinished, CommentReading.openStart?]
  | cons c cs ih =>
    obtain ⟨hpairs, hlater⟩ := ih (start_lt_step rules c cs hr)
    obtain ⟨hle, hfirst, hfound⟩ := bounds_of_step rules c cs hr
    simp only [commentsFrom]
    refine ⟨List.pairwise_append.mpr ⟨hfirst, hpairs, ?_⟩, ?_⟩
    · intro a ha b hb
      exact (hfound a ha).2.2.trans (hlater b hb).1
    · intro span hspan
      rcases List.mem_append.mp hspan with hspan | hspan
      · exact ⟨(hfound span hspan).1, (hfound span hspan).2.1⟩
      · exact ⟨hle.trans (hlater span hspan).1, (hlater span hspan).2⟩

/-- Where a comment met in a text lies: it was open before the text, or a mark in the text opens it, and
it goes on until something closes it. -/
inductive CommentCut (rules : LexicalRules) (r : CommentReading) (offset : Nat) (cs : List Char)
    (span : Span) : Prop
  | before {inner back : List Char} (hopen : r.openStart? = some span.start)
      (hchars : cs = inner ++ back) (hstop : span.stop = offset + byteLength inner)
      (hcloses : rules.Closes (r.passed ++ inner) back)
  | within {front inner back : List Char} (hchars : cs = front ++ (inner ++ back))
      (hstart : span.start = offset + byteLength front)
      (hstop : span.stop = span.start + byteLength inner) (hopens : rules.Opens (inner ++ back))
      (hcloses : rules.Closes inner back)

/-- A comment that a character completes was open before it. -/
theorem commentCut_of_mem_step {offset : Nat} {c : Char} {cs : List Char} {span : Span}
    (hr : ∀ start, r = .line start → rules.lineMarks ≠ [])
    (h : span ∈ (r.step rules offset c cs).1) : CommentCut rules r offset (c :: cs) span := by
  cases r with
  | block start star =>
    simp only [CommentReading.step] at h
    split at h
    · next hstar =>
      obtain ⟨rfl, hslash⟩ := Bool.and_eq_true_iff.mp hstar
      obtain rfl : c = '/' := by simpa using hslash
      obtain rfl := List.mem_singleton.mp h
      have hchars : '/' :: cs = ['/'] ++ cs := rfl
      exact .before rfl hchars rfl (Or.inr (Or.inl (List.suffix_refl _)))
    · cases h
  | line start =>
    simp only [CommentReading.step] at h
    split at h
    · next hline =>
      obtain rfl := List.mem_singleton.mp h
      have hchars : c :: cs = [] ++ c :: cs := rfl
      exact .before rfl hchars rfl (Or.inr (Or.inr ⟨hr start rfl, congrArg some hline⟩))
    · cases h
  | code | escaped | opening => cases h
  | literal quote =>
    simp only [CommentReading.step] at h
    repeat' split at h
    all_goals cases h

/-- Where a comment met behind a character lies. -/
theorem CommentCut.of_step {offset : Nat} {c : Char} {cs : List Char} {span : Span}
    (h : CommentCut rules (r.step rules offset c cs).2 (offset + c.utf8Size) cs span) :
    CommentCut rules r offset (c :: cs) span := by
  cases h with
  | @before inner back hopen hchars hstop hcloses =>
    subst hchars
    have hsuffix : (r.step rules offset c (inner ++ back)).2.passed ++ inner <:+ c :: inner := by
      obtain ⟨lead, hlead⟩ := CommentReading.passed_step rules offset c (inner ++ back) r
      exact ⟨lead, by rw [← List.append_assoc, hlead]; rfl⟩
    have hsize : span.stop = offset + byteLength (c :: inner) := by
      rw [hstop, byteLength_cons, Nat.add_assoc]
    rcases CommentReading.openStart?_step_cases rules offset c (inner ++ back) r with
      hsame | hnone | hafter
    · exact .before (hsame.symm.trans hopen) rfl hsize
        (hcloses.of_suffix (hsuffix.trans (List.suffix_append _ _)))
    · rw [hnone] at hopen
      cases hopen
    · rw [hafter] at hopen
      have hopens := CommentReading.opens_of_afterCode (hopen ▸ Option.some_ne_none span.start)
      rcases CommentReading.openStart?_afterCode rules offset c (inner ++ back) with hnone | hhere
      · rw [hnone] at hopen
        cases hopen
      · rw [hhere] at hopen
        obtain hstart : offset = span.start := Option.some.inj hopen
        have hchars : c :: (inner ++ back) = [] ++ (c :: inner ++ back) := rfl
        exact .within hchars hstart.symm (hstart ▸ hsize) hopens (hcloses.of_suffix hsuffix)
  | @within front inner back hchars hstart hstop hopens hcloses =>
    have hchars' : c :: cs = c :: front ++ (inner ++ back) := congrArg (c :: ·) hchars
    exact .within hchars' (by rw [hstart, byteLength_cons, Nat.add_assoc]) hstop hopens hcloses

/-- A comment starts where the open comment does, or at a mark that opens one, and goes on until
something closes it. -/
theorem commentCut_of_mem_commentsFrom {cs : List Char} {offset : Nat} {span : Span}
    (hr : ∀ start, r = .line start → rules.lineMarks ≠ [])
    (h : span ∈ commentsFrom rules r offset cs) : CommentCut rules r offset cs span := by
  induction cs generalizing r offset with
  | nil =>
    have hchars : ([] : List Char) = [] ++ [] := rfl
    refine .before ?_ hchars ?_ (Or.inl rfl) <;>
      cases r <;> simp_all [commentsFrom, CommentReading.unfinished, CommentReading.openStart?]
  | cons c cs ih =>
    simp only [commentsFrom] at h
    rcases List.mem_append.mp h with hfound | hlater
    · exact commentCut_of_mem_step hr hfound
    · exact (ih (fun start => CommentReading.lineMarks_of_step hr) hlater).of_step

end Order

namespace SourceText

variable {s : SourceText}

theorem inComment_iff {offset : Nat} :
    s.inComment offset = true ↔ ∃ span ∈ s.comments, span.covers offset = true := by
  rw [inComment, commentEnd?, Option.isSome_map, List.find?_isSome]

/-- Each comment starts behind the one before it. -/
theorem pairwise_comments (s : SourceText) :
    s.comments.Pairwise (fun a b => a.stop ≤ b.start) := by
  rw [s.comments_eq]
  exact (pairwise_commentsFrom (by simp [CommentReading.openStart?])).1

theorem start_lt_stop {span : Span} (h : span ∈ s.comments) : span.start < span.stop := by
  rw [s.comments_eq] at h
  exact ((pairwise_commentsFrom (by simp [CommentReading.openStart?])).2 span h).2

/-- The text of a comment, with what stands before and behind it. -/
theorem exists_cut_of_mem_comments {span : Span} (h : span ∈ s.comments) :
    ∃ front inner back, s.chars = front ++ (inner ++ back) ∧ byteLength front = span.start ∧
      span.stop = span.start + byteLength inner ∧ s.rules.Opens (inner ++ back) ∧
      s.rules.Closes inner back := by
  rw [s.comments_eq] at h
  rcases commentCut_of_mem_commentsFrom (by simp) h with
    ⟨hopen, -⟩ | ⟨hchars, hstart, hstop, hopens, hcloses⟩
  · cases hopen
  · exact ⟨_, _, _, hchars, by rw [hstart, Nat.zero_add], hstop, hopens, hcloses⟩

/-- A comment starts with a character that is no white space. -/
theorem exists_start_of_mem_comments (hrules : s.rules.Usual) {span : Span}
    (h : span ∈ s.comments) :
    ∃ pre c post, s.chars = pre ++ c :: post ∧ byteLength pre = span.start ∧
      isBlank c = false := by
  obtain ⟨front, inner, back, hchars, hstart, -, hopens, -⟩ := exists_cut_of_mem_comments h
  obtain ⟨c, rest, hrest, hc⟩ := hopens.exists_cons hrules
  exact ⟨front, c, rest, by rw [hchars, hrest], hstart, hc⟩

/-- A comment ends between two characters. -/
theorem onBoundary_stop {span : Span} (h : span ∈ s.comments) :
    onBoundary span.stop s.chars = true := by
  obtain ⟨front, inner, back, hchars, hstart, hstop, -⟩ := exists_cut_of_mem_comments h
  rw [hstop, ← hstart, ← byteLength_append, hchars, ← List.append_assoc]
  exact onBoundary_byteLength _ _

/-- Where lines end no comment, a comment ends behind a slash or with the text. -/
theorem exists_stop_of_mem_comments (hmarks : s.rules.lineMarks = []) {span : Span}
    (h : span ∈ s.comments) :
    ∃ pre post, s.chars = pre ++ post ∧ byteLength pre = span.stop ∧
      (post = [] ∨ pre.getLast? = some '/') := by
  obtain ⟨front, inner, back, hchars, hstart, hstop, -, hcloses⟩ := exists_cut_of_mem_comments h
  refine ⟨front ++ inner, back, by rw [hchars, List.append_assoc], ?_, ?_⟩
  · rw [byteLength_append, hstart, hstop]
  · rcases hcloses with hback | ⟨lead, rfl⟩ | ⟨hne, -⟩
    · exact Or.inl hback
    · right
      simp [List.getLast?_append]
    · exact absurd hmarks hne

end SourceText

section Code

theorem mem_commentsAhead {offset : Nat} {comments : List Span} {span : Span}
    (h : span ∈ comments) (hstop : offset < span.stop) : span ∈ commentsAhead offset comments := by
  induction comments with
  | nil => cases h
  | cons first rest ih =>
    unfold commentsAhead
    rw [List.dropWhile_cons]
    split
    · next hpast =>
      rcases List.mem_cons.mp h with rfl | h
      · exact absurd hstop (Nat.not_lt.mpr (of_decide_eq_true hpast))
      · exact ih h
    · exact h

theorem lt_stop_of_commentsAhead {offset : Nat} {comments rest : List Span} {first : Span}
    (h : commentsAhead offset comments = first :: rest) : offset < first.stop := by
  have hnot := List.head?_dropWhile_not (fun span : Span => decide (span.stop ≤ offset)) comments
  rw [← commentsAhead, h] at hnot
  simpa using hnot

/-- What is read as code is read as after code. -/
theorem isCode_fresh_of_isCode_step {quotes : List Char} {comments : List Span} {offset : Nat}
    {c : Char} {reading : CodeReading} (h : (reading.step quotes comments offset c).isCode = true) :
    (CodeReading.fresh quotes comments offset c).isCode = true := by
  cases reading with
  | code | closed => exact h
  | escaped quote => cases h
  | literal quote =>
    simp only [CodeReading.step] at h
    split at h
    · cases h
    · split at h
      · cases h
      · split at h
        · exact h
        · cases h
  | comment stop =>
    simp only [CodeReading.step] at h
    split at h
    · cases h
    · exact h

/-- The comment that covers a byte is the first that ends behind it. -/
theorem head?_commentsAhead_of_covers {offset : Nat} {comments : List Span} {span : Span}
    (hsorted : comments.Pairwise (fun a b => a.stop ≤ b.start)) (hspan : span ∈ comments)
    (hcovers : span.covers offset = true) : (commentsAhead offset comments).head? = some span := by
  simp only [Span.covers, Bool.and_eq_true, decide_eq_true_eq] at hcovers
  have hahead := mem_commentsAhead hspan hcovers.2
  have hsub : (commentsAhead offset comments).Pairwise (fun a b => a.stop ≤ b.start) :=
    hsorted.sublist (List.dropWhile_sublist _)
  cases hcomments : commentsAhead offset comments with
  | nil =>
    rw [hcomments] at hahead
    cases hahead
  | cons first rest =>
    have hfirst := lt_stop_of_commentsAhead hcomments
    rw [hcomments] at hahead hsub
    rcases List.mem_cons.mp hahead with rfl | hrest
    · rfl
    · have hbehind := (List.pairwise_cons.mp hsub).1 span hrest
      omega

/-- The first comment ahead is the one that covers the byte, if any does. -/
theorem filter_head?_commentsAhead {comments : List Span}
    (hsorted : comments.Pairwise (fun a b => a.stop ≤ b.start)) (offset : Nat) :
    (commentsAhead offset comments).head?.filter (·.covers offset) =
      comments.find? (·.covers offset) := by
  cases hfound : comments.find? (·.covers offset) with
  | some span =>
    have hcovers := List.find?_some (p := fun s : Span => s.covers offset) hfound
    rw [head?_commentsAhead_of_covers hsorted (List.mem_of_find?_eq_some hfound) hcovers,
      Option.filter_some, if_pos hcovers]
  | none =>
    rw [Option.filter_eq_none_iff]
    intro span hspan
    have hmem : span ∈ comments := (List.dropWhile_suffix _).mem (List.mem_of_head? hspan)
    exact List.find?_eq_none.mp hfound span hmem

/-- A character is read as code only where no comment covers it. -/
theorem covers_of_isCode_step {quotes : List Char} {comments : List Span} {offset : Nat} {c : Char}
    {reading : CodeReading} (hsorted : comments.Pairwise (fun a b => a.stop ≤ b.start))
    (h : (reading.step quotes (commentsAhead offset comments) offset c).isCode = true) :
    ∀ span ∈ comments, span.covers offset = false := by
  have hfresh := isCode_fresh_of_isCode_step h
  rw [CodeReading.fresh, filter_head?_commentsAhead hsorted] at hfresh
  cases hfound : comments.find? (·.covers offset) with
  | some span =>
    rw [hfound] at hfresh
    cases hfresh
  | none => exact fun span hspan => Bool.eq_false_iff.mpr (List.find?_eq_none.mp hfound span hspan)

/-- No comment ahead covers a code character. -/
theorem covers_of_mem_codeIn {quotes : List Char} {reading : CodeReading} {comments : List Span}
    {offset : Nat} {cs : List Char} {c : CodeChar}
    (hsorted : comments.Pairwise (fun a b => a.stop ≤ b.start))
    (h : c ∈ codeIn quotes reading comments offset cs) :
    ∀ span ∈ comments, span.covers c.offset = false := by
  induction cs generalizing reading comments offset with
  | nil => cases h
  | cons a cs ih =>
    have hlater : ∀ {reading : CodeReading},
        c ∈ codeIn quotes reading (commentsAhead offset comments) (offset + a.utf8Size) cs →
        ∀ span ∈ comments, span.covers c.offset = false := by
      intro reading h span hspan
      by_cases hstop : offset < span.stop
      · exact ih (hsorted.sublist (List.dropWhile_sublist _)) h span (mem_commentsAhead hspan hstop)
      · obtain ⟨pre, post, -, hoffset⟩ := mem_codeIn h
        simp only [Span.covers, Bool.and_eq_false_iff, decide_eq_false_iff_not]
        omega
    simp only [codeIn] at h
    split at h
    · next hcode =>
      rcases List.mem_cons.mp h with rfl | h
      · exact covers_of_isCode_step hsorted hcode
      · exact hlater h
    · exact hlater h

/-- No comment covers a code character. -/
theorem covers_of_mem_codeFrom {s : SourceText} {offset : Nat} {c : CodeChar}
    (h : c ∈ s.codeFrom offset) : ∀ span ∈ s.comments, span.covers c.offset = false :=
  covers_of_mem_codeIn s.pairwise_comments h

end Code

end Concordance
