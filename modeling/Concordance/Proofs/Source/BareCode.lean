import Concordance.Language
import Concordance.Proofs.Text.Trim

/-!
The code of a text: what is left without its comments and without white space.

It is defined by the spans that the reading for comments finds, and then read off the states of that
reading, which know nothing of offsets. Main statements: `bareCode_eq_codeFrom` (the two agree) and
`codeFrom_append` (at the end of a line the reading can be cut).
-/

namespace Concordance

open Text

/-- The characters that no span covers and that are no white space; the first stands at `offset`. -/
def uncovered (spans : List Span) : Nat → List Char → List Char
  | _, [] => []
  | offset, c :: cs =>
    (if isBlank c || spans.any (·.covers offset) then [] else [c]) ++
      uncovered spans (offset + c.utf8Size) cs

/-- The text without its comments and without white space. -/
def bareCode (rules : LexicalRules) (text : List Char) : List Char :=
  uncovered (commentSpans rules text) 0 text

namespace CommentReading

/-- Where the open comment starts. -/
def openStart? : CommentReading → Option Nat
  | .opening start => some start
  | .block start _ => some start
  | .line start => some start
  | _ => none

/-- The reading with its comment taken to start at zero. -/
def forget : CommentReading → CommentReading
  | .opening _ => .opening 0
  | .block _ star => .block 0 star
  | .line _ => .line 0
  | other => other

/-- The reading stands in a block comment behind its opening. -/
def inBlock : CommentReading → Bool
  | .block _ _ => true
  | _ => false

/-- The reading after a character that stands before `rest`. -/
def next (rules : LexicalRules) (c : Char) (rest : List Char) (r : CommentReading) :
    CommentReading :=
  (r.step rules 0 c rest).2

/-- The character read belongs to a comment. -/
def hides (rules : LexicalRules) (c : Char) (rest : List Char) (r : CommentReading) : Bool :=
  r.inBlock || (r.next rules c rest).openStart?.isSome

end CommentReading

/-- The code met from a reading on. -/
def codeFrom (rules : LexicalRules) : CommentReading → List Char → List Char
  | _, [] => []
  | r, c :: cs =>
    (if isBlank c || r.hides rules c cs then [] else [c]) ++ codeFrom rules (r.next rules c cs) cs

/-- The reading after a text. -/
def readThrough (rules : LexicalRules) : CommentReading → List Char → CommentReading
  | r, [] => r
  | r, c :: cs => readThrough rules (r.next rules c cs) cs

section Spans

variable {rules : LexicalRules} {r : CommentReading} {c : Char} {rest : List Char}

namespace CommentReading

theorem forget_afterCode (offset : Nat) :
    (afterCode rules offset c rest).forget = afterCode rules 0 c rest := by
  unfold afterCode
  split
  · rfl
  · split
    · rfl
    · split <;> rfl

/-- Offsets do not steer the reading. -/
theorem forget_step (offset : Nat) :
    (r.step rules offset c rest).2.forget = r.forget.next rules c rest := by
  cases r with
  | code => exact forget_afterCode offset
  | escaped quote => rfl
  | literal quote =>
    show (step rules offset c rest (.literal quote)).2.forget =
      (step rules 0 c rest (.literal quote)).2
    simp only [step]
    by_cases hback : c = '\\'
    · rw [if_pos hback, if_pos hback]
      rfl
    · rw [if_neg hback, if_neg hback]
      by_cases hquote : c = quote
      · rw [if_pos hquote, if_pos hquote]
        rfl
      · rw [if_neg hquote, if_neg hquote]
        split
        · exact forget_afterCode offset
        · rfl
  | opening start => rfl
  | block start star =>
    show (step rules offset c rest (.block start star)).2.forget =
      (step rules 0 c rest (.block 0 star)).2
    simp only [step]
    split <;> rfl
  | line start =>
    show (step rules offset c rest (.line start)).2.forget = (step rules 0 c rest (.line 0)).2
    simp only [step]
    split
    · exact forget_afterCode offset
    · rfl

theorem openStart?_afterCode (rules : LexicalRules) (offset : Nat) (c : Char) (rest : List Char) :
    (afterCode rules offset c rest).openStart? = none ∨
      (afterCode rules offset c rest).openStart? = some offset := by
  unfold afterCode
  split
  · exact Or.inl rfl
  · split
    · exact Or.inr rfl
    · split
      · exact Or.inr rfl
      · exact Or.inl rfl

/-- What a character does: it leaves the comment as it is, opens one, ends a block comment, or
comes right behind a comment that ends with its line. -/
theorem step_cases (rules : LexicalRules) (offset : Nat) (c : Char) (rest : List Char)
    (r : CommentReading) :
    ((r.step rules offset c rest).1 = [] ∧
      (r.step rules offset c rest).2.openStart? = r.openStart?) ∨
    ((r.step rules offset c rest).1 = [] ∧ r.openStart? = none ∧
      (r.step rules offset c rest).2.openStart? = some offset) ∨
    (∃ start, r.inBlock = true ∧ r.openStart? = some start ∧ c = '/' ∧
      (r.step rules offset c rest).1 = [⟨start, offset + 1⟩] ∧
      (r.step rules offset c rest).2.openStart? = none) ∨
    (∃ start, r.inBlock = false ∧ r.openStart? = some start ∧
      (r.step rules offset c rest).1 = [⟨start, offset⟩] ∧
      ((r.step rules offset c rest).2.openStart? = none ∨
        (r.step rules offset c rest).2.openStart? = some offset)) := by
  have hafter := openStart?_afterCode rules offset c rest
  cases r with
  | code =>
    rcases hafter with h | h
    · exact Or.inl ⟨rfl, h⟩
    · exact Or.inr (Or.inl ⟨rfl, rfl, h⟩)
  | escaped quote => exact Or.inl ⟨rfl, rfl⟩
  | literal quote =>
    simp only [step]
    split
    · exact Or.inl ⟨rfl, rfl⟩
    · split
      · exact Or.inl ⟨rfl, rfl⟩
      · split
        · rcases hafter with h | h
          · exact Or.inl ⟨rfl, h⟩
          · exact Or.inr (Or.inl ⟨rfl, rfl, h⟩)
        · exact Or.inl ⟨rfl, rfl⟩
  | opening start => exact Or.inl ⟨rfl, rfl⟩
  | block start star =>
    simp only [step]
    split
    · next hclose =>
      simp only [Bool.and_eq_true, beq_iff_eq] at hclose
      exact Or.inr (Or.inr (Or.inl ⟨start, rfl, rfl, hclose.2, rfl, rfl⟩))
    · exact Or.inl ⟨rfl, rfl⟩
  | line start =>
    simp only [step]
    split
    · exact Or.inr (Or.inr (Or.inr ⟨start, rfl, rfl, rfl, hafter⟩))
    · exact Or.inl ⟨rfl, rfl⟩

/-- A comment that is open after a character was open before or starts at it. -/
theorem openStart?_step (rules : LexicalRules) {offset : Nat} (c : Char) (rest : List Char)
    (hr : ∀ s ∈ r.openStart?, s ≤ offset) :
    ∀ s ∈ (r.step rules offset c rest).2.openStart?, s ≤ offset := by
  intro s hs
  rcases step_cases rules offset c rest r with
    ⟨-, h⟩ | ⟨-, -, h⟩ | ⟨_, -, -, -, -, h⟩ | ⟨_, -, -, -, h | h⟩
  all_goals
    rw [h] at hs
    first
      | exact hr s hs
      | simp_all

end CommentReading

/-- What stands before the offset is covered by the comments met from there on exactly if the open
comment reaches back to it. -/
theorem covers_commentsFrom_iff {cs : List Char} {offset o : Nat} (ho : o < offset)
    (hr : ∀ s ∈ r.openStart?, s ≤ offset) :
    (commentsFrom rules r offset cs).any (·.covers o) = true ↔ ∃ s ∈ r.openStart?, s ≤ o := by
  induction cs generalizing r offset with
  | nil =>
    cases r <;> simp [commentsFrom, CommentReading.unfinished, CommentReading.openStart?,
      Span.covers, ho]
  | cons c cs ih =>
    have hstart := CommentReading.openStart?_step rules c cs hr
    have hlater := ih (Nat.lt_of_lt_of_le ho (Nat.le_add_right offset c.utf8Size))
      fun s hs => Nat.le_trans (hstart s hs) (Nat.le_add_right offset c.utf8Size)
    simp only [commentsFrom, List.any_append, Bool.or_eq_true, hlater]
    rcases CommentReading.step_cases rules offset c cs r with
      ⟨hfound, hopen⟩ | ⟨hfound, hbefore, hopen⟩ | ⟨start, -, hbefore, -, hfound, hopen⟩ |
      ⟨start, -, hbefore, hfound, hopen⟩
    · simp [hfound, hopen]
    · simp [hfound, hbefore, hopen, ho]
    · simp [hfound, hbefore, hopen, Span.covers]
      omega
    · rcases hopen with hopen | hopen
      · simp [hfound, hbefore, hopen, Span.covers, ho]
      · simp [hfound, hbefore, hopen, Span.covers, ho, Nat.not_le.mpr ho]

theorem uncovered_congr {spans spans' : List Span} {offset : Nat} {cs : List Char}
    (h : ∀ o, offset ≤ o → spans.any (·.covers o) = spans'.any (·.covers o)) :
    uncovered spans offset cs = uncovered spans' offset cs := by
  induction cs generalizing offset with
  | nil => rfl
  | cons c cs ih =>
    rw [uncovered, uncovered, h offset (Nat.le_refl _),
      ih fun o ho => h o (Nat.le_trans (Nat.le_add_right _ _) ho)]

theorem openStart?_forget (r : CommentReading) :
    r.forget.openStart?.isSome = r.openStart?.isSome := by
  cases r <;> rfl

theorem inBlock_forget (r : CommentReading) : r.forget.inBlock = r.inBlock := by
  cases r <;> rfl

/-- A comment covers a character exactly if the reading hides it. -/
theorem covers_offset_eq_hides {cs : List Char} {offset : Nat}
    (hr : ∀ s ∈ r.openStart?, s ≤ offset) :
    (commentsFrom rules r offset (c :: cs)).any (·.covers offset) = r.forget.hides rules c cs := by
  have hstart := CommentReading.openStart?_step rules c cs hr
  have hlater : (commentsFrom rules (r.step rules offset c cs).2 (offset + c.utf8Size) cs).any
      (·.covers offset) = (r.step rules offset c cs).2.openStart?.isSome := by
    rw [Bool.eq_iff_iff, covers_commentsFrom_iff (Nat.lt_add_of_pos_right c.utf8Size_pos)
      fun s hs => Nat.le_trans (hstart s hs) (Nat.le_add_right _ _), Option.isSome_iff_exists]
    exact ⟨fun ⟨s, hs, _⟩ => ⟨s, hs⟩, fun ⟨s, hs⟩ => ⟨s, hs, hstart s hs⟩⟩
  have hhides : r.forget.hides rules c cs =
      (r.inBlock || (r.step rules offset c cs).2.openStart?.isSome) := by
    rw [CommentReading.hides, ← CommentReading.forget_step offset, openStart?_forget,
      inBlock_forget]
  rw [hhides]
  simp only [commentsFrom, List.any_append, hlater]
  rcases CommentReading.step_cases rules offset c cs r with
    ⟨hfound, hopen⟩ | ⟨hfound, hbefore, hopen⟩ | ⟨start, hblock, hbefore, -, hfound, hopen⟩ |
    ⟨start, hblock, hbefore, hfound, hopen⟩
  · rw [hfound, hopen]
    cases r <;> rfl
  · rw [hfound, hopen]
    simp
  · have hle : start ≤ offset := hr start hbefore
    simp [hfound, hopen, hblock, Span.covers, hle]
  · simp [hfound, hblock, Span.covers]

/-- What the spans leave is what the reading calls code. -/
theorem uncovered_commentsFrom {cs : List Char} {offset : Nat}
    (hr : ∀ s ∈ r.openStart?, s ≤ offset) :
    uncovered (commentsFrom rules r offset cs) offset cs = codeFrom rules r.forget cs := by
  induction cs generalizing r offset with
  | nil => rfl
  | cons c cs ih =>
    have hstart := CommentReading.openStart?_step rules c cs hr
    have hlater := ih fun s hs => Nat.le_trans (hstart s hs) (Nat.le_add_right offset c.utf8Size)
    -- the comment that ends here covers nothing that is still to come
    have hfound : ∀ o, offset + c.utf8Size ≤ o →
        (commentsFrom rules r offset (c :: cs)).any (·.covers o) =
          (commentsFrom rules (r.step rules offset c cs).2 (offset + c.utf8Size) cs).any
            (·.covers o) := by
      intro o ho
      have hpast : (r.step rules offset c cs).1.any (·.covers o) = false := by
        rcases CommentReading.step_cases rules offset c cs r with
          ⟨hfound, -⟩ | ⟨hfound, -⟩ | ⟨start, -, -, rfl, hfound, -⟩ | ⟨start, -, -, hfound, -⟩
        · rw [hfound]
          rfl
        · rw [hfound]
          rfl
        · have hsize : '/'.utf8Size = 1 := by decide
          simp only [hfound, List.any_cons, List.any_nil, Bool.or_false, Span.covers,
            Bool.and_eq_false_iff, decide_eq_false_iff_not]
          omega
        · have hpos := c.utf8Size_pos
          simp only [hfound, List.any_cons, List.any_nil, Bool.or_false, Span.covers,
            Bool.and_eq_false_iff, decide_eq_false_iff_not]
          omega
      simp only [commentsFrom, List.any_append, hpast, Bool.false_or]
    rw [uncovered, covers_offset_eq_hides hr, uncovered_congr hfound, hlater, codeFrom,
      CommentReading.forget_step]

/-- The code of a text is the code that its reading meets. -/
theorem bareCode_eq_codeFrom (rules : LexicalRules) (text : List Char) :
    bareCode rules text = codeFrom rules .code text :=
  uncovered_commentsFrom (r := .code) (by simp [CommentReading.openStart?])

end Spans

section Cut

variable {rules : LexicalRules}

/-- What the reading of a text relies on: no white space in the marks and quotes, and no slash among
the quotes. -/
structure LexicalRules.Usual (rules : LexicalRules) : Prop where
  marks : ∀ mark ∈ rules.lineMarks, mark ≠ [] ∧ ∀ c ∈ mark, isBlank c = false
  quotes : ∀ q ∈ rules.quotes, isBlank q = false ∧ q ≠ '/'

theorem usual_lexicalRules (language : Language) : language.lexicalRules.Usual := by
  have hmarks : isBlank '/' = false ∧ isBlank '#' = false := by decide
  have hquotes : isBlank '\'' = false ∧ isBlank '"' = false ∧ isBlank '`' = false := by decide
  cases language <;> constructor <;> simp [Language.lexicalRules, hmarks, hquotes]

/-- The text is made of whole lines. -/
def WholeLines (text : List Char) : Prop :=
  text = [] ∨ text.getLast? = some '\n'

theorem WholeLines.tail {c : Char} {cs : List Char} (h : (c :: cs).getLast? = some '\n') :
    WholeLines cs := by
  cases cs with
  | nil => exact Or.inl rfl
  | cons d ds => exact Or.inr (by simpa using h)

theorem WholeLines.suffix {text rest : List Char} (h : WholeLines text) (hrest : rest <:+ text) :
    WholeLines rest := by
  obtain ⟨lead, rfl⟩ := hrest
  by_cases hnil : rest = []
  · exact Or.inl hnil
  · right
    rw [← List.getLast?_append_of_ne_nil lead hnil]
    exact h.resolve_left (by simp [hnil])

theorem isPrefixOf_append_newline {mark : List Char} (h : '\n' ∉ mark) (front back : List Char) :
    mark.isPrefixOf (front ++ '\n' :: back) = mark.isPrefixOf (front ++ ['\n']) := by
  induction mark generalizing front with
  | nil => simp
  | cons m mark ih =>
    simp only [List.mem_cons, not_or] at h
    cases front with
    | nil =>
      have hm : (m == '\n') = false := by simpa using Ne.symm h.1
      simp [List.isPrefixOf, hm]
    | cons f front => simp [List.isPrefixOf, ih h.2]

namespace CommentReading

/-- Up to the end of a line the reading does not depend on what follows the line. -/
theorem step_append (hrules : rules.Usual) (r : CommentReading) (offset : Nat) {c : Char}
    {cs : List Char} (h : (c :: cs).getLast? = some '\n') (back : List Char) :
    r.step rules offset c (cs ++ back) = r.step rules offset c cs := by
  obtain ⟨front, hfront⟩ := List.getLast?_eq_some_iff.mp h
  have hmarks : rules.lineMarks.any (·.isPrefixOf (c :: (cs ++ back))) =
      rules.lineMarks.any (·.isPrefixOf (c :: cs)) := by
    rw [Bool.eq_iff_iff, List.any_eq_true, List.any_eq_true]
    refine exists_congr fun mark => and_congr_right fun hmark => ?_
    have hnewline : '\n' ∉ mark := fun hmem =>
      absurd ((hrules.marks mark hmark).2 '\n' hmem) (by decide)
    rw [← List.cons_append, hfront, List.append_assoc]
    exact Bool.eq_iff_iff.mp (isPrefixOf_append_newline hnewline front back)
  have hslash : c = '/' ∧ (cs ++ back).head? = some '*' ↔ c = '/' ∧ cs.head? = some '*' := by
    refine and_congr_right fun hc => ?_
    cases cs with
    | nil =>
      subst hc
      simp at h
    | cons d ds => rfl
  have hafter : afterCode rules offset c (cs ++ back) = afterCode rules offset c cs := by
    simp only [afterCode, hmarks, hslash]
  cases r <;> simp only [step, hafter]

theorem next_append (hrules : rules.Usual) (r : CommentReading) {c : Char} {cs : List Char}
    (h : (c :: cs).getLast? = some '\n') (back : List Char) :
    r.next rules c (cs ++ back) = r.next rules c cs :=
  congrArg Prod.snd (r.step_append hrules 0 h back)

end CommentReading

/-- At the end of a line the code can be cut. -/
theorem codeFrom_append (hrules : rules.Usual) {front : List Char} (h : WholeLines front)
    (r : CommentReading) (back : List Char) :
    codeFrom rules r (front ++ back) =
      codeFrom rules r front ++ codeFrom rules (readThrough rules r front) back := by
  induction front generalizing r with
  | nil => rfl
  | cons c cs ih =>
    have hlast : (c :: cs).getLast? = some '\n' := h.resolve_left (by simp)
    have hnext := r.next_append hrules hlast back
    rw [List.cons_append, codeFrom, codeFrom, CommentReading.hides, CommentReading.hides, hnext,
      ih (WholeLines.tail hlast), List.append_assoc]
    rfl

/-- At the end of a line the reading for comments can be cut. -/
theorem readThrough_append (hrules : rules.Usual) {front : List Char} (h : WholeLines front)
    (r : CommentReading) (back : List Char) :
    readThrough rules r (front ++ back) = readThrough rules (readThrough rules r front) back := by
  induction front generalizing r with
  | nil => rfl
  | cons c cs ih =>
    have hlast : (c :: cs).getLast? = some '\n' := h.resolve_left (by simp)
    rw [List.cons_append, readThrough, readThrough, r.next_append hrules hlast back,
      ih (WholeLines.tail hlast)]

end Cut

section Comment

variable {rules : LexicalRules}

/-- White space in code changes nothing. -/
theorem code_blank (hrules : rules.Usual) {cs : List Char} (h : AllBlank cs)
    (back : List Char) :
    codeFrom rules .code (cs ++ back) = codeFrom rules .code back ∧
      readThrough rules .code (cs ++ back) = readThrough rules .code back := by
  induction cs with
  | nil => exact ⟨rfl, rfl⟩
  | cons c cs ih =>
    obtain ⟨hcode, hread⟩ := ih fun d hd => h d (List.mem_cons_of_mem c hd)
    have hc := h c List.mem_cons_self
    have hnext : CommentReading.next rules c (cs ++ back) .code = .code := by
      have hquote : rules.quotes.contains c = false := by
        rw [List.contains_eq_mem, decide_eq_false_iff_not]
        intro hmem
        rw [(hrules.quotes c hmem).1] at hc
        cases hc
      have hslash : ¬ (c = '/' ∧ (cs ++ back).head? = some '*') := by
        rintro ⟨rfl, -⟩
        exact absurd hc (by decide)
      have hmark : rules.lineMarks.any (·.isPrefixOf (c :: (cs ++ back))) = false := by
        rw [List.any_eq_false]
        intro mark hmark hpre
        obtain ⟨hne, hchars⟩ := hrules.marks mark hmark
        obtain ⟨d, ds, rfl⟩ := List.exists_cons_of_ne_nil hne
        have hd := hchars d List.mem_cons_self
        rw [(List.cons_prefix_cons.mp (List.isPrefixOf_iff_prefix.mp hpre)).1, hc] at hd
        cases hd
      show CommentReading.afterCode rules 0 c (cs ++ back) = .code
      simp only [CommentReading.afterCode, hquote, hslash, hmark, Bool.false_eq_true, ↓reduceIte]
    rw [List.cons_append, codeFrom, readThrough, hnext, hc]
    exact ⟨hcode, hread⟩

/-- Within a block comment, a text that does not end it is hidden whole. -/
theorem block_closeless (rules : LexicalRules) {cs : List Char} (star : Bool)
    (h : ¬ "*/".toList <:+: (if star then ['*'] else []) ++ cs) (back : List Char) :
    ∃ star', (star' = true ↔ ((if star then ['*'] else []) ++ cs).getLast? = some '*') ∧
      codeFrom rules (.block 0 star) (cs ++ back) = codeFrom rules (.block 0 star') back ∧
      readThrough rules (.block 0 star) (cs ++ back) = readThrough rules (.block 0 star') back := by
  induction cs generalizing star with
  | nil => exact ⟨star, by cases star <;> simp, rfl, rfl⟩
  | cons c cs ih =>
    have hopen : (star && c == '/') = false := by
      rw [Bool.eq_false_iff]
      intro hclose
      simp only [Bool.and_eq_true, beq_iff_eq] at hclose
      obtain ⟨rfl, rfl⟩ := hclose
      exact h ⟨[], cs, rfl⟩
    have hnext : ∀ rest, CommentReading.next rules c rest (.block 0 star) =
        .block 0 (c == '*') := by
      intro rest
      simp [CommentReading.next, CommentReading.step, hopen]
    have hpart : (if (c == '*') = true then ['*'] else []) ++ cs <:+: c :: cs := by
      split
      · next hstar =>
        obtain rfl : c = '*' := by simpa using hstar
        exact List.infix_rfl
      · exact (List.suffix_cons c cs).isInfix
    have hrest : c :: cs <:+: (if star then ['*'] else []) ++ c :: cs :=
      (List.suffix_append _ _).isInfix
    obtain ⟨star', hstar', hcode, hread⟩ := ih (c == '*') fun hmark =>
      h (hmark.trans (hpart.trans hrest))
    refine ⟨star', ?_, ?_, ?_⟩
    · rw [hstar', List.getLast?_append_of_ne_nil _ (List.cons_ne_nil c cs)]
      cases cs with
      | nil => by_cases hc : c = '*' <;> simp [hc]
      | cons d ds =>
        rw [List.getLast?_append_of_ne_nil _ (List.cons_ne_nil d ds), List.getLast?_cons_cons]
    · rw [List.cons_append, codeFrom, CommentReading.hides, hnext]
      simpa [CommentReading.inBlock] using hcode
    · rw [List.cons_append, readThrough, hnext]
      exact hread

/-- A block comment between white space: all of it is hidden, and code follows. -/
theorem code_comment (hrules : rules.Usual) {indent inner lineEnd : List Char}
    (hindent : AllBlank indent) (hend : AllBlank lineEnd)
    (hinner : ¬ "*/".toList <:+: inner) (hstar : inner.getLast? = some '*') :
    codeFrom rules .code (indent ++ ("/*".toList ++ inner ++ "/".toList) ++ lineEnd) = [] ∧
      readThrough rules .code (indent ++ ("/*".toList ++ inner ++ "/".toList) ++ lineEnd) =
        .code := by
  obtain ⟨star, hlast, hcode, hread⟩ := block_closeless rules false (by simpa using hinner)
    ('/' :: lineEnd)
  obtain rfl : star = true := hlast.mpr (by simpa using hstar)
  obtain ⟨hcode', hread'⟩ := code_blank hrules hindent
    (("/*".toList ++ inner ++ "/".toList) ++ lineEnd)
  have hshape : ("/*".toList ++ inner ++ "/".toList) ++ lineEnd =
      '/' :: '*' :: (inner ++ '/' :: lineEnd) := by
    simp
  have hquote : '/' ∉ rules.quotes := fun hmem => (hrules.quotes '/' hmem).2 rfl
  have hopening : CommentReading.next rules '/' ('*' :: (inner ++ '/' :: lineEnd)) .code =
      .opening 0 := by
    show CommentReading.afterCode rules 0 '/' _ = _
    simp [CommentReading.afterCode, hquote]
  have hblock : CommentReading.next rules '*' (inner ++ '/' :: lineEnd) (.opening 0) =
      .block 0 false := rfl
  have hclosing : CommentReading.next rules '/' lineEnd (.block 0 true) = .code := rfl
  obtain ⟨hcodeEnd, hreadEnd⟩ := code_blank hrules hend []
  rw [List.append_nil] at hcodeEnd hreadEnd
  rw [List.append_assoc, hcode', hread', hshape]
  constructor
  · rw [codeFrom, codeFrom, CommentReading.hides, CommentReading.hides, hopening, hblock, hcode,
      codeFrom, CommentReading.hides, hclosing, hcodeEnd]
    rfl
  · rw [readThrough, readThrough, hopening, hblock, hread, readThrough, hclosing, hreadEnd]
    rfl

end Comment

end Concordance
