import Concordance.Proofs.Pattern.Division
import Concordance.Proofs.Source.Spans

/-!
The code characters of a text, read off the states of the reading for comments.

The reading for code is given the comments and passes over them; the reading for comments knows where
literals and comments begin. From a place outside literals the two go together: a character is code
exactly if the reading for comments shows it.

Main statements: `codeIn_eq_codeChars` (the two readings agree), `codeFrom_eq_filter` (read from a
place outside literals, the code is what is left of the code of the whole text), `codeChars_append` and
`commentsFrom_append` (at the end of a line that ends in code, code characters and comments can be cut).
-/

namespace Concordance

open Text

namespace CommentReading

/-- The character read is code. -/
def shows (rules : LexicalRules) (c : Char) (rest : List Char) (r : CommentReading) : Bool :=
  r.next rules c rest == .code && !r.inBlock && r != .literal c

/-- The reading stands in a literal. -/
def inLiteral : CommentReading → Bool
  | .literal _ => true
  | .escaped _ => true
  | _ => false

end CommentReading

theorem CommentReading.shows_eq {rules : LexicalRules} {c : Char} {rest : List Char}
    {r : CommentReading} (hblock : r.inBlock = false) (hne : r ≠ .literal c) :
    r.shows rules c rest = (r.next rules c rest == .code) := by
  simp [shows, hblock, hne]

/-- The code characters met from a reading on. -/
def codeChars (rules : LexicalRules) : CommentReading → Nat → List Char → List CodeChar
  | _, _, [] => []
  | r, offset, c :: cs =>
    (if r.shows rules c cs then [⟨offset, c⟩] else []) ++
      codeChars rules (r.next rules c cs) (offset + c.utf8Size) cs

section Agreement

variable {rules : LexicalRules} {r : CommentReading} {offset : Nat} {c : Char} {cs : List Char}
  {spans : List Span} {reading : CodeReading}

theorem CommentReading.afterCode_beq_code (rules : LexicalRules) (offset : Nat) (c : Char)
    (cs : List Char) :
    (CommentReading.afterCode rules 0 c cs == .code) =
      (CommentReading.afterCode rules offset c cs == .code) := by
  unfold CommentReading.afterCode
  split
  · rfl
  · split
    · rfl
    · split <;> rfl

/-- The comment that is open comes first, and it reaches at least as far as the reading. -/
theorem exists_head_commentsFrom (rules : LexicalRules) {start : Nat}
    (hr : r.openStart? = some start) (offset : Nat) (cs : List Char) :
    ∃ span, (commentsFrom rules r offset cs).head? = some span ∧ span.start = start ∧
      offset ≤ span.stop := by
  induction cs generalizing r offset with
  | nil => cases r <;> simp_all [commentsFrom, CommentReading.unfinished, CommentReading.openStart?]
  | cons c cs ih =>
    rw [commentsFrom]
    rcases CommentReading.step_cases rules offset c cs r with
      ⟨hfound, hopen⟩ | ⟨-, hnone, -⟩ | ⟨start', -, hbefore, -, hfound, -⟩ |
      ⟨start', -, hbefore, hfound, -⟩
    · obtain ⟨span, hhead, hstart, hle⟩ := ih (hopen.trans hr) (offset + c.utf8Size)
      exact ⟨span, by simpa [hfound] using hhead, hstart, by omega⟩
    · rw [hr] at hnone
      cases hnone
    · obtain rfl : start' = start := Option.some.inj (hbefore.symm.trans hr)
      exact ⟨⟨start', offset + 1⟩, by simp [hfound], rfl, Nat.le_add_right _ _⟩
    · obtain rfl : start' = start := Option.some.inj (hbefore.symm.trans hr)
      exact ⟨⟨start', offset⟩, by simp [hfound], rfl, Nat.le_refl _⟩

theorem commentsFrom_cons (rules : LexicalRules) (r : CommentReading) (offset : Nat) (c : Char)
    (cs : List Char) :
    commentsFrom rules r offset (c :: cs) = (r.step rules offset c cs).1 ++
      commentsFrom rules (r.step rules offset c cs).2 (offset + c.utf8Size) cs :=
  rfl

/-- A comment that ends at a character ends before the next. -/
theorem stop_le_of_mem_step {span : Span} (h : span ∈ (r.step rules offset c cs).1) :
    span.stop ≤ offset + c.utf8Size := by
  have hsize := c.utf8Size_pos
  rcases CommentReading.step_cases rules offset c cs r with
    ⟨hfound, -⟩ | ⟨hfound, -⟩ | ⟨start, -, -, -, hfound, -⟩ | ⟨start, -, -, hfound, -⟩
  all_goals
    rw [hfound] at h
    simp only [List.mem_singleton, List.not_mem_nil] at h
  all_goals
    rw [h]
    dsimp only
    omega

theorem commentsAhead_of_head? {span : Span} (h : spans.head? = some span)
    (hlt : offset < span.stop) : commentsAhead offset spans = spans := by
  obtain ⟨rest, rfl⟩ := List.head?_eq_some_iff.mp h
  exact List.dropWhile_cons_of_neg (by simpa using hlt)

theorem commentsAhead_append {front : List Span} (h : ∀ span ∈ front, span.stop ≤ offset)
    (back : List Span) : commentsAhead offset (front ++ back) = commentsAhead offset back :=
  List.dropWhile_append_of_pos fun span hspan => decide_eq_true (h span hspan)

theorem commentsAhead_commentsAhead {offset' : Nat} (h : offset ≤ offset') (spans : List Span) :
    commentsAhead offset' (commentsAhead offset spans) = commentsAhead offset' spans := by
  conv_rhs => rw [← List.takeWhile_append_dropWhile (p := (·.stop ≤ offset)) (l := spans)]
  refine (commentsAhead_append (fun span hspan => ?_) _).symm
  have hstop := List.mem_takeWhile_imp hspan
  simp only [decide_eq_true_eq] at hstop
  omega

theorem fresh_of_lt {quotes : List Char} (h : ∀ span ∈ spans, offset < span.start) :
    CodeReading.fresh quotes (commentsAhead offset spans) offset c =
      if quotes.contains c then .literal c else .code := by
  have hnone : (commentsAhead offset spans).head?.filter (·.covers offset) = none := by
    rw [Option.filter_eq_none_iff]
    intro span hspan
    have hmem : span ∈ spans := (List.dropWhile_suffix _).subset (List.mem_of_head? hspan)
    have := h span hmem
    simp only [Span.covers, Bool.and_eq_true, decide_eq_true_eq]
    omega
  rw [CodeReading.fresh, hnone]

theorem fresh_of_head? {quotes : List Char} {span : Span} (h : spans.head? = some span)
    (hcovers : span.covers offset = true) :
    CodeReading.fresh quotes (commentsAhead offset spans) offset c = .comment span.stop := by
  have hlt : offset < span.stop := by
    simp only [Span.covers, Bool.and_eq_true, decide_eq_true_eq] at hcovers
    exact hcovers.2
  rw [CodeReading.fresh, commentsAhead_of_head? h hlt, h, Option.filter_some, if_pos hcovers]

namespace CodeReading

/-- The reading is neither in a literal nor in a comment that reaches beyond the byte. -/
def Free (offset : Nat) : CodeReading → Prop
  | .code => True
  | .closed => True
  | .comment stop => stop ≤ offset
  | _ => False

/-- Where the reading for code stands while the reading for comments stands at the byte; `spans` are
the comments that the latter meets from there on. -/
def Follows (offset : Nat) (spans : List Span) (reading : CodeReading) : CommentReading → Prop
  | .literal quote => reading = .literal quote
  | .escaped quote => reading = .escaped quote
  | .code => reading.Free offset
  | _ => reading.Free offset ∨ ∃ span, spans.head? = some span ∧ reading = .comment span.stop

theorem Free.step_eq {quotes : List Char} (h : reading.Free offset) :
    reading.step quotes spans offset c = fresh quotes spans offset c := by
  cases reading with
  | code => rfl
  | closed => rfl
  | literal quote => exact h.elim
  | escaped quote => exact h.elim
  | comment stop => exact if_neg (Nat.not_lt.mpr h)

/-- In a comment any free reading follows, and the one that knows the comment. -/
theorem follows_of_openStart? (hr : r.openStart? ≠ none)
    (h : reading.Free offset ∨ ∃ span, spans.head? = some span ∧ reading = .comment span.stop) :
    reading.Follows offset spans r := by
  cases r with
  | code => exact absurd rfl hr
  | literal quote => exact absurd rfl hr
  | escaped quote => exact absurd rfl hr
  | opening start => exact h
  | block start star => exact h
  | line start => exact h

/-- A free reading follows where the reading for comments goes on as after code; what it has `found`
lies behind. -/
theorem follows_fresh (rules : LexicalRules) (c : Char) (cs : List Char) {found : List Span}
    (hfound : ∀ span ∈ found, span.stop ≤ offset)
    (hspans : spans = commentsFrom rules (CommentReading.afterCode rules offset c cs)
      (offset + c.utf8Size) cs) :
    (fresh rules.quotes (commentsAhead offset (found ++ spans)) offset c).Follows
        (offset + c.utf8Size) spans (CommentReading.afterCode rules offset c cs) ∧
      (fresh rules.quotes (commentsAhead offset (found ++ spans)) offset c).isCode =
        (CommentReading.afterCode rules offset c cs == .code) := by
  rw [commentsAhead_append hfound]
  have hsize := c.utf8Size_pos
  rcases CommentReading.openStart?_afterCode rules offset c cs with hopen | hopen
  · -- no comment starts here
    have hlater : ∀ span ∈ spans, offset < span.start := by
      intro span hspan
      rw [hspans] at hspan
      have hle := (pairwise_commentsFrom (by simp [hopen])).2 span hspan
      rw [hopen] at hle
      have := hle.1
      simp only [Option.getD_none] at this
      omega
    rw [fresh_of_lt hlater]
    by_cases hquote : rules.quotes.contains c
    · have hafter : CommentReading.afterCode rules offset c cs = .literal c := if_pos hquote
      rw [if_pos hquote, hafter]
      exact ⟨rfl, rfl⟩
    · have hafter : CommentReading.afterCode rules offset c cs = .code := by
        unfold CommentReading.afterCode at hopen ⊢
        rw [if_neg hquote] at hopen ⊢
        split at hopen
        · cases hopen
        · next hslash =>
          rw [if_neg hslash]
          split at hopen
          · cases hopen
          · next hmark => rw [if_neg hmark]
      rw [if_neg hquote, hafter]
      exact ⟨trivial, rfl⟩
  · obtain ⟨span, hhead, hstart, hstop⟩ :=
      exists_head_commentsFrom rules hopen (offset + c.utf8Size) cs
    rw [← hspans] at hhead
    have hcovers : span.covers offset = true := by
      simp only [Span.covers, Bool.and_eq_true, decide_eq_true_eq]
      omega
    rw [fresh_of_head? hhead hcovers]
    refine ⟨follows_of_openStart? (by simp [hopen]) (Or.inr ⟨span, hhead, rfl⟩), ?_⟩
    have hne : CommentReading.afterCode rules offset c cs ≠ .code := by
      intro hcode
      rw [hcode] at hopen
      cases hopen
    exact (beq_eq_false_iff_ne.mpr hne).symm

/-- The reading `next` goes together with the reading for comments behind the character that the latter
reads from `r`: it follows it, and the character was code for both or for neither. -/
def KeepsUp (rules : LexicalRules) (offset : Nat) (c : Char) (cs : List Char) (r : CommentReading)
    (next : CodeReading) : Prop :=
  next.Follows (offset + c.utf8Size)
      (commentsFrom rules (r.step rules offset c cs).2 (offset + c.utf8Size) cs)
      (r.step rules offset c cs).2 ∧
    next.isCode = r.forget.shows rules c cs

/-- Where the reading for comments goes on as after code, a fresh reading keeps up with it. -/
theorem keepsUp_fresh {found : List Span}
    (hstep : r.step rules offset c cs = (found, CommentReading.afterCode rules offset c cs))
    (hfound : ∀ span ∈ found, span.stop ≤ offset) (hblock : r.forget.inBlock = false)
    (hopen : r.forget ≠ .literal c) :
    (fresh rules.quotes (commentsAhead offset (commentsFrom rules r offset (c :: cs))) offset
      c).KeepsUp rules offset c cs r := by
  have hnext : r.forget.next rules c cs = CommentReading.afterCode rules 0 c cs := by
    rw [← CommentReading.forget_step offset, hstep, CommentReading.forget_afterCode]
  obtain ⟨hfollows, hcode⟩ := follows_fresh rules c cs hfound rfl
  rw [KeepsUp, commentsFrom_cons, hstep, CommentReading.shows_eq hblock hopen, hnext]
  exact ⟨hfollows, hcode.trans (CommentReading.afterCode_beq_code rules offset c cs).symm⟩

/-- A comment that stays open is passed over. -/
theorem keepsUp_of_openStart? {start : Nat}
    (hfound : (r.step rules offset c cs).1 = [])
    (hopen : (r.step rules offset c cs).2.openStart? = some start) (hle : start ≤ offset)
    (hhidden : r.forget.shows rules c cs = false)
    (h : reading.Free offset ∨ ∃ span,
      (commentsFrom rules r offset (c :: cs)).head? = some span ∧ reading = .comment span.stop) :
    (reading.step rules.quotes (commentsAhead offset (commentsFrom rules r offset (c :: cs))) offset
      c).KeepsUp rules offset c cs r := by
  rw [KeepsUp, hhidden]
  rw [commentsFrom_cons, hfound, List.nil_append] at h ⊢
  generalize hspans : commentsFrom rules (r.step rules offset c cs).2 (offset + c.utf8Size) cs =
    spans at h ⊢
  obtain ⟨span, hhead, hstart, hstop⟩ :=
    exists_head_commentsFrom rules hopen (offset + c.utf8Size) cs
  rw [hspans] at hhead
  have hsize := c.utf8Size_pos
  have hcovers : span.covers offset = true := by
    simp only [Span.covers, Bool.and_eq_true, decide_eq_true_eq]
    omega
  have hstep : reading.step rules.quotes (commentsAhead offset spans) offset c =
      .comment span.stop := by
    rcases h with h | ⟨span', hhead', rfl⟩
    · rw [h.step_eq, fresh_of_head? hhead hcovers]
    · obtain rfl : span = span' := Option.some.inj (hhead.symm.trans hhead')
      exact if_pos (by omega)
  rw [hstep]
  exact ⟨follows_of_openStart? (by simp [hopen]) (Or.inr ⟨span, hhead, rfl⟩), rfl⟩

theorem keepsUp_literal (rules : LexicalRules) (offset : Nat) (c : Char) (cs : List Char)
    (quote : Char) :
    ((CodeReading.literal quote).step rules.quotes
      (commentsAhead offset (commentsFrom rules (.literal quote) offset (c :: cs))) offset
      c).KeepsUp rules offset c cs (.literal quote) := by
  by_cases hback : c = '\\'
  · subst hback
    exact ⟨rfl, by simp [CodeReading.step, isCode, CommentReading.forget, CommentReading.shows,
      CommentReading.next, CommentReading.step]⟩
  by_cases hquote : c = quote
  · subst hquote
    have hstep : CommentReading.step rules offset c cs (.literal c) = ([], .code) := by
      simp [CommentReading.step, hback]
    have hclosed : ∀ spans, (CodeReading.literal c).step rules.quotes spans offset c = .closed := by
      simp [CodeReading.step, hback]
    rw [KeepsUp, hstep, hclosed]
    exact ⟨trivial, by simp [isCode, CommentReading.forget, CommentReading.shows]⟩
  by_cases hbreak : LexicalRules.breaksAt quote c = true
  · have hstep : CommentReading.step rules offset c cs (.literal quote) =
        ([], CommentReading.afterCode rules offset c cs) := by
      simp [CommentReading.step, hback, hquote, hbreak]
    have hfresh : ∀ spans, (CodeReading.literal quote).step rules.quotes spans offset c =
        fresh rules.quotes spans offset c := by
      simp [CodeReading.step, hback, hquote, hbreak]
    rw [hfresh]
    exact keepsUp_fresh hstep (List.forall_mem_nil _) rfl
      (by simpa [CommentReading.forget] using Ne.symm hquote)
  · have hstep : CommentReading.step rules offset c cs (.literal quote) =
        ([], .literal quote) := by
      simp [CommentReading.step, hback, hquote, hbreak]
    have hsame : ∀ spans, (CodeReading.literal quote).step rules.quotes spans offset c =
        .literal quote := by
      simp [CodeReading.step, hback, hquote, hbreak]
    rw [KeepsUp, hstep, hsame]
    exact ⟨rfl, by simp [isCode, CommentReading.forget, CommentReading.shows, CommentReading.next,
      CommentReading.step, hback, hquote, hbreak]⟩

/-- A reading that knows the comment passes over its end, and a free one does so too. -/
theorem keepsUp_block {start : Nat} {star : Bool} (hle : start ≤ offset)
    (h : reading.Follows offset (commentsFrom rules (.block start star) offset (c :: cs))
      (.block start star)) :
    (reading.step rules.quotes
      (commentsAhead offset (commentsFrom rules (.block start star) offset (c :: cs))) offset
      c).KeepsUp rules offset c cs (.block start star) := by
  have hhidden : CommentReading.shows rules c cs (.block 0 star) = false := by
    simp [CommentReading.shows, CommentReading.inBlock]
  by_cases hclose : (star && c == '/') = true
  · have hstep : CommentReading.step rules offset c cs (.block start star) =
        ([⟨start, offset + 1⟩], .code) := if_pos hclose
    have hsize : c.utf8Size = 1 := by
      obtain ⟨-, rfl⟩ : star = true ∧ c = '/' := by simpa using hclose
      rfl
    have hpassed : reading.step rules.quotes
        (commentsAhead offset (commentsFrom rules (.block start star) offset (c :: cs))) offset c =
        .comment (offset + 1) := by
      rw [commentsFrom_cons, hstep] at h ⊢
      rcases h with h | ⟨span, hhead, rfl⟩
      · rw [h.step_eq]
        have hcovers : (Span.mk start (offset + 1)).covers offset = true := by
          simpa [Span.covers] using hle
        exact fresh_of_head? rfl hcovers
      · obtain rfl : ⟨start, offset + 1⟩ = span := Option.some.inj hhead
        exact if_pos (Nat.lt_succ_self offset)
    rw [KeepsUp, hpassed, hstep]
    exact ⟨Nat.le_of_eq (by rw [hsize]), hhidden.symm⟩
  · have hstep : CommentReading.step rules offset c cs (.block start star) =
        ([], .block start (c == '*')) := if_neg hclose
    exact keepsUp_of_openStart? (by rw [hstep]) (by rw [hstep]; rfl) hle hhidden h

theorem keepsUp_line {start : Nat} (hle : start ≤ offset)
    (h : reading.Follows offset (commentsFrom rules (.line start) offset (c :: cs)) (.line start)) :
    (reading.step rules.quotes
      (commentsAhead offset (commentsFrom rules (.line start) offset (c :: cs))) offset
      c).KeepsUp rules offset c cs (.line start) := by
  by_cases hend : c = '\n'
  · have hstep : CommentReading.step rules offset c cs (.line start) =
        ([⟨start, offset⟩], CommentReading.afterCode rules offset c cs) := if_pos hend
    have hfree : reading.Free offset := by
      rcases h with h | ⟨span, hhead, rfl⟩
      · exact h
      · rw [commentsFrom_cons, hstep] at hhead
        obtain rfl : ⟨start, offset⟩ = span := Option.some.inj hhead
        exact Nat.le_refl offset
    rw [hfree.step_eq]
    exact keepsUp_fresh hstep (by simp) rfl (by simp [CommentReading.forget])
  · have hstep : CommentReading.step rules offset c cs (.line start) = ([], .line start) :=
      if_neg hend
    have hhidden : CommentReading.shows rules c cs (.line 0) = false := by
      simp [CommentReading.shows, CommentReading.next, CommentReading.step, hend]
    exact keepsUp_of_openStart? (by rw [hstep]) (by rw [hstep]; rfl) hle hhidden h

/-- The two readings go together from one character to the next. -/
theorem Follows.step (hr : ∀ start ∈ r.openStart?, start ≤ offset)
    (h : reading.Follows offset (commentsFrom rules r offset (c :: cs)) r) :
    (reading.step rules.quotes
      (commentsAhead offset (commentsFrom rules r offset (c :: cs))) offset
      c).KeepsUp rules offset c cs r := by
  cases r with
  | code =>
    have hfree : reading.Free offset := h
    rw [hfree.step_eq]
    exact keepsUp_fresh rfl (List.forall_mem_nil _) rfl (by simp [CommentReading.forget])
  | escaped quote =>
    obtain rfl : reading = .escaped quote := h
    exact ⟨rfl, rfl⟩
  | literal quote =>
    obtain rfl : reading = .literal quote := h
    exact keepsUp_literal rules offset c cs quote
  | opening start => exact keepsUp_of_openStart? rfl rfl (hr start rfl) rfl h
  | block start star => exact keepsUp_block (hr start rfl) h
  | line start => exact keepsUp_line (hr start rfl) h

end CodeReading

theorem offset_le_of_mem_codeChars {x : CodeChar} (h : x ∈ codeChars rules r offset cs) :
    offset ≤ x.offset := by
  induction cs generalizing r offset with
  | nil => simp [codeChars] at h
  | cons c cs ih =>
    rcases List.mem_append.mp h with h | h
    · split at h
      · rw [List.mem_singleton.mp h]
      · simp at h
    · have := ih h
      omega

theorem pairwise_codeChars (rules : LexicalRules) (r : CommentReading) (offset : Nat)
    (cs : List Char) :
    (codeChars rules r offset cs).Pairwise fun x y => x.offset < y.offset := by
  induction cs generalizing r offset with
  | nil => exact .nil
  | cons c cs ih =>
    refine List.pairwise_append.mpr ⟨?_, ih _ _, fun x hx y hy => ?_⟩
    · split
      · exact List.pairwise_singleton ..
      · exact .nil
    · have hpos := c.utf8Size_pos
      have hle := offset_le_of_mem_codeChars hy
      split at hx
      · obtain rfl := List.mem_singleton.mp hx
        exact Nat.lt_of_lt_of_le (Nat.lt_add_of_pos_right hpos) hle
      · cases hx

/-- A code character is what the reading for comments shows. -/
theorem codeIn_eq_codeChars (hr : ∀ start ∈ r.openStart?, start ≤ offset) {comments : List Span}
    (hcomments : commentsAhead offset comments =
      commentsAhead offset (commentsFrom rules r offset cs))
    (h : reading.Follows offset (commentsFrom rules r offset cs) r) :
    codeIn rules.quotes reading comments offset cs = codeChars rules r.forget offset cs := by
  induction cs generalizing r offset reading comments with
  | nil => rfl
  | cons c cs ih =>
    obtain ⟨hfollows, hcode⟩ := h.step hr
    rw [← hcomments] at hfollows hcode
    have hlater : commentsAhead (offset + c.utf8Size) (commentsAhead offset comments) =
        commentsAhead (offset + c.utf8Size)
          (commentsFrom rules (r.step rules offset c cs).2 (offset + c.utf8Size) cs) := by
      rw [hcomments, commentsAhead_commentsAhead (Nat.le_add_right offset c.utf8Size),
        commentsFrom_cons]
      exact commentsAhead_append (fun span hspan => stop_le_of_mem_step hspan) _
    have hrest := ih (fun start hstart => Nat.le_trans
      (CommentReading.openStart?_step rules c cs hr start hstart) (Nat.le_add_right _ _)) hlater
      hfollows
    rw [codeIn, codeChars, ← CommentReading.forget_step offset, ← hrest, ← hcode]
    split <;> rfl

end Agreement

section Across

variable {rules : LexicalRules} {r : CommentReading}

/-- The reading after a text that goes on with `back`. -/
def readAcross (rules : LexicalRules) : CommentReading → List Char → List Char → CommentReading
  | r, [], _ => r
  | r, c :: cs, back => readAcross rules (r.next rules c (cs ++ back)) cs back

/-- A code character stands in the text at its byte, where the reading shows it. -/
theorem exists_of_mem_codeChars {offset : Nat} {cs : List Char} {x : CodeChar}
    (h : x ∈ codeChars rules r offset cs) :
    ∃ pre post, cs = pre ++ x.char :: post ∧ x.offset = offset + byteLength pre ∧
      (readAcross rules r pre (x.char :: post)).shows rules x.char post = true := by
  induction cs generalizing r offset with
  | nil => simp [codeChars] at h
  | cons c cs ih =>
    rcases List.mem_append.mp h with h | h
    · split at h
      · next hshows =>
        obtain rfl := List.mem_singleton.mp h
        exact ⟨[], cs, rfl, rfl, hshows⟩
      · simp at h
    · obtain ⟨pre, post, rfl, hoffset, hshows⟩ := ih h
      exact ⟨c :: pre, post, rfl, by rw [hoffset, byteLength_cons, Nat.add_assoc], hshows⟩

/-- The comments of a text in two parts: those that end in the first and those met from its end on. -/
theorem exists_commentsFrom_append (rules : LexicalRules) (r : CommentReading) (offset : Nat)
    (hr : ∀ start ∈ r.openStart?, start ≤ offset) (front back : List Char) :
    ∃ done r', commentsFrom rules r offset (front ++ back) =
        done ++ commentsFrom rules r' (offset + byteLength front) back ∧
      r'.forget = readAcross rules r.forget front back ∧
      (∀ span ∈ done, span.stop ≤ offset + byteLength front) ∧
      ∀ start ∈ r'.openStart?, start ≤ offset + byteLength front := by
  induction front generalizing r offset with
  | nil => exact ⟨[], r, rfl, rfl, by simp, hr⟩
  | cons c front ih =>
    obtain ⟨done, r', hspans, hread, hdone, hstart⟩ := ih _ _ (fun start hstart => Nat.le_trans
      (CommentReading.openStart?_step rules c (front ++ back) hr start hstart)
      (Nat.le_add_right _ c.utf8Size))
    refine ⟨(r.step rules offset c (front ++ back)).1 ++ done, r', ?_, ?_, ?_, ?_⟩
    · rw [List.cons_append, commentsFrom_cons, hspans, byteLength_cons, Nat.add_assoc,
        List.append_assoc]
    · rw [hread, readAcross, CommentReading.forget_step]
    · intro span hspan
      rw [byteLength_cons, ← Nat.add_assoc]
      rcases List.mem_append.mp hspan with hspan | hspan
      · exact Nat.le_trans (stop_le_of_mem_step hspan) (Nat.le_add_right _ _)
      · exact hdone span hspan
    · rw [byteLength_cons, ← Nat.add_assoc]
      exact hstart

theorem stop_le_of_mem_commentSpans {text : List Char} {span : Span}
    (h : span ∈ commentSpans rules text) : span.stop ≤ byteLength text := by
  obtain ⟨done, r, hspans, -, hdone, -⟩ := exists_commentsFrom_append rules .code 0
    (by simp [CommentReading.openStart?]) text []
  rw [List.append_nil, Nat.zero_add] at hspans
  rw [Nat.zero_add] at hdone
  rw [commentSpans, hspans] at h
  rcases List.mem_append.mp h with h | h
  · exact hdone span h
  · cases r <;> simp_all [commentsFrom, CommentReading.unfinished]

/-- What is left of the code characters from a byte on. -/
theorem filter_codeChars (rules : LexicalRules) (r : CommentReading) (offset n : Nat)
    (cs : List Char) :
    (codeChars rules r offset cs).filter (offset + n ≤ ·.offset) =
      codeChars rules (readAcross rules r (takeBytes n cs) (dropBytes n cs))
        (offset + byteLength (takeBytes n cs)) (dropBytes n cs) := by
  induction cs generalizing r offset n with
  | nil => cases n <;> rfl
  | cons c cs ih =>
    by_cases hn : n = 0
    · subst hn
      rw [takeBytes_zero, dropBytes_zero, List.filter_eq_self.mpr]
      · rfl
      · exact fun x hx => decide_eq_true (offset_le_of_mem_codeChars hx)
    · have hfirst : ((if r.shows rules c cs then [(⟨offset, c⟩ : CodeChar)] else []).filter
          (offset + n ≤ ·.offset)) = [] := by
        split
        · simp
          omega
        · rfl
      have hlater := ih (r.next rules c cs) (offset + c.utf8Size) (n - c.utf8Size)
      rw [takeBytes_cons hn, dropBytes_cons hn, codeChars, List.filter_append, hfirst,
        List.nil_append, readAcross, takeBytes_append_dropBytes, byteLength_cons, ← Nat.add_assoc,
        ← hlater]
      refine List.filter_congr fun x hx => ?_
      have := offset_le_of_mem_codeChars hx
      exact decide_eq_decide.mpr (by omega)

namespace SourceText

variable {s : SourceText}

theorem inComment_eq_any (s : SourceText) (o : Nat) :
    s.inComment o = s.comments.any (·.covers o) := by
  rw [Bool.eq_iff_iff, inComment_iff, List.any_eq_true]

/-- Where the reading for comments stands at the byte. -/
def readingAt (s : SourceText) (offset : Nat) : CommentReading :=
  readAcross s.rules .code (takeBytes offset s.chars) (dropBytes offset s.chars)

/-- The byte lies in no string literal. -/
def OutsideLiteral (s : SourceText) (offset : Nat) : Prop :=
  (s.readingAt offset).inLiteral = false

instance (s : SourceText) (offset : Nat) : Decidable (s.OutsideLiteral offset) :=
  inferInstanceAs (Decidable (_ = false))

/-- The code characters of the text. -/
def code (s : SourceText) : List CodeChar :=
  codeChars s.rules .code 0 s.chars

/-- From a place outside literals the code is read as from the start of the text. -/
theorem codeFrom_eq_filter {offset : Nat} (h : s.OutsideLiteral offset) :
    s.codeFrom offset = s.code.filter (offset ≤ ·.offset) := by
  obtain ⟨done, r, hspans, hread, hdone, hstart⟩ := exists_commentsFrom_append s.rules
    .code 0 (by simp [CommentReading.openStart?]) (takeBytes offset s.chars)
    (dropBytes offset s.chars)
  rw [takeBytes_append_dropBytes, Nat.zero_add] at hspans
  rw [Nat.zero_add] at hdone hstart
  have hcomments : s.comments = done ++ commentsFrom s.rules r
      (byteLength (takeBytes offset s.chars)) (dropBytes offset s.chars) :=
    s.comments_eq.trans hspans
  have hfollows : CodeReading.code.Follows (byteLength (takeBytes offset s.chars))
      (commentsFrom s.rules r (byteLength (takeBytes offset s.chars)) (dropBytes offset s.chars))
      r := by
    have houtside : r.forget.inLiteral = false := by
      rw [hread]
      exact h
    cases r with
    | literal quote => cases houtside
    | escaped quote => cases houtside
    | code => trivial
    | opening start => exact Or.inl trivial
    | block start star => exact Or.inl trivial
    | line start => exact Or.inl trivial
  have hcode := filter_codeChars s.rules .code 0 offset s.chars
  rw [Nat.zero_add, Nat.zero_add] at hcode
  show codeIn s.rules.quotes .code s.comments (Text.spotAt offset s.chars).offset
    (Text.spotAt offset s.chars).rest = _
  rw [rest_spotAt, offset_spotAt, codeIn_eq_codeChars hstart _ hfollows, hread]
  · exact hcode.symm
  · rw [hcomments]
    exact commentsAhead_append hdone _

/-- The code characters of a text that are no white space. -/
def visibleCode (s : SourceText) : List CodeChar :=
  s.code.filter fun x => !isBlank x.char

theorem codeFrom_zero (s : SourceText) : s.codeFrom 0 = s.code := by
  have houtside : s.OutsideLiteral 0 := by
    rw [OutsideLiteral, readingAt, takeBytes_zero]
    rfl
  rw [codeFrom_eq_filter houtside, List.filter_eq_self.mpr]
  exact fun x _ => decide_eq_true (Nat.zero_le _)

end SourceText

end Across

section Shift

/-- The code character at another place. -/
def CodeChar.map (f : Nat → Nat) (x : CodeChar) : CodeChar :=
  ⟨f x.offset, x.char⟩

/-- The reading with its comment moved on. -/
def CommentReading.shift (k : Nat) : CommentReading → CommentReading
  | .opening start => .opening (start + k)
  | .block start star => .block (start + k) star
  | .line start => .line (start + k)
  | other => other

variable {rules : LexicalRules} {r : CommentReading} {k offset : Nat} {c : Char} {cs : List Char}

theorem codeChars_add (rules : LexicalRules) (r : CommentReading) (offset k : Nat)
    (cs : List Char) :
    codeChars rules r (offset + k) cs =
      (codeChars rules r offset cs).map (CodeChar.map (· + k)) := by
  induction cs generalizing r offset with
  | nil => rfl
  | cons c cs ih =>
    rw [codeChars, codeChars, List.map_append, Nat.add_right_comm, ih]
    split <;> rfl

theorem Span.covers_iff {span : Span} {o : Nat} :
    span.covers o = true ↔ span.start ≤ o ∧ o < span.stop := by
  simp [Span.covers]

theorem Span.covers_map_add (span : Span) (k o : Nat) :
    (span.map (· + k)).covers (k + o) = span.covers o := by
  rw [Bool.eq_iff_iff, Span.covers_iff, Span.covers_iff]
  show span.start + k ≤ k + o ∧ k + o < span.stop + k ↔ _
  omega

theorem Span.covers_map_add_of_lt {k o : Nat} (span : Span) (h : o < k) :
    (span.map (· + k)).covers o = false := by
  rw [Bool.eq_false_iff, Ne, Span.covers_iff]
  show ¬ (span.start + k ≤ o ∧ o < span.stop + k)
  omega

theorem CommentReading.afterCode_add (rules : LexicalRules) (offset k : Nat) (c : Char)
    (rest : List Char) :
    afterCode rules (offset + k) c rest = (afterCode rules offset c rest).shift k := by
  unfold afterCode
  split
  · rfl
  · split
    · rfl
    · split <;> rfl

theorem CommentReading.step_shift (rules : LexicalRules) (r : CommentReading) (offset k : Nat)
    (c : Char) (rest : List Char) :
    (r.shift k).step rules (offset + k) c rest =
      ((r.step rules offset c rest).1.map (Span.map (· + k)),
        (r.step rules offset c rest).2.shift k) := by
  have hafter := afterCode_add rules offset k c rest
  cases r with
  | code => simp only [shift, step, hafter, List.map_nil]
  | escaped quote => rfl
  | literal quote =>
    simp only [shift, step]
    split
    · rfl
    · split
      · rfl
      · split
        · rw [hafter]
          rfl
        · rfl
  | opening start => rfl
  | block start star =>
    simp only [shift, step]
    split
    · simp [Span.map, Nat.add_right_comm]
    · rfl
  | line start =>
    simp only [shift, step]
    split
    · rw [hafter]
      rfl
    · rfl

theorem commentsFrom_shift (rules : LexicalRules) (r : CommentReading) (offset k : Nat)
    (cs : List Char) :
    commentsFrom rules (r.shift k) (offset + k) cs =
      (commentsFrom rules r offset cs).map (Span.map (· + k)) := by
  induction cs generalizing r offset with
  | nil => cases r <;> rfl
  | cons c cs ih =>
    rw [commentsFrom_cons, commentsFrom_cons, CommentReading.step_shift, List.map_append,
      Nat.add_right_comm, ih]

end Shift

section Cut

variable {rules : LexicalRules} {front : List Char}

theorem last_dropBytes {text : List Char} {o : Nat} (hwhole : WholeLines text)
    (h : o < byteLength text) : (dropBytes o text).getLast? = some '\n' := by
  have hlast : text.getLast? = some '\n' := hwhole.resolve_left (by
    rintro rfl
    exact Nat.not_lt_zero o h)
  obtain ⟨lines, rfl⟩ := List.getLast?_eq_some_iff.mp hlast
  have hsize : '\n'.utf8Size = 1 := rfl
  rw [byteLength_append, byteLength_cons, byteLength_nil, hsize] at h
  rw [dropBytes_append_of_le (by omega), List.getLast?_concat]

theorem readAcross_of_wholeLines (hrules : rules.Usual) (h : WholeLines front)
    (r : CommentReading) (back : List Char) :
    readAcross rules r front back = readThrough rules r front := by
  induction front generalizing r with
  | nil => rfl
  | cons c front ih =>
    have hlast : (c :: front).getLast? = some '\n' := h.resolve_left (by simp)
    rw [readAcross, readThrough, r.next_append hrules hlast, ih (WholeLines.tail hlast)]

/-- Before the end of a line the reading does not depend on what follows the line. -/
theorem readAcross_append (hrules : rules.Usual) (r : CommentReading) (front : List Char)
    {mid : List Char} (hmid : mid.getLast? = some '\n') (back : List Char) :
    readAcross rules r front (mid ++ back) = readAcross rules r front mid := by
  induction front generalizing r with
  | nil => rfl
  | cons c front ih =>
    have hlast : (c :: (front ++ mid)).getLast? = some '\n' := by
      have hne : mid ≠ [] := by
        rintro rfl
        cases hmid
      rw [← List.cons_append, List.getLast?_append_of_ne_nil _ hne, hmid]
    rw [readAcross, readAcross, ← List.append_assoc, r.next_append hrules hlast, ih]

theorem readAcross_append_left (rules : LexicalRules) (r : CommentReading)
    (front mid back : List Char) :
    readAcross rules r (front ++ mid) back =
      readAcross rules (readAcross rules r front (mid ++ back)) mid back := by
  induction front generalizing r with
  | nil => rfl
  | cons c front ih => rw [List.cons_append, readAcross, ih, readAcross, List.append_assoc]

/-- At the end of a line the code characters can be cut. -/
theorem codeChars_append (hrules : rules.Usual) (h : WholeLines front) (r : CommentReading)
    (offset : Nat) (back : List Char) :
    codeChars rules r offset (front ++ back) = codeChars rules r offset front ++
      codeChars rules (readThrough rules r front) (offset + byteLength front) back := by
  induction front generalizing r offset with
  | nil => rfl
  | cons c front ih =>
    have hlast : (c :: front).getLast? = some '\n' := h.resolve_left (by simp)
    have hnext := r.next_append hrules hlast back
    rw [List.cons_append, codeChars, codeChars, CommentReading.shows, CommentReading.shows, hnext,
      ih (WholeLines.tail hlast), readThrough, byteLength_cons, Nat.add_assoc, List.append_assoc]

/-- At the end of a line that ends in code the comments can be cut. -/
theorem commentsFrom_append (hrules : rules.Usual) (h : WholeLines front) {r : CommentReading}
    (hcode : readThrough rules r.forget front = .code) (offset : Nat) (back : List Char) :
    commentsFrom rules r offset (front ++ back) = commentsFrom rules r offset front ++
      commentsFrom rules .code (offset + byteLength front) back := by
  induction front generalizing r offset with
  | nil =>
    obtain rfl : r = .code := by cases r <;> simp_all [readThrough, CommentReading.forget]
    rfl
  | cons c front ih =>
    have hlast : (c :: front).getLast? = some '\n' := h.resolve_left (by simp)
    rw [List.cons_append, commentsFrom_cons, commentsFrom_cons, r.step_append hrules offset hlast,
      ih (WholeLines.tail hlast), byteLength_cons, Nat.add_assoc, List.append_assoc]
    rw [CommentReading.forget_step]
    exact hcode

/-- Code characters that are no white space are code of the text. -/
theorem mem_codeFrom_of_mem_codeChars {r : CommentReading} {offset : Nat} {cs : List Char}
    {x : CodeChar} (h : x ∈ codeChars rules r offset cs) (hx : isBlank x.char = false) :
    x.char ∈ codeFrom rules r cs := by
  induction cs generalizing r offset with
  | nil => simp [codeChars] at h
  | cons c cs ih =>
    rw [codeFrom, List.mem_append]
    rcases List.mem_append.mp h with h | h
    · left
      split at h
      · next hshows =>
        obtain rfl := List.mem_singleton.mp h
        have hcode : r.hides rules c cs = false := by
          simp only [CommentReading.shows, Bool.and_eq_true, beq_iff_eq, Bool.not_eq_true'] at hshows
          rw [CommentReading.hides, hshows.1.1, hshows.1.2]
          rfl
        have hx : isBlank c = false := hx
        simp [hx, hcode]
      · simp at h
    · exact Or.inr (ih h)

end Cut

end Concordance
