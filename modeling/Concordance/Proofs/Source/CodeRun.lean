import Concordance.Proofs.Source.CodeReading
import Concordance.Proofs.Source.SameCode

/-!
The code of a text as a run over it: a comment is passed over up to its end, a literal up to its end,
and any other character is met.

`SourceText.Meets` says so by the questions asked of a text by offset, without the reading that lists
code. A run from an offset is determined by it, and a part of a run is the run from where it starts.
Main statements: `meets_codeFrom` (the code from a place is what a run from there meets),
`Meets.unique` and `codeFrom_of_append` (from a character that a run meets on, the code is the rest of
the run).
-/

namespace Concordance

open Text

namespace SourceText

/-- A run from the offset meets the characters: comments and literals are passed over as a whole. -/
inductive Meets (s : SourceText) : Nat → List CodeChar → Prop
  | done {offset : Nat} (hend : s.length ≤ offset) : Meets s offset []
  | comment {offset stop : Nat} {code : List CodeChar} (hcomment : s.commentEnd? offset = some stop)
      (later : Meets s stop code) : Meets s offset code
  | literal {offset stop : Nat} {code : List CodeChar} (hfree : s.inComment offset = false)
      (hliteral : s.stringEnd? offset = some stop) (later : Meets s stop code) : Meets s offset code
  | code {offset : Nat} {c : Char} {code : List CodeChar} (hfree : s.inComment offset = false)
      (hchar : s.charAt? offset = some c) (hquote : c ∉ s.rules.quotes)
      (later : Meets s (offset + c.utf8Size) code) : Meets s offset (⟨offset, c⟩ :: code)

variable {s : SourceText} {offset stop : Nat} {code code' front back : List CodeChar}
  {x : CodeChar}

section Ends

theorem lt_of_commentEnd? (h : s.commentEnd? offset = some stop) : offset < stop := by
  obtain ⟨span, hspan, rfl⟩ := Option.map_eq_some_iff.mp h
  have hcovers := List.find?_some hspan
  exact (Span.covers_iff.mp hcovers).2

theorem commentEnd?_of_length_le (h : s.length ≤ offset) : s.commentEnd? offset = none := by
  rw [commentEnd?, Option.map_eq_none_iff, List.find?_eq_none]
  intro span hspan hcovers
  have hstop : span.stop ≤ s.length := by
    rw [s.comments_eq] at hspan
    exact stop_le_of_mem_commentSpans hspan
  have := (Span.covers_iff.mp hcovers).2
  omega

theorem inComment_of_commentEnd? (h : s.commentEnd? offset = some stop) :
    s.inComment offset = true := by
  rw [inComment, h]
  rfl

/-- A literal opens with a quote. -/
theorem exists_quote_of_stringEnd? (h : s.stringEnd? offset = some stop) :
    ∃ c, s.charAt? offset = some c ∧ c ∈ s.rules.quotes ∧ offset < stop := by
  unfold stringEnd? at h
  cases hchar : s.charAt? offset with
  | none => simp [hchar] at h
  | some c =>
    have hsize := c.utf8Size_pos
    simp only [hchar, Option.ite_none_right_eq_some, Option.some.injEq] at h
    exact ⟨c, rfl, by simpa using h.1, by omega⟩

end Ends

namespace Meets

/-- There is one run from an offset. -/
theorem unique (h : s.Meets offset code) (h' : s.Meets offset code') : code = code' := by
  induction h generalizing code' with
  | done hend =>
    cases h' with
    | done => rfl
    | comment hcomment => simp [commentEnd?_of_length_le hend] at hcomment
    | literal _ hliteral =>
      obtain ⟨c, hchar, -⟩ := exists_quote_of_stringEnd? hliteral
      simp [charAt?_of_length_le hend] at hchar
    | code _ hchar => simp [charAt?_of_length_le hend] at hchar
  | comment hcomment _ ih =>
    have hin := inComment_of_commentEnd? hcomment
    cases h' with
    | done hend => simp [commentEnd?_of_length_le hend] at hcomment
    | comment hcomment' later' =>
      obtain rfl := Option.some.inj (hcomment.symm.trans hcomment')
      exact ih later'
    | literal hfree => simp [hfree] at hin
    | code hfree => simp [hfree] at hin
  | literal hfree hliteral _ ih =>
    obtain ⟨c, hchar, hquote, -⟩ := exists_quote_of_stringEnd? hliteral
    cases h' with
    | done hend => simp [charAt?_of_length_le hend] at hchar
    | comment hcomment => simp [inComment_of_commentEnd? hcomment] at hfree
    | literal _ hliteral' later' =>
      obtain rfl := Option.some.inj (hliteral.symm.trans hliteral')
      exact ih later'
    | code _ hchar' hquote' =>
      obtain rfl := Option.some.inj (hchar.symm.trans hchar')
      exact absurd hquote hquote'
  | code hfree hchar hquote _ ih =>
    cases h' with
    | done hend => simp [charAt?_of_length_le hend] at hchar
    | comment hcomment => simp [inComment_of_commentEnd? hcomment] at hfree
    | literal _ hliteral =>
      obtain ⟨c, hchar', hquote', -⟩ := exists_quote_of_stringEnd? hliteral
      obtain rfl := Option.some.inj (hchar.symm.trans hchar')
      exact absurd hquote' hquote
    | code _ hchar' _ later' =>
      obtain rfl := Option.some.inj (hchar.symm.trans hchar')
      rw [ih later']

/-- From a character that it meets on, a run meets the rest. -/
theorem suffix (h : s.Meets offset (front ++ x :: back)) : s.Meets x.offset (x :: back) := by
  generalize hcode : front ++ x :: back = code at h
  induction h generalizing front with
  | done => simp at hcode
  | comment _ _ ih => exact ih hcode
  | literal _ _ _ ih => exact ih hcode
  | code hfree hchar hquote later ih =>
    cases front with
    | nil =>
      obtain ⟨rfl, rfl⟩ := List.cons.inj hcode
      exact .code hfree hchar hquote later
    | cons y front => exact ih (List.cons.inj hcode).2

/-- What a run meets is a character of the text that no comment covers and that opens no literal. -/
theorem of_mem (h : s.Meets offset code) (hx : x ∈ code) :
    offset ≤ x.offset ∧ s.charAt? x.offset = some x.char ∧ s.inComment x.offset = false ∧
      x.char ∉ s.rules.quotes := by
  induction h with
  | done => cases hx
  | comment hcomment _ ih =>
    have hlt := lt_of_commentEnd? hcomment
    obtain ⟨hle, hx⟩ := ih hx
    exact ⟨by omega, hx⟩
  | literal _ hliteral _ ih =>
    obtain ⟨-, -, -, hlt⟩ := exists_quote_of_stringEnd? hliteral
    obtain ⟨hle, hx⟩ := ih hx
    exact ⟨by omega, hx⟩
  | code hfree hchar hquote _ ih =>
    rcases List.mem_cons.mp hx with rfl | hx
    · exact ⟨Nat.le_refl _, hchar, hfree, hquote⟩
    · obtain ⟨hle, hx⟩ := ih hx
      exact ⟨by omega, hx⟩

/-- A run meets the characters in the order of the text. -/
theorem pairwise (h : s.Meets offset code) : code.Pairwise fun x y => x.offset < y.offset := by
  induction h with
  | done => exact .nil
  | comment _ _ ih => exact ih
  | literal _ _ _ ih => exact ih
  | @code offset c code _ _ _ later ih =>
    have hsize := c.utf8Size_pos
    refine List.pairwise_cons.mpr ⟨fun y hy => ?_, ih⟩
    have hle := (later.of_mem hy).1
    show offset < y.offset
    omega

end Meets

end SourceText

section Reading

variable {quotes : List Char} {comments comments' : List Span} {reading : CodeReading}
  {offset stop : Nat} {c : Char} {cs : List Char}

/-- Only the comments ahead matter. -/
theorem codeIn_congr (h : commentsAhead offset comments = commentsAhead offset comments')
    (quotes : List Char) (reading : CodeReading) (cs : List Char) :
    codeIn quotes reading comments offset cs = codeIn quotes reading comments' offset cs := by
  cases cs with
  | nil => rfl
  | cons c cs => rw [codeIn, codeIn, h]

/-- The comments that were passed need not be dropped. -/
theorem codeIn_cons (quotes : List Char) (reading : CodeReading) (comments : List Span)
    (offset : Nat) (c : Char) (cs : List Char) :
    codeIn quotes reading comments offset (c :: cs) =
      (if (reading.step quotes (commentsAhead offset comments) offset c).isCode then [⟨offset, c⟩]
        else []) ++
      codeIn quotes (reading.step quotes (commentsAhead offset comments) offset c) comments
        (offset + c.utf8Size) cs := by
  have hlater := commentsAhead_commentsAhead (Nat.le_add_right offset c.utf8Size) comments
  rw [codeIn, codeIn_congr hlater]
  split <;> rfl

theorem codeIn_of_step {next : CodeReading}
    (h : reading.step quotes (commentsAhead offset comments) offset c = next)
    (hnext : next.isCode = false) (cs : List Char) :
    codeIn quotes reading comments offset (c :: cs) =
      codeIn quotes next comments (offset + c.utf8Size) cs := by
  rw [codeIn_cons, h, hnext]
  rfl

/-- A comment is passed over up to its end. -/
theorem codeIn_comment (inner : List Char) (h : offset + byteLength inner ≤ stop) :
    codeIn quotes (.comment stop) comments offset (inner ++ cs) =
      codeIn quotes (.comment stop) comments (offset + byteLength inner) cs := by
  induction inner generalizing offset with
  | nil => rfl
  | cons c inner ih =>
    have hsize := c.utf8Size_pos
    rw [byteLength_cons] at h
    have hstep : (CodeReading.comment stop).step quotes (commentsAhead offset comments) offset c =
        .comment stop := if_pos (by omega)
    rw [List.cons_append, codeIn_of_step hstep rfl, byteLength_cons, ← Nat.add_assoc]
    exact ih (by omega)

/-- The reading takes the next character as after code. -/
def CodeReading.Resumes (quotes : List Char) (offset : Nat) (cs : List Char) (reading : CodeReading) :
    Prop :=
  ∀ c ∈ cs.head?, ∀ comments, reading.step quotes comments offset c =
    CodeReading.fresh quotes comments offset c

namespace CodeReading

theorem step_literal_backslash (quotes : List Char) (comments : List Span) (offset : Nat)
    (quote : Char) : (literal quote).step quotes comments offset '\\' = .escaped quote := by
  rw [step, if_pos rfl]

theorem step_escaped (quotes : List Char) (comments : List Span) (offset : Nat) (quote : Char)
    (c : Char) : (escaped quote).step quotes comments offset c = .literal quote :=
  rfl

theorem step_literal_quote (quotes : List Char) (comments : List Span) (offset : Nat)
    {quote : Char} (h : quote ≠ '\\') :
    (literal quote).step quotes comments offset quote = .closed := by
  rw [step, if_neg h, if_pos rfl]

theorem step_literal_break (quotes : List Char) (comments : List Span) (offset : Nat)
    {quote : Char} (hback : c ≠ '\\') (hquote : c ≠ quote)
    (hbreak : LexicalRules.breaksAt quote c = true) :
    (literal quote).step quotes comments offset c = fresh quotes comments offset c := by
  rw [step, if_neg hback, if_neg hquote, if_pos hbreak]

theorem step_literal_other (quotes : List Char) (comments : List Span) (offset : Nat)
    {quote : Char} (hback : c ≠ '\\') (hquote : c ≠ quote)
    (hbreak : ¬ LexicalRules.breaksAt quote c = true) :
    (literal quote).step quotes comments offset c = .literal quote := by
  rw [step, if_neg hback, if_neg hquote, if_neg hbreak]

end CodeReading

/-- In a literal a character that neither stands last as a backslash nor hides another is none. -/
theorem ne_backslash (hlast : c = '\\' → cs = [] → False)
    (hescape : ∀ d ds, c = '\\' → cs = d :: ds → False) : c ≠ '\\' := by
  intro hback
  cases cs with
  | nil => exact hlast hback rfl
  | cons d ds => exact hescape d ds hback rfl

/-- A literal is passed over up to its end. -/
theorem exists_codeIn_literal (quotes : List Char) (comments : List Span) (quote : Char)
    (offset : Nat) (cs : List Char) :
    ∃ inner rest reading, cs = inner ++ rest ∧ byteLength inner = SourceText.literalLength quote cs ∧
      reading.Resumes quotes (offset + byteLength inner) rest ∧
      codeIn quotes (.literal quote) comments offset cs =
        codeIn quotes reading comments (offset + byteLength inner) rest := by
  fun_induction SourceText.literalLength quote cs generalizing offset with
  | case1 => exact ⟨[], [], .literal quote, rfl, rfl, by simp [CodeReading.Resumes], rfl⟩
  | case2 =>
    refine ⟨['\\'], [], .escaped quote, rfl, rfl, by simp [CodeReading.Resumes], ?_⟩
    exact codeIn_of_step (CodeReading.step_literal_backslash ..) rfl []
  | case3 c cs ih =>
    obtain ⟨inner, rest, reading, rfl, hlength, hresumes, hcode⟩ := ih (offset + 1 + c.utf8Size)
    have hback : '\\'.utf8Size = 1 := rfl
    refine ⟨'\\' :: c :: inner, rest, reading, rfl, ?_, ?_, ?_⟩
    all_goals simp only [byteLength_cons, hback, ← Nat.add_assoc]
    · omega
    · exact hresumes
    · rw [codeIn_of_step (CodeReading.step_literal_backslash ..) rfl,
        codeIn_of_step (CodeReading.step_escaped ..) rfl]
      exact hcode
  | case4 cs hlast hescape =>
    have hback := ne_backslash hlast hescape
    refine ⟨[quote], cs, .closed, rfl, rfl, fun _ _ _ => rfl, ?_⟩
    exact codeIn_of_step (CodeReading.step_literal_quote _ _ _ hback) rfl cs
  | case5 c cs hlast hescape hquote hbreak =>
    have hback := ne_backslash hlast hescape
    refine ⟨[], c :: cs, .literal quote, rfl, rfl, ?_, rfl⟩
    intro d hd comments
    obtain rfl := Option.some.inj hd
    exact CodeReading.step_literal_break _ _ _ hback hquote hbreak
  | case6 c cs hlast hescape hquote hbreak ih =>
    have hback := ne_backslash hlast hescape
    obtain ⟨inner, rest, reading, rfl, hlength, hresumes, hcode⟩ := ih (offset + c.utf8Size)
    refine ⟨c :: inner, rest, reading, rfl, ?_, ?_, ?_⟩
    all_goals simp only [byteLength_cons, ← Nat.add_assoc]
    · omega
    · exact hresumes
    · rw [codeIn_of_step (CodeReading.step_literal_other _ _ _ hback hquote hbreak) rfl]
      exact hcode

end Reading

namespace SourceText

variable {s : SourceText} {code : List CodeChar} {x : CodeChar}

theorem fresh_eq (s : SourceText) (offset : Nat) (c : Char) :
    CodeReading.fresh s.rules.quotes (commentsAhead offset s.comments) offset c =
      match s.commentEnd? offset with
      | some stop => .comment stop
      | none => if s.rules.quotes.contains c then .literal c else .code := by
  rw [CodeReading.fresh,
    filter_head?_commentsAhead s.pairwise_comments offset, commentEnd?]
  cases s.comments.find? (·.covers offset) <;> rfl

theorem stringEnd?_of_quote {before cs : List Char} {c : Char} (hchars : s.chars = before ++ c :: cs)
    (hquote : s.rules.quotes.contains c = true) :
    s.stringEnd? (byteLength before) =
      some (byteLength before + c.utf8Size + literalLength c cs) := by
  have hchar : s.charAt? (byteLength before) = some c :=
    charAt?_eq_some_iff.mpr ⟨before, cs, hchars, rfl⟩
  simp only [stringEnd?, hchar, hquote, if_pos, hchars, dropBytes_byteLength, List.drop_one,
    List.tail_cons]

/-- Behind a character in a comment the comment goes on to its end. -/
theorem exists_cut_of_commentEnd? {before cs : List Char} {c : Char}
    (hchars : s.chars = before ++ c :: cs) {stop : Nat}
    (h : s.commentEnd? (byteLength before) = some stop) :
    ∃ inner rest, cs = inner ++ rest ∧ byteLength (before ++ c :: inner) = stop := by
  have hlt := lt_of_commentEnd? h
  obtain ⟨span, hspan, rfl⟩ := Option.map_eq_some_iff.mp h
  obtain ⟨front, text, rest, hcut, hfront, hstop, -⟩ :=
    exists_cut_of_mem_comments (List.mem_of_find?_eq_some hspan)
  have hlength : byteLength (front ++ text) = span.stop := by rw [byteLength_append, hfront, hstop]
  rw [hchars, ← List.append_assoc] at hcut
  rcases List.append_eq_append_iff.mp hcut with ⟨mid, hmid, hrest⟩ | ⟨mid, rfl, -⟩
  · cases mid with
    | nil =>
      rw [← hlength, hmid, List.append_nil] at hlt
      exact absurd hlt (Nat.lt_irrefl _)
    | cons d inner =>
      obtain ⟨rfl, rfl⟩ := List.cons.inj hrest
      exact ⟨inner, rest, rfl, by rw [← hmid, hlength]⟩
  · rw [← hlength, byteLength_append (front ++ text)] at hlt
    omega

/-- Where the reading takes characters as after code, it lists what a run meets. -/
theorem meets_codeIn {before cs : List Char} (hchars : s.chars = before ++ cs)
    {reading : CodeReading} (hreading : reading.Resumes s.rules.quotes (byteLength before) cs) :
    s.Meets (byteLength before)
      (codeIn s.rules.quotes reading s.comments (byteLength before) cs) := by
  induction hn : cs.length using Nat.strongRecOn generalizing before cs reading with
  | ind n ih =>
    subst hn
    cases cs with
    | nil =>
      rw [List.append_nil] at hchars
      exact .done (by rw [length, hchars])
    | cons c cs =>
      have hchar : s.charAt? (byteLength before) = some c :=
        charAt?_eq_some_iff.mpr ⟨before, cs, hchars, rfl⟩
      have hstep := (hreading c rfl (commentsAhead (byteLength before) s.comments)).trans
        (fresh_eq s _ c)
      -- what is left when the character and `inner` are passed over
      have hlater : ∀ {inner rest : List Char} {reading : CodeReading}, cs = inner ++ rest →
          reading.Resumes s.rules.quotes (byteLength before + c.utf8Size + byteLength inner) rest →
          s.Meets (byteLength before + c.utf8Size + byteLength inner)
            (codeIn s.rules.quotes reading s.comments
              (byteLength before + c.utf8Size + byteLength inner) rest) := by
        intro inner rest reading hcs hresumes
        have hbefore : byteLength (before ++ c :: inner) =
            byteLength before + c.utf8Size + byteLength inner := by
          rw [byteLength_append, byteLength_cons, Nat.add_assoc]
        rw [← hbefore] at hresumes ⊢
        refine ih rest.length ?_ ?_ hresumes rfl
        · rw [hcs, List.length_cons, List.length_append]
          omega
        · rw [hchars, hcs, List.append_assoc, List.cons_append]
      cases hcomment : s.commentEnd? (byteLength before) with
      | some stop =>
        rw [hcomment] at hstep
        obtain ⟨inner, rest, hcs, hstop⟩ := exists_cut_of_commentEnd? hchars hcomment
        rw [byteLength_append, byteLength_cons, ← Nat.add_assoc] at hstop
        subst hstop
        rw [codeIn_of_step hstep rfl, hcs, codeIn_comment inner (Nat.le_refl _)]
        exact .comment hcomment (hlater hcs fun _ _ _ => if_neg (Nat.lt_irrefl _))
      | none =>
        rw [hcomment] at hstep
        have hfree : s.inComment (byteLength before) = false := by rw [inComment, hcomment]; rfl
        by_cases hquote : s.rules.quotes.contains c = true
        · dsimp only at hstep
          rw [if_pos hquote] at hstep
          obtain ⟨inner, rest, reading', hcs, hlength, hresumes, hcode⟩ :=
            exists_codeIn_literal s.rules.quotes s.comments c (byteLength before + c.utf8Size) cs
          rw [codeIn_of_step hstep rfl, hcode]
          refine .literal hfree (stringEnd?_of_quote hchars hquote) ?_
          rw [← hlength]
          exact hlater hcs hresumes
        · dsimp only at hstep
          rw [if_neg hquote] at hstep
          rw [codeIn_cons, hstep]
          refine .code hfree hchar (by simpa using hquote) ?_
          exact @hlater [] cs .code rfl fun _ _ _ => rfl

/-- The code from a place between characters is what a run from there meets. -/
theorem meets_codeFrom {offset : Nat} (h : onBoundary offset s.chars = true) :
    s.Meets offset (s.codeFrom offset) := by
  obtain ⟨before, cs, hchars, rfl⟩ := onBoundary_iff.mp h
  have hcode : s.codeFrom (byteLength before) =
      codeIn s.rules.quotes .code s.comments (byteLength before) cs := by
    rw [codeFrom, spotAt, offset_spotAt, rest_spotAt, hchars, takeBytes_byteLength,
      dropBytes_byteLength]
  rw [hcode]
  exact meets_codeIn hchars fun _ _ _ => rfl

/-- From a character that a run meets on, the code is the rest of the run. -/
theorem codeFrom_of_append {offset : Nat} {front back : List CodeChar}
    (h : s.Meets offset (front ++ x :: back)) : s.codeFrom x.offset = x :: back := by
  obtain ⟨-, hchar, -⟩ := h.of_mem (x := x) (by simp)
  obtain ⟨before, rest, hchars, hoffset⟩ := charAt?_eq_some_iff.mp hchar
  exact (meets_codeFrom (onBoundary_iff.mpr ⟨before, _, hchars, hoffset⟩)).unique h.suffix

end SourceText

end Concordance
