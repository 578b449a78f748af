import Concordance.Proofs.Source.CodeRun

/-!
The reading for comments by leaps: from a character of code to the end of the literal or the comment
that it opens, or else to the next character.

Where the reading stands in code, the comments ahead are those met from there on. `SourceText.InStep`
says so of a cut of the text, and `InStep.cases` lists the leaps from such a cut to the next one: a run
over the text leaps as the reading does, so it never enters a comment but at its start.
-/

namespace Concordance

open Text SourceText

/-- The bytes of the rest of a block comment, its closing mark included; `star` tells whether a star
came last. -/
def blockLength (star : Bool) : List Char → Nat
  | [] => 0
  | c :: cs => if star && c == '/' then c.utf8Size else c.utf8Size + blockLength (c == '*') cs

/-- The bytes up to the end of the line. -/
def lineLength (cs : List Char) : Nat :=
  byteLength (cs.takeWhile (· ≠ '\n'))

/-- The bytes behind `c` of the comment that `c` opens, if it opens one. -/
def commentLength? (rules : LexicalRules) (c : Char) (cs : List Char) : Option Nat :=
  if c = '/' ∧ cs.head? = some '*' then some (1 + blockLength false cs.tail)
  else if rules.lineMarks.any (·.isPrefixOf (c :: cs)) then some (lineLength cs)
  else none

section Lengths

variable {rules : LexicalRules} {n : Nat} {c : Char} {cs : List Char}

theorem onBoundary_cons_add (c : Char) (h : onBoundary n cs = true) :
    onBoundary (c.utf8Size + n) (c :: cs) = true := by
  obtain ⟨pre, post, rfl, rfl⟩ := onBoundary_iff.mp h
  exact onBoundary_byteLength (c :: pre) post

theorem dropBytes_cons_add (c : Char) (n : Nat) (cs : List Char) :
    dropBytes (c.utf8Size + n) (c :: cs) = dropBytes n cs := by
  rw [dropBytes_cons (utf8Size_add_ne_zero c n), Nat.add_sub_cancel_left]

theorem onBoundary_literalLength (quote : Char) (cs : List Char) :
    onBoundary (literalLength quote cs) cs = true := by
  obtain ⟨inner, rest, -, rfl, hlength, -⟩ := exists_codeIn_literal [] [] quote 0 cs
  rw [← hlength]
  exact onBoundary_byteLength inner rest

theorem onBoundary_blockLength (star : Bool) (cs : List Char) :
    onBoundary (blockLength star cs) cs = true := by
  induction cs generalizing star with
  | nil => rfl
  | cons c cs ih =>
    rw [blockLength]
    split
    · exact onBoundary_byteLength [c] cs
    · exact onBoundary_cons_add c (ih _)

theorem onBoundary_lineLength (cs : List Char) : onBoundary (lineLength cs) cs = true := by
  have h := onBoundary_byteLength (cs.takeWhile (· ≠ '\n')) (cs.dropWhile (· ≠ '\n'))
  rwa [List.takeWhile_append_dropWhile] at h

theorem onBoundary_commentLength? (h : commentLength? rules c cs = some n) :
    onBoundary n cs = true := by
  unfold commentLength? at h
  split at h
  · next hopen =>
    obtain ⟨rest, rfl⟩ := List.head?_eq_some_iff.mp hopen.2
    obtain rfl := Option.some.inj h
    exact onBoundary_cons_add '*' (onBoundary_blockLength false rest)
  · split at h
    · obtain rfl := Option.some.inj h
      exact onBoundary_lineLength cs
    · cases h

end Lengths

section Leaps

variable {rules : LexicalRules} {offset : Nat} {c : Char} {cs : List Char}

/-- In a literal the reading goes on in code behind it. -/
theorem commentsFrom_literal (rules : LexicalRules) (quote : Char) (offset : Nat) (cs : List Char) :
    commentsFrom rules (.literal quote) offset cs =
      commentsFrom rules .code (offset + literalLength quote cs)
        (dropBytes (literalLength quote cs) cs) := by
  fun_induction literalLength quote cs generalizing offset with
  | case1 => rfl
  | case2 => rfl
  | case3 c cs ih =>
    have hsize : '\\'.utf8Size = 1 := rfl
    have hdrop := dropBytes_append ['\\', c] (literalLength quote cs) cs
    rw [byteLength_cons, byteLength_cons, byteLength_nil, hsize, Nat.add_zero, List.cons_append,
      List.cons_append, List.nil_append] at hdrop
    rw [hdrop, ← Nat.add_assoc, ← Nat.add_assoc, ← ih]
    rfl
  | case4 cs hlast hescape =>
    have hback := ne_backslash hlast hescape
    rw [commentsFrom_cons, CommentReading.step, if_neg hback, if_pos rfl]
    exact congrArg (commentsFrom rules .code _) (dropBytes_byteLength [quote] cs).symm
  | case5 c cs hlast hescape hquote hbreak =>
    have hback := ne_backslash hlast hescape
    have hstep : CommentReading.step rules offset c cs (.literal quote) =
        ([], CommentReading.afterCode rules offset c cs) := by
      rw [CommentReading.step, if_neg hback, if_neg hquote, if_pos hbreak]
    rw [Nat.add_zero, dropBytes_zero, commentsFrom_cons, hstep, commentsFrom_cons]
    rfl
  | case6 c cs hlast hescape hquote hbreak ih =>
    have hback := ne_backslash hlast hescape
    rw [commentsFrom_cons, CommentReading.step, if_neg hback, if_neg hquote, if_neg hbreak,
      dropBytes_cons_add, ← Nat.add_assoc]
    exact ih _

/-- A block comment is listed up to its end. -/
theorem commentsFrom_block (rules : LexicalRules) (start : Nat) (star : Bool) (offset : Nat)
    (cs : List Char) :
    commentsFrom rules (.block start star) offset cs = ⟨start, offset + blockLength star cs⟩ ::
      commentsFrom rules .code (offset + blockLength star cs)
        (dropBytes (blockLength star cs) cs) := by
  induction cs generalizing star offset with
  | nil => rfl
  | cons c cs ih =>
    rw [commentsFrom_cons, CommentReading.step, blockLength]
    by_cases hclose : (star && c == '/') = true
    · obtain rfl : c = '/' := by simpa using (Bool.and_eq_true_iff.mp hclose).2
      rw [if_pos hclose, if_pos hclose]
      exact congrArg (_ :: commentsFrom rules .code _ ·) (dropBytes_byteLength ['/'] cs).symm
    · rw [if_neg hclose, if_neg hclose, dropBytes_cons_add, ← Nat.add_assoc]
      exact ih _ _

/-- A comment that ends with its line is listed up to there. -/
theorem commentsFrom_line (rules : LexicalRules) (start offset : Nat) (cs : List Char) :
    commentsFrom rules (.line start) offset cs = ⟨start, offset + lineLength cs⟩ ::
      commentsFrom rules .code (offset + lineLength cs) (dropBytes (lineLength cs) cs) := by
  induction cs generalizing offset with
  | nil => rfl
  | cons c cs ih =>
    rw [commentsFrom_cons, CommentReading.step]
    by_cases hc : c = '\n'
    · have hlength : lineLength (c :: cs) = 0 := by
        rw [lineLength, List.takeWhile_cons_of_neg (by simpa using hc)]
        rfl
      rw [if_pos hc, hlength, Nat.add_zero, dropBytes_zero, commentsFrom_cons]
      rfl
    · have hlength : lineLength (c :: cs) = c.utf8Size + lineLength cs := by
        rw [lineLength, List.takeWhile_cons_of_pos (by simpa using hc)]
        rfl
      rw [if_neg hc, hlength, dropBytes_cons_add, ← Nat.add_assoc]
      exact ih _

/-- The comments from a character of code on, by the leap that the character makes. -/
theorem commentsFrom_code_cons (rules : LexicalRules) (offset : Nat) (c : Char) (cs : List Char) :
    commentsFrom rules .code offset (c :: cs) =
      if rules.quotes.contains c then
        commentsFrom rules .code (offset + c.utf8Size + literalLength c cs)
          (dropBytes (literalLength c cs) cs)
      else match commentLength? rules c cs with
        | some n => ⟨offset, offset + c.utf8Size + n⟩ ::
          commentsFrom rules .code (offset + c.utf8Size + n) (dropBytes n cs)
        | none => commentsFrom rules .code (offset + c.utf8Size) cs := by
  rw [commentsFrom_cons, CommentReading.step, CommentReading.afterCode, commentLength?]
  by_cases hquote : rules.quotes.contains c = true
  · rw [if_pos hquote, if_pos hquote]
    exact commentsFrom_literal rules c _ cs
  · rw [if_neg hquote, if_neg hquote]
    by_cases hopen : c = '/' ∧ cs.head? = some '*'
    · rw [if_pos hopen, if_pos hopen]
      obtain ⟨rest, rfl⟩ := List.head?_eq_some_iff.mp hopen.2
      have hlength : 1 + blockLength false rest = '*'.utf8Size + blockLength false rest := rfl
      rw [List.nil_append, commentsFrom_cons, List.tail_cons]
      dsimp only
      rw [hlength, dropBytes_cons_add, ← Nat.add_assoc]
      exact commentsFrom_block rules offset false _ rest
    · rw [if_neg hopen, if_neg hopen]
      split
      · exact commentsFrom_line rules offset _ cs
      · rfl

end Leaps

namespace SourceText

variable {s : SourceText} {front back cs : List Char} {c : Char}

/-- The reading for comments stands in code at the cut: the comments ahead are those met from it on. -/
structure InStep (s : SourceText) (front back : List Char) : Prop where
  chars_eq : s.chars = front ++ back
  comments_split : ∃ done, s.comments = done ++ commentsFrom s.rules .code (byteLength front) back ∧
    ∀ span ∈ done, span.stop ≤ byteLength front

/-- No comment starts between the two bytes. -/
def NoneStarts (s : SourceText) (start stop : Nat) : Prop :=
  ∀ span ∈ s.comments, span.start < start ∨ stop ≤ span.start

theorem InStep.onBoundary (h : s.InStep front back) :
    onBoundary (byteLength front) s.chars = true :=
  onBoundary_iff.mpr ⟨front, back, h.chars_eq, rfl⟩

theorem inStep_start (s : SourceText) : s.InStep [] s.chars :=
  ⟨rfl, [], s.comments_eq, List.forall_mem_nil _⟩

/-- If the comments ahead are those from a later cut on, the reading leaps there, and no comment starts
before. -/
theorem InStep.leap {inner rest : List Char} (h : s.InStep front (inner ++ rest))
    (hcomments : commentsFrom s.rules .code (byteLength front) (inner ++ rest) =
      commentsFrom s.rules .code (byteLength (front ++ inner)) rest) :
    s.InStep (front ++ inner) rest ∧ s.NoneStarts (byteLength front) (byteLength (front ++ inner)) := by
  obtain ⟨done, hsplit, hdone⟩ := h.comments_split
  rw [hcomments] at hsplit
  have hlength := byteLength_append front inner
  refine ⟨⟨by rw [h.chars_eq, List.append_assoc], done, hsplit, fun span hspan => ?_⟩, ?_⟩
  · have := hdone span hspan
    omega
  · intro span hspan
    have hlt := start_lt_stop hspan
    rw [hsplit] at hspan
    rcases List.mem_append.mp hspan with hspan | hspan
    · have := hdone span hspan
      exact Or.inl (by omega)
    · exact Or.inr ((pairwise_commentsFrom (by simp [CommentReading.openStart?])).2 span hspan).1

theorem commentEnd?_eq_some_iff {offset stop : Nat} :
    s.commentEnd? offset = some stop ↔
      ∃ span ∈ s.comments, span.stop = stop ∧ span.start ≤ offset ∧ offset < span.stop := by
  constructor
  · intro h
    obtain ⟨span, hspan, hstop⟩ := Option.map_eq_some_iff.mp h
    have hcovers := List.find?_some hspan
    exact ⟨span, List.mem_of_find?_eq_some hspan, hstop, Span.covers_iff.mp hcovers⟩
  · rintro ⟨span, hspan, rfl, hcovers⟩
    have hfound : (s.comments.find? (·.covers offset)).isSome = true :=
      List.find?_isSome.mpr ⟨span, hspan, Span.covers_iff.mpr hcovers⟩
    obtain ⟨found, hfind⟩ := Option.isSome_iff_exists.mp hfound
    have hother := List.find?_some hfind
    rw [Span.covers_iff] at hother
    rw [commentEnd?, hfind]
    -- of two comments one ends before the other starts
    rcases eq_or_le_of_mem_comments (List.mem_of_find?_eq_some hfind) hspan with rfl | hle | hle
    · rfl
    all_goals omega

theorem commentEnd?_eq_none_of_noneStarts {start stop offset : Nat}
    (hbehind : ∀ span ∈ s.comments, span.start < start → span.stop ≤ offset)
    (h : s.NoneStarts start stop) (hlt : offset < stop) : s.commentEnd? offset = none := by
  cases hcomment : s.commentEnd? offset with
  | none => rfl
  | some end_ =>
    obtain ⟨span, hspan, -, hle, hlt'⟩ := commentEnd?_eq_some_iff.mp hcomment
    rcases h span hspan with hbefore | hafter
    · have := hbehind span hspan hbefore
      omega
    · omega

theorem InStep.stop_le {span : Span} (h : s.InStep front back) (hspan : span ∈ s.comments)
    (hlt : span.start < byteLength front) : span.stop ≤ byteLength front := by
  obtain ⟨done, hsplit, hdone⟩ := h.comments_split
  rw [hsplit] at hspan
  rcases List.mem_append.mp hspan with hspan | hspan
  · exact hdone span hspan
  · have hle : byteLength front ≤ span.start :=
      ((pairwise_commentsFrom (by simp [CommentReading.openStart?])).2 span hspan).1
    omega

/-- Behind a comment that starts where the reading for comments stands, it stands in code again. -/
theorem InStep.behind_comment {inner rest : List Char} (h : s.InStep front (c :: (inner ++ rest)))
    (hcomments : commentsFrom s.rules .code (byteLength front) (c :: (inner ++ rest)) =
      ⟨byteLength front, byteLength (front ++ c :: inner)⟩ ::
        commentsFrom s.rules .code (byteLength (front ++ c :: inner)) rest) :
    ⟨byteLength front, byteLength (front ++ c :: inner)⟩ ∈ s.comments ∧
      s.InStep (front ++ c :: inner) rest := by
  obtain ⟨done, hsplit, hdone⟩ := h.comments_split
  rw [hcomments] at hsplit
  have hspan : ⟨byteLength front, byteLength (front ++ c :: inner)⟩ ∈ s.comments := by
    rw [hsplit]
    exact List.mem_append_right _ List.mem_cons_self
  refine ⟨hspan, by rw [h.chars_eq, List.append_assoc, List.cons_append],
    done ++ [⟨byteLength front, byteLength (front ++ c :: inner)⟩], ?_, ?_⟩
  · rw [hsplit, List.append_assoc, List.singleton_append]
  · intro span hmem
    rcases List.mem_append.mp hmem with hmem | hmem
    · exact Nat.le_trans (hdone span hmem) (start_lt_stop hspan).le
    · rw [List.mem_singleton.mp hmem]

/-- A leap that passes over no comment starts outside comments. -/
theorem InStep.behind_code {inner rest : List Char} (h : s.InStep front (c :: (inner ++ rest)))
    (hcomments : commentsFrom s.rules .code (byteLength front) (c :: (inner ++ rest)) =
      commentsFrom s.rules .code (byteLength (front ++ c :: inner)) rest) :
    s.commentEnd? (byteLength front) = none ∧ s.InStep (front ++ c :: inner) rest ∧
      s.NoneStarts (byteLength front) (byteLength (front ++ c :: inner)) := by
  obtain ⟨hnext, hnone⟩ := @InStep.leap s front (c :: inner) rest h hcomments
  have hsize := c.utf8Size_pos
  refine ⟨commentEnd?_eq_none_of_noneStarts (fun span => h.stop_le) hnone ?_, hnext, hnone⟩
  rw [byteLength_append, byteLength_cons]
  omega

/-- The leaps of the reading from a character in code: over a comment that starts there, over a literal
that opens there, or over the character. -/
theorem InStep.cases (h : s.InStep front (c :: cs)) :
    (∃ inner rest, cs = inner ++ rest ∧
      ⟨byteLength front, byteLength (front ++ c :: inner)⟩ ∈ s.comments ∧
      s.commentEnd? (byteLength front) = some (byteLength (front ++ c :: inner)) ∧
      s.InStep (front ++ c :: inner) rest) ∨
    ∃ inner rest, cs = inner ++ rest ∧ s.commentEnd? (byteLength front) = none ∧
      s.InStep (front ++ c :: inner) rest ∧
      s.NoneStarts (byteLength front) (byteLength (front ++ c :: inner)) ∧
      ((s.rules.quotes.contains c = true ∧ byteLength inner = literalLength c cs) ∨
        s.rules.quotes.contains c = false ∧ inner = []) := by
  have hleaps := commentsFrom_code_cons s.rules (byteLength front) c cs
  have hlength : ∀ inner, byteLength (front ++ c :: inner) =
      byteLength front + c.utf8Size + byteLength inner := by
    intro inner
    rw [byteLength_append, byteLength_cons, Nat.add_assoc]
  by_cases hquote : s.rules.quotes.contains c = true
  · obtain ⟨inner, rest, rfl, hinner⟩ := onBoundary_iff.mp (onBoundary_literalLength c cs)
    rw [if_pos hquote, ← hinner, dropBytes_byteLength, ← hlength] at hleaps
    obtain ⟨hfree, hnext, hnone⟩ := h.behind_code hleaps
    exact Or.inr ⟨inner, rest, rfl, hfree, hnext, hnone, Or.inl ⟨hquote, hinner⟩⟩
  rw [if_neg hquote] at hleaps
  cases hcomment : commentLength? s.rules c cs with
  | none =>
    rw [hcomment] at hleaps
    obtain ⟨hfree, hnext, hnone⟩ :=
      @InStep.behind_code s front c [] cs h (by rw [hlength]; exact hleaps)
    exact Or.inr ⟨[], cs, rfl, hfree, hnext, hnone, Or.inr ⟨by simpa using hquote, rfl⟩⟩
  | some n =>
    obtain ⟨inner, rest, rfl, rfl⟩ := onBoundary_iff.mp (onBoundary_commentLength? hcomment)
    rw [hcomment] at hleaps
    dsimp only at hleaps
    rw [dropBytes_byteLength, ← hlength] at hleaps
    obtain ⟨hspan, hnext⟩ := h.behind_comment hleaps
    have hend : s.commentEnd? (byteLength front) = some (byteLength (front ++ c :: inner)) :=
      commentEnd?_eq_some_iff.mpr ⟨_, hspan, rfl, Nat.le_refl _, start_lt_stop hspan⟩
    exact Or.inl ⟨inner, rest, rfl, hspan, hend, hnext⟩

/-- The leaps of a run from where the reading for comments stands in code: over a comment, over a
literal, or over a character of code, which it meets. No other comment starts in between. -/
theorem InStep.meets_cases {code : List CodeChar} (h : s.InStep front (c :: cs))
    (hmeets : s.Meets (byteLength front) code) :
    (∃ inner rest, cs = inner ++ rest ∧
      ⟨byteLength front, byteLength (front ++ c :: inner)⟩ ∈ s.comments ∧
      s.commentEnd? (byteLength front) = some (byteLength (front ++ c :: inner)) ∧
      s.InStep (front ++ c :: inner) rest ∧ s.Meets (byteLength (front ++ c :: inner)) code) ∨
    (∃ inner rest, cs = inner ++ rest ∧ s.inComment (byteLength front) = false ∧
      s.stringEnd? (byteLength front) = some (byteLength (front ++ c :: inner)) ∧
      s.InStep (front ++ c :: inner) rest ∧
      s.NoneStarts (byteLength front) (byteLength (front ++ c :: inner)) ∧
      s.Meets (byteLength (front ++ c :: inner)) code) ∨
    ∃ later, code = ⟨byteLength front, c⟩ :: later ∧ s.inComment (byteLength front) = false ∧
      c ∉ s.rules.quotes ∧ s.InStep (front ++ [c]) cs ∧
      s.NoneStarts (byteLength front) (byteLength (front ++ [c])) ∧
      s.Meets (byteLength (front ++ [c])) later := by
  have hchar : s.charAt? (byteLength front) = some c :=
    charAt?_eq_some_iff.mpr ⟨front, cs, h.chars_eq, rfl⟩
  rcases h.cases with ⟨inner, rest, hcs, hspan, hcomment, hnext⟩ |
    ⟨inner, rest, rfl, hnone, hnext, hstarts, ⟨hquote, hlength⟩ | ⟨hquote, rfl⟩⟩
  · refine Or.inl ⟨inner, rest, hcs, hspan, hcomment, hnext, ?_⟩
    have hrun := Meets.comment hcomment (meets_codeFrom hnext.onBoundary)
    exact hmeets.unique hrun ▸ meets_codeFrom hnext.onBoundary
  · have hfree : s.inComment (byteLength front) = false := by rw [inComment, hnone]; rfl
    have hstop : s.stringEnd? (byteLength front) = some (byteLength (front ++ c :: inner)) := by
      rw [stringEnd?_of_quote h.chars_eq hquote, ← hlength, byteLength_append, byteLength_cons,
        Nat.add_assoc]
    have hrun := Meets.literal hfree hstop (meets_codeFrom hnext.onBoundary)
    exact Or.inr (Or.inl ⟨inner, rest, rfl, hfree, hstop, hnext, hstarts,
      hmeets.unique hrun ▸ meets_codeFrom hnext.onBoundary⟩)
  · have hfree : s.inComment (byteLength front) = false := by rw [inComment, hnone]; rfl
    have hquote : c ∉ s.rules.quotes := by simpa using hquote
    have hrun : s.Meets (byteLength front)
        (⟨byteLength front, c⟩ :: s.codeFrom (byteLength (front ++ [c]))) := by
      refine .code hfree hchar hquote ?_
      rw [← byteLength_concat]
      exact meets_codeFrom hnext.onBoundary
    refine Or.inr (Or.inr ⟨s.codeFrom (byteLength (front ++ [c])), hmeets.unique hrun, hfree, hquote,
      hnext, hstarts, meets_codeFrom hnext.onBoundary⟩)

/-- Behind a character that a run meets, the run goes on and the reading for comments stands in code. -/
theorem InStep.exists_behind {lead tail : List CodeChar} {x : CodeChar} (h : s.InStep front back)
    (hmeets : s.Meets (byteLength front) (lead ++ x :: tail)) :
    ∃ front' back', byteLength front' = x.offset ∧ s.InStep (front' ++ [x.char]) back' ∧
      s.Meets (byteLength (front' ++ [x.char])) tail := by
  induction hn : back.length using Nat.strongRecOn generalizing front back lead with
  | ind n ih =>
    subst hn
    cases back with
    | nil =>
      have hend : s.length ≤ byteLength front := by rw [length, h.chars_eq, List.append_nil]
      simpa using hmeets.unique (.done hend)
    | cons c cs =>
      have hshorter : ∀ inner rest : List Char, rest.length < (c :: (inner ++ rest)).length := by
        intro inner rest
        rw [List.length_cons, List.length_append]
        omega
      rcases h.meets_cases hmeets with ⟨inner, rest, rfl, -, -, hnext, hlater⟩ |
        ⟨inner, rest, rfl, -, -, hnext, -, hlater⟩ | ⟨later, hcode, -, -, hnext, -, hlater⟩
      · exact ih rest.length (hshorter inner rest) hnext hlater rfl
      · exact ih rest.length (hshorter inner rest) hnext hlater rfl
      · cases lead with
        | nil =>
          obtain ⟨rfl, rfl⟩ := List.cons.inj hcode
          exact ⟨front, cs, rfl, hnext, hlater⟩
        | cons y lead =>
          obtain ⟨-, rfl⟩ := List.cons.inj hcode
          exact ih cs.length (Nat.lt_succ_self _) hnext hlater rfl

end SourceText

end Concordance
