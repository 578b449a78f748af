import Concordance.Proofs.Source.CodeReading

/-!
A text in which lines without code give way to other lines without code.

What stands before the lines stays where it is and what stands behind them moves on, with its comments,
its literals and its code. Main statements: `inComment_move`, `outsideLiteral_move` and
`visibleCode_after`.
-/

namespace Concordance

open Text

/-- Whole lines without code, after which code goes on. -/
structure Quiet (rules : LexicalRules) (text : List Char) : Prop where
  whole : WholeLines text
  read : readThrough rules .code text = .code
  bare : codeFrom rules .code text = []

section Quiet

variable {rules : LexicalRules} {pre post : List Char} {c q : Char}

theorem covers_of_uncovered_eq_nil {spans : List Span} {offset : Nat}
    (h : uncovered spans offset (pre ++ c :: post) = []) (hc : isBlank c = false) :
    spans.any (·.covers (offset + byteLength pre)) = true := by
  induction pre generalizing offset with
  | nil =>
    obtain ⟨hfirst, -⟩ := List.append_eq_nil_iff.mp h
    simpa [hc] using hfirst
  | cons d pre ih =>
    obtain ⟨-, hrest⟩ := List.append_eq_nil_iff.mp h
    rw [byteLength_cons, ← Nat.add_assoc]
    exact ih hrest

/-- What can be seen in quiet lines stands in a comment. -/
theorem Quiet.covers (h : Quiet rules (pre ++ c :: post)) (hc : isBlank c = false) :
    (commentSpans rules (pre ++ c :: post)).any (·.covers (byteLength pre)) = true := by
  have hbare : bareCode rules (pre ++ c :: post) = [] := by
    rw [bareCode_eq_codeFrom, h.bare]
  have hcovers := covers_of_uncovered_eq_nil hbare hc
  rwa [Nat.zero_add] at hcovers

/-- A comment goes on behind a character that does not end it, on the same line. -/
theorem CommentReading.hides_next {r : CommentReading} (h : r.hides rules q (c :: post) = true)
    (hq : q ≠ '/') (hc : c ≠ '\n') : (r.next rules q (c :: post)).hides rules c post = true := by
  -- behind a mark that opens a comment up to the end of the line
  have hafter : (afterCode rules 0 q (c :: post)).openStart?.isSome = true →
      (afterCode rules 0 q (c :: post)).hides rules c post = true := by
    unfold afterCode
    split
    · intro h
      cases h
    · rw [if_neg fun h => hq h.1]
      split
      · intro _
        simp [hides, next, step, hc, openStart?]
      · intro h
        cases h
  cases r with
  | code => exact hafter h
  | escaped quote => cases h
  | literal quote =>
    simp only [hides, inBlock, Bool.false_or, next, step] at h
    simp only [next, step]
    split at h
    · cases h
    · next hback =>
      rw [if_neg hback]
      split at h
      · cases h
      · next hquote =>
        rw [if_neg hquote]
        split at h
        · next hbreak =>
          rw [if_pos hbreak]
          exact hafter h
        · cases h
  | opening start => rfl
  | block start star =>
    have hopen : ¬ (star && q == '/') = true := by simp [hq]
    show CommentReading.hides rules c post (step rules 0 q (c :: post) (.block start star)).2 = true
    rw [step, if_neg hopen]
    rfl
  | line start =>
    by_cases hend : q = '\n'
    · subst hend
      exact hafter h
    · simp [next, step, hend, hides, hc, openStart?]

theorem any_covers_commentSpans (rules : LexicalRules) (pre : List Char) (c : Char)
    (post : List Char) :
    (commentSpans rules (pre ++ c :: post)).any (·.covers (byteLength pre)) =
      (readAcross rules .code pre (c :: post)).hides rules c post := by
  obtain ⟨done, r, hspans, hread, hdone, hstart⟩ := exists_commentsFrom_append rules .code 0
    (by simp [CommentReading.openStart?]) pre (c :: post)
  rw [Nat.zero_add] at hspans hdone hstart
  have hpast : done.any (·.covers (byteLength pre)) = false := by
    rw [List.any_eq_false]
    intro span hspan
    have := hdone span hspan
    rw [Span.covers_iff]
    omega
  rw [commentSpans, hspans, List.any_append, hpast, Bool.false_or, covers_offset_eq_hides hstart,
    hread]
  rfl

/-- What stands behind it on the line stands in the comment too. -/
theorem Quiet.covers_next (h : Quiet rules (pre ++ q :: c :: post)) (hblank : isBlank q = false)
    (hq : q ≠ '/') (hc : c ≠ '\n') :
    (commentSpans rules (pre ++ q :: c :: post)).any (·.covers (byteLength (pre ++ [q]))) =
      true := by
  have hfirst := h.covers hblank
  rw [any_covers_commentSpans] at hfirst
  have hsplit : pre ++ q :: c :: post = (pre ++ [q]) ++ c :: post := by simp
  rw [hsplit, any_covers_commentSpans, readAcross_append_left]
  exact CommentReading.hides_next hfirst hq hc

end Quiet

/-- Lines without code behind `front` and before `back`, and those that take their place. -/
structure Change (rules : LexicalRules) where
  front : List Char
  old : List Char
  new : List Char
  back : List Char
  usual : rules.Usual
  whole : WholeLines front
  read : readThrough rules .code front = .code
  old_quiet : Quiet rules old
  new_quiet : Quiet rules new

namespace Change

variable {rules : LexicalRules} (e : Change rules)

/-- The text with the old lines. -/
def before : SourceText :=
  .ofChars rules (e.front ++ (e.old ++ e.back))

/-- The text with the new lines. -/
def after : SourceText :=
  .ofChars rules (e.front ++ (e.new ++ e.back))

/-- The change that takes the new lines back. -/
def swap : Change rules :=
  { e with
    old := e.new
    new := e.old
    old_quiet := e.new_quiet
    new_quiet := e.old_quiet }

/-- Where the lines start. -/
def start : Nat :=
  byteLength e.front

/-- Where the old lines end. -/
def stop : Nat :=
  byteLength e.front + byteLength e.old

/-- Where the byte stands after the change. -/
def move (offset : Nat) : Nat :=
  if offset < e.start then offset else offset - byteLength e.old + byteLength e.new

/-- The byte lies before the old lines or behind them. -/
def Beside (offset : Nat) : Prop :=
  offset < e.start ∨ e.stop ≤ offset

/-- Where a stretch starts, before and after: up to the start of the lines, where it stays, or behind
them, where it moves on. -/
def Starts (o o' : Nat) : Prop :=
  o ≤ e.start ∧ o' = o ∨ e.stop ≤ o ∧ o' = e.move o

section Order

variable {e} {o o' k : Nat}

theorem move_of_lt (h : o < e.start) : e.move o = o :=
  if_pos h

theorem move_stop_add (k : Nat) : e.move (e.stop + k) = e.swap.stop + k := by
  have hstart : ¬ e.stop + k < e.start := by
    unfold start stop
    omega
  rw [move, if_neg hstart]
  show e.stop + k - byteLength e.old + byteLength e.new =
    byteLength e.front + byteLength e.new + k
  unfold stop
  omega

theorem Beside.cases (h : e.Beside o) : o < e.start ∨ ∃ k, o = e.stop + k :=
  h.imp_right Nat.exists_eq_add_of_le

theorem beside_stop_add (k : Nat) : e.Beside (e.stop + k) :=
  Or.inr (Nat.le_add_right _ _)

theorem start_le_stop : e.start ≤ e.stop :=
  Nat.le_add_right _ _

theorem move_lt_move_iff (h : e.Beside o) (h' : e.Beside o') : e.move o < e.move o' ↔ o < o' := by
  have hle : e.start ≤ e.stop := start_le_stop
  have hle' : e.start ≤ e.swap.stop := start_le_stop (e := e.swap)
  rcases h.cases with h | ⟨k, rfl⟩ <;> rcases h'.cases with h' | ⟨k', rfl⟩
  · rw [move_of_lt h, move_of_lt h']
  · rw [move_of_lt h, move_stop_add]
    omega
  · rw [move_stop_add, move_of_lt h']
    omega
  · rw [move_stop_add, move_stop_add]
    omega

theorem move_le_move_iff (h : e.Beside o) (h' : e.Beside o') : e.move o ≤ e.move o' ↔ o ≤ o' := by
  rw [← Nat.not_lt, ← Nat.not_lt, move_lt_move_iff h' h]

theorem Beside.starts (h : e.Beside o) : e.Starts o (e.move o) :=
  h.imp (fun h => ⟨h.le, move_of_lt h⟩) fun h => ⟨h, rfl⟩

theorem starts_zero : e.Starts 0 0 :=
  Or.inl ⟨Nat.zero_le _, rfl⟩

theorem Starts.le_move_iff (h : e.Starts o o') (hk : e.Beside k) : o' ≤ e.move k ↔ o ≤ k := by
  have hle : e.start ≤ e.stop := start_le_stop
  have hle' : e.start ≤ e.swap.stop := start_le_stop (e := e.swap)
  rcases h with ⟨ho, rfl⟩ | ⟨ho, rfl⟩
  · rcases hk.cases with hk | ⟨k, rfl⟩
    · rw [move_of_lt hk]
    · rw [move_stop_add]
      omega
  · exact move_le_move_iff (Or.inr ho) hk

/-- The end of the text moves with it. -/
theorem length_after : e.after.length = e.move e.before.length ∧ e.Beside e.before.length := by
  have hbefore : e.before.length = e.stop + byteLength e.back := by
    simp [before, SourceText.ofChars, SourceText.length, stop, Nat.add_assoc]
  have hafter : e.after.length = e.swap.stop + byteLength e.back := by
    simp [after, swap, SourceText.ofChars, SourceText.length, stop, Nat.add_assoc]
  rw [hbefore, hafter, move_stop_add]
  exact ⟨rfl, beside_stop_add _⟩

end Order

section Comments

theorem comments_before : e.before.comments = commentSpans rules e.front ++
    ((commentSpans rules e.old).map (Span.map (· + e.start)) ++
      (commentSpans rules e.back).map (Span.map (· + e.stop))) := by
  have hold := commentsFrom_shift rules .code 0 e.start e.old
  have hback := commentsFrom_shift rules .code 0 e.stop e.back
  rw [Nat.zero_add] at hold hback
  rw [e.before.comments_eq]
  show commentsFrom rules .code 0 (e.front ++ (e.old ++ e.back)) = _
  rw [commentsFrom_append (r := .code) e.usual e.whole e.read, Nat.zero_add,
    commentsFrom_append (r := .code) e.usual e.old_quiet.whole e.old_quiet.read]
  exact congrArg₂ _ rfl (congrArg₂ _ hold hback)

/-- Before the lines the comments are those of the text before them. -/
theorem inComment_front {o : Nat} (h : o < e.start) :
    e.before.inComment o = (commentSpans rules e.front).any (·.covers o) := by
  have hstop : o < e.stop := Nat.lt_of_lt_of_le h start_le_stop
  rw [SourceText.inComment_eq_any, comments_before, List.any_append, List.any_append, List.any_map,
    List.any_map]
  simp [Function.comp_def, Span.covers_map_add_of_lt, h, hstop]

/-- Behind the lines the comments are those of the text behind them. -/
theorem inComment_back (k : Nat) :
    e.before.inComment (e.stop + k) = (commentSpans rules e.back).any (·.covers k) := by
  have hfront : (commentSpans rules e.front).any (·.covers (e.stop + k)) = false := by
    rw [List.any_eq_false]
    intro span hspan
    have hle := stop_le_of_mem_commentSpans hspan
    rw [Span.covers_iff, stop]
    omega
  have hold : ((commentSpans rules e.old).map (Span.map (· + e.start))).any
      (·.covers (e.stop + k)) = false := by
    rw [List.any_eq_false]
    intro span hspan
    obtain ⟨inner, hinner, rfl⟩ := List.mem_map.mp hspan
    have hle := stop_le_of_mem_commentSpans hinner
    rw [Span.covers_iff]
    show ¬ (_ ∧ byteLength e.front + byteLength e.old + k < inner.stop + byteLength e.front)
    omega
  rw [SourceText.inComment_eq_any, comments_before, List.any_append, List.any_append, hfront, hold,
    List.any_map]
  simp [Function.comp_def, Span.covers_map_add]

/-- In the lines the comments are those of the lines. -/
theorem inComment_old {k : Nat} (h : (commentSpans rules e.old).any (·.covers k) = true) :
    e.before.inComment (e.start + k) = true := by
  obtain ⟨span, hspan, hcovers⟩ := List.any_eq_true.mp h
  rw [SourceText.inComment_eq_any, comments_before, List.any_append, List.any_append, Bool.or_eq_true,
    Bool.or_eq_true]
  refine Or.inr (Or.inl (List.any_eq_true.mpr ⟨span.map (· + e.start), ?_, ?_⟩))
  · exact List.mem_map_of_mem hspan
  · rw [Span.covers_map_add, hcovers]

/-- Comments move with what they cover. -/
theorem inComment_move {o : Nat} (h : e.Beside o) :
    e.after.inComment (e.move o) = e.before.inComment o := by
  show e.swap.before.inComment (e.move o) = e.before.inComment o
  rcases h.cases with h | ⟨k, rfl⟩
  · rw [move_of_lt h, e.inComment_front h, e.swap.inComment_front h]
    rfl
  · rw [move_stop_add, e.inComment_back, e.swap.inComment_back]
    rfl

end Comments

section Literals

theorem readingAt_front {o : Nat} (h : o < e.start) :
    e.before.readingAt o =
      readAcross rules .code (takeBytes o e.front) (dropBytes o e.front) := by
  show readAcross rules .code (takeBytes o (e.front ++ (e.old ++ e.back)))
    (dropBytes o (e.front ++ (e.old ++ e.back))) = _
  rw [takeBytes_append_of_le (Nat.le_of_lt h), dropBytes_append_of_le (Nat.le_of_lt h)]
  exact readAcross_append e.usual .code _ (last_dropBytes e.whole h) _

theorem readingAt_back (k : Nat) :
    e.before.readingAt (e.stop + k) =
      readAcross rules .code (takeBytes k e.back) (dropBytes k e.back) := by
  show readAcross rules .code (takeBytes (e.stop + k) (e.front ++ (e.old ++ e.back)))
    (dropBytes (e.stop + k) (e.front ++ (e.old ++ e.back))) = _
  rw [stop, Nat.add_assoc, takeBytes_append, dropBytes_append, takeBytes_append, dropBytes_append,
    readAcross_append_left, readAcross_of_wholeLines e.usual e.whole, e.read,
    readAcross_append_left, readAcross_of_wholeLines e.usual e.old_quiet.whole, e.old_quiet.read]

/-- Literals move with what they cover. -/
theorem outsideLiteral_move {o : Nat} (h : e.Beside o) :
    e.after.OutsideLiteral (e.move o) ↔ e.before.OutsideLiteral o := by
  have hreading : e.swap.before.readingAt (e.move o) = e.before.readingAt o := by
    rcases h.cases with h | ⟨k, rfl⟩
    · rw [move_of_lt h, e.readingAt_front h, e.swap.readingAt_front h]
      rfl
    · rw [move_stop_add, e.readingAt_back, e.swap.readingAt_back]
      rfl
  show (e.swap.before.readingAt (e.move o)).inLiteral = false ↔ _
  rw [hreading]
  rfl

end Literals

section Code

theorem code_before : e.before.code = codeChars rules .code 0 e.front ++
    (codeChars rules .code e.start e.old ++
      (codeChars rules .code 0 e.back).map (CodeChar.map (· + e.stop))) := by
  have hback := codeChars_add rules .code 0 e.stop e.back
  rw [Nat.zero_add] at hback
  show codeChars rules .code 0 (e.front ++ (e.old ++ e.back)) = _
  rw [codeChars_append e.usual e.whole, e.read, Nat.zero_add,
    codeChars_append e.usual e.old_quiet.whole, e.old_quiet.read, ← hback]
  rfl

theorem visibleCode_before : e.before.visibleCode =
    (codeChars rules .code 0 e.front).filter (fun x => !isBlank x.char) ++
      ((codeChars rules .code 0 e.back).filter fun x => !isBlank x.char).map
        (CodeChar.map (· + e.stop)) := by
  have hold : (codeChars rules .code e.start e.old).filter (fun x => !isBlank x.char) = [] := by
    rw [List.filter_eq_nil_iff]
    intro x hx hblank
    have hmem := mem_codeFrom_of_mem_codeChars hx (by simpa using hblank)
    rw [e.old_quiet.bare] at hmem
    cases hmem
  rw [SourceText.visibleCode, code_before, List.filter_append, List.filter_append, hold,
    List.nil_append, List.filter_map]
  rfl

theorem lt_start_of_mem_visible {x : CodeChar}
    (h : x ∈ (codeChars rules .code 0 e.front).filter fun x => !isBlank x.char) :
    x.offset + 1 < e.start := by
  obtain ⟨hmem, hblank⟩ := List.mem_filter.mp h
  obtain ⟨pre, post, hfront, hoffset, -⟩ := exists_of_mem_codeChars hmem
  have hlast : e.front.getLast? = some '\n' := e.whole.resolve_left (by simp [hfront])
  -- the line feed comes last and is no visible code
  have hpost : post ≠ [] := by
    rintro rfl
    rw [hfront, List.getLast?_concat] at hlast
    rw [Option.some.inj hlast] at hblank
    exact absurd hblank (by decide)
  obtain ⟨c, rest, rfl⟩ := List.exists_cons_of_ne_nil hpost
  have hx := x.char.utf8Size_pos
  have hc := c.utf8Size_pos
  rw [start, hfront, byteLength_append, byteLength_cons, byteLength_cons]
  omega

/-- The visible code moves on as a whole. -/
theorem visibleCode_after :
    e.after.visibleCode = e.before.visibleCode.map (CodeChar.map e.move) := by
  show e.swap.before.visibleCode = _
  rw [e.visibleCode_before, e.swap.visibleCode_before, List.map_append, List.map_map]
  refine congrArg₂ _ ?_ ?_
  · have hsame : ((codeChars rules .code 0 e.front).filter fun x => !isBlank x.char).map
        (CodeChar.map e.move) =
        ((codeChars rules .code 0 e.front).filter fun x => !isBlank x.char).map id := by
      refine List.map_congr_left fun x hx => ?_
      have hlt := e.lt_start_of_mem_visible hx
      show CodeChar.mk (e.move x.offset) x.char = x
      rw [move_of_lt (Nat.lt_of_succ_lt hlt)]
    rw [hsame, List.map_id]
    rfl
  · refine List.map_congr_left fun x _ => ?_
    show CodeChar.mk (x.offset + e.swap.stop) x.char = ⟨e.move (x.offset + e.stop), x.char⟩
    rw [Nat.add_comm x.offset e.stop, move_stop_add, Nat.add_comm]

/-- What is visible code lies beside the lines, and the byte behind it too. -/
theorem beside_of_mem_visibleCode {x : CodeChar} (h : x ∈ e.before.visibleCode) :
    e.Beside x.offset ∧ e.Beside (x.offset + 1) ∧ e.move (x.offset + 1) = e.move x.offset + 1 := by
  rw [visibleCode_before] at h
  rcases List.mem_append.mp h with h | h
  · have hlt := e.lt_start_of_mem_visible h
    have hlt' : x.offset < e.start := Nat.lt_of_succ_lt hlt
    exact ⟨Or.inl hlt', Or.inl hlt, by rw [move_of_lt hlt, move_of_lt hlt']⟩
  · obtain ⟨y, -, rfl⟩ := List.mem_map.mp h
    have hoffset : (y.map (· + e.stop)).offset = e.stop + y.offset := Nat.add_comm _ _
    rw [hoffset, Nat.add_assoc, move_stop_add, move_stop_add]
    exact ⟨beside_stop_add _, beside_stop_add _, rfl⟩

end Code

section Slices

variable {lo hi : Nat}

/-- A stretch before the lines. -/
theorem slice_front (hlo : onBoundary lo e.front = true) (hle : lo ≤ hi) (hhi : hi ≤ e.start) :
    e.before.slice lo hi = sliceBytes lo hi e.front := by
  have hlen : byteLength (takeBytes lo e.front) = lo := by simpa [onBoundary] using hlo
  have htotal : byteLength (takeBytes lo e.front) + byteLength (dropBytes lo e.front) = e.start := by
    rw [← byteLength_append, takeBytes_append_dropBytes, start]
  show takeBytes (hi - lo) (dropBytes lo (e.front ++ (e.old ++ e.back))) = _
  rw [dropBytes_append_of_le (Nat.le_trans hle hhi), takeBytes_append_of_le (by omega)]
  rfl

/-- A stretch behind the lines. -/
theorem slice_back (k k' : Nat) :
    e.before.slice (e.stop + k) (e.stop + k') = sliceBytes k k' e.back := by
  show takeBytes (e.stop + k' - (e.stop + k))
    (dropBytes (e.stop + k) (e.front ++ (e.old ++ e.back))) = _
  rw [Nat.add_sub_add_left, stop, Nat.add_assoc, dropBytes_append, dropBytes_append]
  rfl

/-- A stretch from before the lines to behind them. -/
theorem slice_across (hlo : onBoundary lo e.front = true) (hle : lo ≤ e.start) (k : Nat) :
    e.before.slice lo (e.stop + k) = dropBytes lo e.front ++ (e.old ++ takeBytes k e.back) := by
  have hlen : byteLength (takeBytes lo e.front) = lo := by simpa [onBoundary] using hlo
  have htotal : byteLength (takeBytes lo e.front) + byteLength (dropBytes lo e.front) = e.start := by
    rw [← byteLength_append, takeBytes_append_dropBytes, start]
  have hsize : e.stop + k - lo = byteLength (dropBytes lo e.front) + (byteLength e.old + k) := by
    have hstop : e.stop = e.start + byteLength e.old := rfl
    omega
  show takeBytes (e.stop + k - lo) (dropBytes lo (e.front ++ (e.old ++ e.back))) = _
  rw [dropBytes_append_of_le hle, hsize, takeBytes_append, takeBytes_append]

end Slices

end Change

end Concordance
