import Concordance.Proofs.Definition.Kept

/-!
The heads of rules in a stylesheet in which lines without code change.

What stands before the block of a rule is read as text, with the comments in it. So a head moves on as it
is only if it does not reach over an end of the lines; white space and comments at its front may. Main
statement: `Change.exists_headMoved`.
-/

namespace Concordance

open Text Pattern

section Places

variable {s : SourceText} {lines more : List Char} {a b c : Nat} {x : CodeChar}

theorem Text.lastLine_append_wholeLines (h : WholeLines lines) (more : List Char) :
    lastLine (lines ++ more) = lastLine more := by
  by_cases hmore : '\n' ∈ more
  · exact lastLine_append_of_mem hmore
  · have hlines : lastLine lines = [] := by
      rcases h with rfl | hlast
      · rfl
      · obtain ⟨lead, rfl⟩ := List.getLast?_eq_some_iff.mp hlast
        exact lastLine_newline lead
    have hself : lastLine ([] ++ more) = lastLine [] ++ more := lastLine_append_of_notMem hmore
    rw [lastLine_append_of_notMem hmore, hlines]
    exact hself.symm

namespace Stylesheet

/-- A brace belongs to an interpolation if its mark ends what stands before it on the line. -/
theorem isInterpolation_iff (h : x ∈ s.visibleCode) (hx : x.char ≠ '#') :
    isInterpolation s x.offset = true ↔ (s.beforeOnLine x.offset).getLast? = some '#' := by
  obtain ⟨pre, post, hchars, hpre, -⟩ := exists_of_mem_visibleCode h
  rw [← hpre, beforeOnLine_byteLength hchars, isInterpolation, beq_iff_eq,
    SourceText.charAt?_eq_some_iff]
  constructor
  · rintro ⟨front, back, hchars', hfront⟩
    rw [hchars] at hchars'
    have hsize : byteLength (front ++ ['#']) = byteLength front + 1 := byteLength_append _ _
    have hne : pre ≠ [] := by
      rintro rfl
      obtain rfl := byteLength_eq_zero_iff.mp hfront
      exact hx (List.cons.inj hchars').1
    have hpos : 0 < byteLength pre := Nat.pos_of_ne_zero fun hzero =>
      hne (byteLength_eq_zero_iff.mp hzero)
    obtain ⟨rfl, -⟩ := append_inj_byteLength (hchars'.trans (List.append_cons front '#' back))
      (by omega)
    rw [lastLine_append_of_notMem (by decide), List.getLast?_concat]
  · intro hlast
    have hsuffix : ['#'] <:+ lastLine pre := by
      obtain ⟨lead, hlead⟩ := List.getLast?_eq_some_iff.mp hlast
      exact ⟨lead, hlead.symm⟩
    obtain ⟨lead, rfl⟩ := hsuffix.trans (List.rtakeWhile_suffix _ pre)
    refine ⟨lead, x.char :: post, by rw [hchars, List.append_assoc]; rfl, ?_⟩
    have hsize : byteLength (lead ++ ['#']) = byteLength lead + 1 := byteLength_append _ _
    rw [hsize, Nat.add_sub_cancel]

end Stylesheet

namespace Change

variable {rules : LexicalRules} {e : Change rules} {o : Nat}

theorem beforeOnLine_front (ho : onBoundary o e.front = true) :
    e.before.beforeOnLine o = lastLine (takeBytes o e.front) := by
  obtain ⟨pre, post, hfront, rfl⟩ := onBoundary_iff.mp ho
  have hchars : e.before.chars = pre ++ (post ++ (e.old ++ e.back)) := by
    show e.front ++ (e.old ++ e.back) = _
    rw [hfront, List.append_assoc]
  rw [beforeOnLine_byteLength hchars, hfront, takeBytes_byteLength]

theorem beforeOnLine_back (ho : onBoundary o e.back = true) :
    e.before.beforeOnLine (e.stop + o) = lastLine (takeBytes o e.back) := by
  obtain ⟨pre, post, hback, rfl⟩ := onBoundary_iff.mp ho
  have hchars : e.before.chars = (e.front ++ (e.old ++ pre)) ++ post := by
    show e.front ++ (e.old ++ e.back) = _
    simp only [hback, List.append_assoc]
  have hplace : e.stop + byteLength pre = byteLength (e.front ++ (e.old ++ pre)) := by
    simp only [stop, byteLength_append, Nat.add_assoc]
  rw [hplace, beforeOnLine_byteLength hchars, lastLine_append_wholeLines e.whole,
    lastLine_append_wholeLines e.old_quiet.whole, hback, takeBytes_byteLength]

/-- What stands before a place on its line stays there. -/
theorem beforeOnLine_move (h : e.Beside o) (ho : onBoundary o e.before.chars = true) :
    e.after.beforeOnLine (e.move o) = e.before.beforeOnLine o := by
  show e.swap.before.beforeOnLine (e.move o) = _
  rcases h.cases with hlt | ⟨k, rfl⟩
  · rw [e.onBoundary_front hlt.le] at ho
    rw [move_of_lt hlt, beforeOnLine_front ho]
    exact beforeOnLine_front (e := e.swap) ho
  · rw [e.onBoundary_back] at ho
    rw [move_stop_add, beforeOnLine_back ho]
    exact beforeOnLine_back (e := e.swap) ho

theorem Starts.onBoundary_eq {o' : Nat} (h : e.Starts o o') :
    onBoundary o' e.after.chars = onBoundary o e.before.chars := by
  rcases h with ⟨hle, rfl⟩ | ⟨hle, rfl⟩
  · rw [e.onBoundary_front hle]
    exact e.swap.onBoundary_front hle
  · exact e.onBoundary_move (Or.inr hle)

/-- The brace that closes one moves on with it. -/
theorem matchingBrace?_move (h : x ∈ e.before.visibleCode) (hx : x.char = '{') :
    e.after.matchingBrace? (e.move x.offset) = (e.before.matchingBrace? x.offset).map e.move := by
  have hmem : x.map e.move ∈ e.after.visibleCode := by
    rw [visibleCode_after]
    exact List.mem_map_of_mem h
  have hplace : (x.map e.move).offset = e.move x.offset := rfl
  rw [← hplace, matchingBrace?_eq hmem hx, matchingBrace?_eq h hx, visibleCode_after,
    ← searchList_map (closingBrace_map e.move)]
  refine congrArg _ (filter_map_offset (p := fun o => decide (e.move x.offset ≤ o))
    (q := fun o => decide (x.offset ≤ o)) fun y hy => decide_eq_decide.mpr ?_)
  exact move_le_move_iff (e.beside_of_mem_visibleCode h).1 (e.beside_of_mem_visibleCode hy).1

/-- The brace that closes another is visible code. -/
theorem mem_visibleCode_of_matchingBrace? {s : SourceText} {stop : Nat} (h : x ∈ s.visibleCode)
    (hx : x.char = '{') (hstop : s.matchingBrace? x.offset = some stop) :
    ∃ y ∈ s.visibleCode, y.offset = stop := by
  rw [matchingBrace?_eq h hx] at hstop
  obtain ⟨y, hy, -, rfl⟩ := searchList_closingBrace hstop
  exact ⟨y, List.mem_of_mem_filter hy, rfl⟩

end Change

end Places

section Heads

namespace Stylesheet

variable {s : SourceText} {start stop : Nat} {spans : List Span}

/-- Comments that end before the start are not passed over. -/
theorem foldl_passComment_of_le (h : ∀ span ∈ spans, span.start < span.stop ∧ span.stop ≤ start) :
    spans.foldl (passComment s) start = start := by
  induction spans with
  | nil => rfl
  | cons c spans ih =>
    obtain ⟨hc, hspans⟩ := List.forall_mem_cons.mp h
    have hnot : ¬ (decide (start ≤ c.start) && (s.slice start c.start).all isBlank) = true := by
      rw [Bool.and_eq_true, decide_eq_true_eq]
      omega
    rw [List.foldl_cons, passComment, if_neg hnot]
    exact ih hspans

theorem headStart_le (hle : start ≤ stop)
    (h : ∀ span ∈ s.comments, span.start < stop → span.stop ≤ stop) :
    headStart s start stop ≤ stop := by
  rw [headStart_eq]
  rcases foldl_passComment_cases (s := s) start (s.comments.filter (·.start < stop)) with
    hstay | ⟨span, hspan, hpass⟩
  · rwa [hstay]
  · obtain ⟨hspan, hlt⟩ := List.mem_filter.mp hspan
    rw [hpass]
    exact h span hspan (of_decide_eq_true hlt)

/-- A head starts before its end, if that does not stand in a comment. -/
theorem headStart_le_of_not_inComment (hle : start ≤ stop) (hfree : s.inComment stop = false) :
    headStart s start stop ≤ stop := by
  refine headStart_le hle fun span hspan hlt => ?_
  by_contra hover
  have hcovers : span.covers stop = true := by
    rw [Span.covers_iff]
    omega
  rw [SourceText.inComment_iff.mpr ⟨span, hspan, hcovers⟩] at hfree
  cases hfree

end Stylesheet

namespace Change

open Stylesheet

variable {rules : LexicalRules} (e : Change rules) {start k : Nat} {spans : List Span}

/-- The text above the lines, on its own. -/
def above : SourceText :=
  .ofChars rules e.front

/-- The text below the lines, on its own. -/
def below : SourceText :=
  .ofChars rules e.back

theorem onBoundary_stop : onBoundary e.stop e.before.chars = true := by
  have hchars : e.before.chars = (e.front ++ e.old) ++ e.back := (List.append_assoc ..).symm
  rw [hchars, stop, ← byteLength_append]
  exact onBoundary_byteLength (e.front ++ e.old) e.back

/-- The comments are those that end before the lines do, and those behind the lines. -/
theorem exists_comments : ∃ early, e.before.comments =
    early ++ e.below.comments.map (Span.map (· + e.stop)) ∧
      ∀ span ∈ early, span.start < span.stop ∧ span.stop ≤ e.stop := by
  refine ⟨commentSpans rules e.front ++ (commentSpans rules e.old).map (Span.map (· + e.start)),
    by rw [comments_before, List.append_assoc]; rfl, fun span hspan => ⟨?_, ?_⟩⟩
  · refine SourceText.start_lt_stop (s := e.before) ?_
    rw [comments_before, ← List.append_assoc]
    exact List.mem_append_left _ hspan
  · rcases List.mem_append.mp hspan with hspan | hspan
    · exact Nat.le_trans (stop_le_of_mem_commentSpans hspan) start_le_stop
    · obtain ⟨inner, hinner, rfl⟩ := List.mem_map.mp hspan
      have hle := stop_le_of_mem_commentSpans hinner
      show inner.stop + byteLength e.front ≤ byteLength e.front + byteLength e.old
      omega

theorem stop_le_of_start_lt {span : Span} (h : span ∈ e.before.comments) (hlt : span.start < e.stop) :
    span.stop ≤ e.stop := by
  obtain ⟨early, hcomments, hearly⟩ := e.exists_comments
  rw [hcomments] at h
  rcases List.mem_append.mp h with h | h
  · exact (hearly span h).2
  · obtain ⟨inner, -, rfl⟩ := List.mem_map.mp h
    exact absurd hlt (Nat.not_lt.mpr (Nat.le_add_left _ _))

theorem passComment_below (k : Nat) (c : Span) :
    passComment e.before (e.stop + k) (c.map (· + e.stop)) = e.stop + passComment e.below k c := by
  have hslice : e.before.slice (e.stop + k) (c.start + e.stop) = e.below.slice k c.start := by
    rw [Nat.add_comm c.start]
    exact e.slice_back k c.start
  have hle : (e.stop + k ≤ c.start + e.stop) = (k ≤ c.start) := by
    rw [Nat.add_comm c.start, Nat.add_le_add_iff_left]
  show (if decide (e.stop + k ≤ c.start + e.stop) &&
    (e.before.slice (e.stop + k) (c.start + e.stop)).all isBlank then c.stop + e.stop
      else e.stop + k) = e.stop + if _ then c.stop else k
  rw [hslice, Nat.add_comm c.stop, ← apply_ite (e.stop + ·)]
  simp only [hle]

theorem foldl_passComment_below (k : Nat) (spans : List Span) :
    (spans.map (Span.map (· + e.stop))).foldl (passComment e.before) (e.stop + k) =
      e.stop + spans.foldl (passComment e.below) k := by
  induction spans generalizing k with
  | nil => rfl
  | cons c spans ih => rw [List.map_cons, List.foldl_cons, List.foldl_cons, passComment_below, ih]

/-- A head that ends above the lines is the one that is read above them. -/
theorem headStart_front (hstart : onBoundary start e.front = true)
    (hlt : k < e.start) : headStart e.before start k = headStart e.above start k := by
  have hcomments : e.before.comments.filter (·.start < k) = e.above.comments.filter (·.start < k) := by
    have hnone : ∀ {spans : List Span} {shift : Nat}, e.start ≤ shift →
        (spans.map (Span.map (· + shift))).filter (·.start < k) = [] := by
      intro spans shift hle
      rw [List.filter_eq_nil_iff]
      intro span hspan
      obtain ⟨inner, -, rfl⟩ := List.mem_map.mp hspan
      show ¬ decide (inner.start + shift < k) = true
      rw [decide_eq_true_eq]
      omega
    rw [comments_before, List.filter_append, List.filter_append, hnone (Nat.le_refl _),
      hnone start_le_stop, List.append_nil, List.append_nil]
    rfl
  have hspans : ∀ span ∈ e.above.comments.filter (·.start < k),
      span.start ≤ e.start ∧ onBoundary span.stop e.front = true := by
    intro span hspan
    obtain ⟨hspan, hbefore⟩ := List.mem_filter.mp hspan
    have hbefore := of_decide_eq_true hbefore
    exact ⟨by omega, SourceText.onBoundary_stop hspan⟩
  rw [headStart_eq, headStart_eq, hcomments]
  generalize e.above.comments.filter (·.start < k) = spans at hspans
  induction spans generalizing start with
  | nil => rfl
  | cons c spans ih =>
    obtain ⟨⟨hle, hstop⟩, hspans⟩ := List.forall_mem_cons.mp hspans
    have hstep : passComment e.before start c = passComment e.above start c := by
      by_cases hfirst : start ≤ c.start
      · rw [passComment, passComment, e.slice_front hstart hfirst hle]
        rfl
      · simp [passComment, hfirst]
    rw [List.foldl_cons, List.foldl_cons, hstep]
    refine ih ?_ hspans
    rw [passComment]
    split
    · exact hstop
    · exact hstart

/-- With nothing but white space before the end of the lines, the comments behind are passed over as
from that end. -/
theorem foldl_passComment_blank (hstart : onBoundary start e.before.chars = true)
    (hle : start ≤ e.stop) (hblank : AllBlank (e.before.slice start e.stop)) (spans : List Span) :
    ((spans.map (Span.map (· + e.stop))).foldl (passComment e.before) start = start ∧
        spans.foldl (passComment e.below) 0 = 0) ∨
      (spans.map (Span.map (· + e.stop))).foldl (passComment e.before) start =
        e.stop + spans.foldl (passComment e.below) 0 := by
  induction spans with
  | nil => exact Or.inl ⟨rfl, rfl⟩
  | cons c spans ih =>
    have hslice : (e.before.slice start (c.start + e.stop)).all isBlank =
        (e.below.slice 0 c.start).all isBlank := by
      have hcut := slice_eq_append hstart e.onBoundary_stop hle (Nat.le_add_right e.stop c.start)
      have hback : e.before.slice e.stop (e.stop + c.start) = e.below.slice 0 c.start :=
        e.slice_back 0 c.start
      rw [Nat.add_comm c.start, hcut, List.all_append, hback, List.all_eq_true.mpr hblank,
        Bool.true_and]
    have hlead : passComment e.before start (c.map (· + e.stop)) =
        if (e.below.slice 0 c.start).all isBlank then c.stop + e.stop else start := by
      show (if decide (start ≤ c.start + e.stop) &&
        (e.before.slice start (c.start + e.stop)).all isBlank then _ else _) = _
      rw [hslice, decide_eq_true (Nat.le_trans hle (Nat.le_add_left _ _)), Bool.true_and]
      rfl
    have htail : passComment e.below 0 c =
        if (e.below.slice 0 c.start).all isBlank then c.stop else 0 := by
      rw [passComment, decide_eq_true (Nat.zero_le _), Bool.true_and]
    rw [List.map_cons, List.foldl_cons, List.foldl_cons, hlead, htail]
    split
    · rw [Nat.add_comm c.stop]
      exact Or.inr (e.foldl_passComment_below c.stop spans)
    · exact ih

/-- For a head that ends behind the lines, the comments behind them are passed over after those up to
their end. -/
theorem headStart_stop_add (start k : Nat) :
    headStart e.before start (e.stop + k) =
      ((e.below.comments.filter (·.start < k)).map (Span.map (· + e.stop))).foldl
        (passComment e.before) (headStart e.before start e.stop) := by
  obtain ⟨early, hcomments, hearly⟩ := e.exists_comments
  have hfilter : ∀ k, e.before.comments.filter (·.start < e.stop + k) =
      early ++ (e.below.comments.filter (·.start < k)).map (Span.map (· + e.stop)) := by
    intro k
    have hall : early.filter (·.start < e.stop + k) = early := List.filter_eq_self.mpr
      fun span hspan => decide_eq_true (by have := hearly span hspan; omega)
    rw [hcomments, List.filter_append, hall, List.filter_map]
    refine congrArg _ (congrArg _ (List.filter_congr fun span _ => decide_eq_decide.mpr ?_))
    show span.start + e.stop < e.stop + k ↔ span.start < k
    omega
  have hnone : e.below.comments.filter (·.start < 0) = [] := by simp
  have hfirst : headStart e.before start e.stop = early.foldl (passComment e.before) start := by
    rw [headStart_eq, ← Nat.add_zero e.stop, hfilter, hnone, List.map_nil, List.append_nil]
  rw [hfirst, headStart_eq, hfilter, List.foldl_append]

theorem headStart_stop_of_le (h : e.stop ≤ start) : headStart e.before start e.stop = start := by
  rw [headStart_eq]
  refine foldl_passComment_of_le fun span hspan => ?_
  obtain ⟨hspan, hlt⟩ := List.mem_filter.mp hspan
  exact ⟨SourceText.start_lt_stop hspan,
    Nat.le_trans (e.stop_le_of_start_lt hspan (of_decide_eq_true hlt)) h⟩

theorem headStart_stop_le (h : start ≤ e.stop) : headStart e.before start e.stop ≤ e.stop :=
  headStart_le h fun _ hspan hlt => e.stop_le_of_start_lt hspan hlt

/-- A head that does not reach over the end of the lines is, behind white space, the head that is read
behind them. -/
theorem exists_blank_head
    (hstart : onBoundary start e.before.chars = true)
    (hclear : start ≤ e.stop → AllBlank (e.before.slice (headStart e.before start e.stop) e.stop))
    (k : Nat) :
    ∃ lead, AllBlank lead ∧
      e.before.slice (headStart e.before start (e.stop + k)) (e.stop + k) =
        lead ++ e.below.slice (headStart e.below (start - e.stop) k) k ∧
      headStart e.before start (e.stop + k) + byteLength lead =
        e.stop + headStart e.below (start - e.stop) k := by
  rw [e.headStart_stop_add]
  by_cases hle : start ≤ e.stop
  · have hbelow := e.headStart_stop_le hle
    have hboundary : onBoundary (headStart e.before start e.stop) e.before.chars = true :=
      onBoundary_headStart hstart
    have hblank := hclear hle
    rw [Nat.sub_eq_zero_of_le hle]
    generalize headStart e.before start e.stop = head at hbelow hboundary hblank
    rcases e.foldl_passComment_blank hboundary hbelow hblank
      (e.below.comments.filter (·.start < k)) with ⟨hstay, htail⟩ | hpass
    · refine ⟨e.before.slice head e.stop, hblank, ?_, ?_⟩
      · rw [hstay, headStart_eq, htail,
          slice_eq_append hboundary e.onBoundary_stop hbelow (Nat.le_add_right e.stop k)]
        exact congrArg _ (e.slice_back 0 k)
      · rw [hstay, headStart_eq, htail, SourceText.slice,
          byteLength_sliceBytes hboundary e.onBoundary_stop hbelow, Nat.add_sub_cancel' hbelow,
          Nat.add_zero]
    · refine ⟨[], List.forall_mem_nil _, ?_, ?_⟩
      · rw [hpass]
        exact e.slice_back _ k
      · rw [hpass]
        rfl
  · obtain ⟨j, rfl⟩ := Nat.exists_eq_add_of_le (Nat.le_of_not_le hle)
    rw [e.headStart_stop_of_le (Nat.le_add_right _ _), foldl_passComment_below,
      Nat.add_sub_cancel_left]
    exact ⟨[], List.forall_mem_nil _, e.slice_back _ k, rfl⟩

/-- A head that has moved on: the text is the same but for white space at its front, and what stands in
it has moved on with the text. -/
structure HeadMoved (head stop head' stop' : Nat) (text lead lead' : List Char) : Prop where
  blank : AllBlank lead
  blank' : AllBlank lead'
  slice : e.before.slice head stop = lead ++ text
  slice' : e.after.slice head' stop' = lead' ++ text
  place : ∀ pre post, text = pre ++ post →
    onBoundary (head + byteLength lead + byteLength pre) e.before.chars = true ∧
      e.Beside (head + byteLength lead + byteLength pre) ∧
      e.move (head + byteLength lead + byteLength pre) =
        head' + byteLength lead' + byteLength pre

variable {e} {start' : Nat} {x : CodeChar}

theorem mem_codeFrom_of_mem_visibleCode {s : SourceText} (h : x ∈ s.visibleCode) :
    x ∈ s.codeFrom 0 := by
  rw [s.codeFrom_zero]
  exact List.mem_of_mem_filter h

theorem inComment_of_mem_visibleCode {s : SourceText} (h : x ∈ s.visibleCode) :
    s.inComment x.offset = false := by
  rw [Bool.eq_false_iff]
  intro hin
  obtain ⟨span, hspan, hcovers⟩ := SourceText.inComment_iff.mp hin
  rw [covers_of_mem_codeFrom (mem_codeFrom_of_mem_visibleCode h) span hspan] at hcovers
  cases hcovers

theorem onBoundary_of_mem_visibleCode {s : SourceText} (h : x ∈ s.visibleCode) :
    onBoundary x.offset s.chars = true := by
  obtain ⟨pre, post, hchars, hpre, -⟩ := exists_of_mem_visibleCode h
  exact onBoundary_iff.mpr ⟨pre, _, hchars, hpre⟩

/-- A place moves on by as many bytes as the end of the lines. -/
theorem Starts.sub_stop_eq (h : e.Starts start start') :
    start' - e.swap.stop = start - e.stop := by
  rcases h with ⟨hfront, rfl⟩ | ⟨hback, rfl⟩
  · have hswap : e.start ≤ e.swap.stop := start_le_stop (e := e.swap)
    have hself : e.start ≤ e.stop := start_le_stop
    omega
  · obtain ⟨j, rfl⟩ := Nat.exists_eq_add_of_le hback
    rw [move_stop_add]
    omega

/-- A head that ends above the lines stays where it is. -/
theorem headMoved_front (hstart : onBoundary start e.before.chars = true)
    (hx : x ∈ e.before.visibleCode) (hle : start ≤ x.offset) (hlt : x.offset < e.start) :
    e.HeadMoved (headStart e.before start x.offset) x.offset (headStart e.after start x.offset)
      x.offset (sliceBytes (headStart e.before start x.offset) x.offset e.front) [] [] := by
  have hfront : onBoundary start e.front = true := by
    rwa [e.onBoundary_front (Nat.le_trans hle hlt.le)] at hstart
  have hsame : headStart e.after start x.offset = headStart e.before start x.offset :=
    (e.swap.headStart_front hfront hlt).trans (e.headStart_front hfront hlt).symm
  have hbelow := headStart_le_of_not_inComment hle (inComment_of_mem_visibleCode hx)
  have hhead : onBoundary (headStart e.before start x.offset) e.before.chars = true :=
    onBoundary_headStart hstart
  rw [hsame]
  generalize headStart e.before start x.offset = head at hbelow hhead
  have hhead' : onBoundary head e.front = true := by
    rwa [e.onBoundary_front (Nat.le_trans hbelow hlt.le)] at hhead
  have hslice := e.slice_front hhead' hbelow hlt.le
  refine ⟨List.forall_mem_nil _, List.forall_mem_nil _, hslice,
    e.swap.slice_front hhead' hbelow hlt.le, fun pre post htext => ?_⟩
  have hinner : onBoundary (byteLength pre) (sliceBytes head x.offset e.before.chars) = true := by
    rw [show sliceBytes head x.offset e.before.chars = pre ++ post from hslice.trans htext]
    exact onBoundary_byteLength pre post
  have hsize : byteLength pre + byteLength post = x.offset - head := by
    rw [← byteLength_append, ← htext, ← hslice]
    exact byteLength_sliceBytes hhead (onBoundary_of_mem_visibleCode hx) hbelow
  have hbefore : head + byteLength pre < e.start := by omega
  exact ⟨onBoundary_add_slice hhead hinner, Or.inl hbefore, move_of_lt hbefore⟩

/-- A head that ends behind the lines stands behind them, or starts with white space there, and moves
on with its end. -/
theorem exists_headMoved_back (hstarts : e.Starts start start')
    (hstart : onBoundary start e.before.chars = true)
    (hclear : start ≤ e.stop → AllBlank (e.before.slice (headStart e.before start e.stop) e.stop))
    (hclear' : start' ≤ e.swap.stop →
      AllBlank (e.after.slice (headStart e.after start' e.swap.stop) e.swap.stop)) (k : Nat) :
    ∃ text lead lead', e.HeadMoved (headStart e.before start (e.stop + k)) (e.stop + k)
      (headStart e.after start' (e.swap.stop + k)) (e.swap.stop + k) text lead lead' := by
  have hstart' : onBoundary start' e.after.chars = true := by rwa [hstarts.onBoundary_eq]
  obtain ⟨lead, hblank, hslice, hplace⟩ := e.exists_blank_head hstart hclear k
  obtain ⟨lead', hblank', hslice', hplace'⟩ := e.swap.exists_blank_head hstart' hclear' k
  rw [hstarts.sub_stop_eq] at hslice' hplace'
  refine ⟨_, lead, lead', hblank, hblank', hslice, hslice', fun pre post htext => ?_⟩
  have hhead : onBoundary (headStart e.below (start - e.stop) k) e.back = true := by
    refine onBoundary_headStart (s := e.below) ?_
    by_cases hbehind : start ≤ e.stop
    · rw [Nat.sub_eq_zero_of_le hbehind]
      exact onBoundary_zero e.below.chars
    · obtain ⟨j, rfl⟩ := Nat.exists_eq_add_of_le (Nat.le_of_not_le hbehind)
      rw [e.onBoundary_back] at hstart
      rwa [Nat.add_sub_cancel_left]
  have hinner : onBoundary (byteLength pre)
      (sliceBytes (headStart e.below (start - e.stop) k) k e.back) = true := by
    rw [show sliceBytes _ k e.back = pre ++ post from htext]
    exact onBoundary_byteLength pre post
  rw [hplace, Nat.add_assoc, e.onBoundary_back, move_stop_add]
  refine ⟨onBoundary_add_slice hhead hinner, beside_stop_add _, ?_⟩
  rw [← Nat.add_assoc]
  exact congrArg (· + byteLength pre) hplace'.symm

/-- A head that reaches over no end of the lines moves on. -/
theorem exists_headMoved (hstarts : e.Starts start start')
    (hstart : onBoundary start e.before.chars = true) (hx : x ∈ e.before.visibleCode)
    (hle : start ≤ x.offset)
    (hclear : start ≤ e.stop → e.stop ≤ x.offset →
      AllBlank (e.before.slice (headStart e.before start e.stop) e.stop))
    (hclear' : start' ≤ e.swap.stop → e.swap.stop ≤ e.move x.offset →
      AllBlank (e.after.slice (headStart e.after start' e.swap.stop) e.swap.stop)) :
    ∃ text lead lead', e.HeadMoved (headStart e.before start x.offset) x.offset
      (headStart e.after start' (e.move x.offset)) (e.move x.offset) text lead lead' := by
  rcases (e.beside_of_mem_visibleCode hx).1.cases with hlt | ⟨k, hk⟩
  · have hsame : start' = start := by
      rcases hstarts with ⟨-, hsame⟩ | ⟨hback, -⟩
      · exact hsame
      · exact absurd hlt (Nat.not_lt.mpr
          (Nat.le_trans start_le_stop (Nat.le_trans hback hle)))
    rw [move_of_lt hlt, hsame]
    exact ⟨_, [], [], headMoved_front hstart hx hle hlt⟩
  · rw [hk, move_stop_add] at hclear'
    rw [hk] at hclear
    rw [hk, move_stop_add]
    exact exists_headMoved_back hstarts hstart (hclear · (Nat.le_add_right _ _))
      (hclear' · (Nat.le_add_right _ _)) k

end Change

end Heads

end Concordance
