import Concordance.Proofs.Source.Leaps
import Concordance.Proofs.Text.Bytes

/-!
The comments of a text found in its bytes.

A scan of bytes may stand within a character. Quotes, comment marks, backslashes and line feeds are
characters of ASCII, and no byte of another character is one of them: such a byte is passed over like
any other that means nothing, and a backslash that hides the first byte of a character hides none of the
others by it. So the comments of the bytes of a text are the comments of the text
(`comments_utf8`). In any bytes they are ascending, disjoint stretches, so the one that covers a byte,
if there is one, is found by binary search. Main statement: `comments_searchable`.
-/

namespace Concordance

open Text Digest

/-- Quotes and marks are of ASCII. A mark is not empty, and no line ends in it. -/
structure LexicalRules.Ascii (rules : LexicalRules) : Prop where
  quotes : ∀ q ∈ rules.quotes, q.toNat < 0x80
  marks : ∀ mark ∈ rules.lineMarks, mark ≠ [] ∧ ∀ c ∈ mark, c.toNat < 0x80 ∧ c ≠ '\n'

theorem ascii_lexicalRules (language : Language) : language.lexicalRules.Ascii := by
  cases language <;> constructor <;> decide

namespace Bytewise

/-- The byte opens and closes literals. -/
def isQuote (rules : LexicalRules) (b : UInt8) : Bool :=
  (utf8 rules.quotes).contains b

/-- The number of bytes in the rest of a literal opened by `quote`, its closing quote included. -/
def literalLength (quote : UInt8) : List UInt8 → Nat
  | [] => 0
  | b :: bs =>
    if b = '\\'.toUInt8 then
      match bs with
      | [] => 1
      | _ :: bs => 2 + literalLength quote bs
    else if b = quote then 1
    else if b = '\n'.toUInt8 ∧ quote ≠ '`'.toUInt8 then 0
    else 1 + literalLength quote bs

/-- The number of bytes in the rest of a block comment, its closing mark included. -/
def blockLength : List UInt8 → Nat
  | [] => 0
  | b :: bs => if (utf8 "*/".toList).isPrefixOf (b :: bs) then 2 else 1 + blockLength bs

/-- The number of bytes up to the end of the line. -/
def lineLength (bytes : List UInt8) : Nat :=
  (bytes.takeWhile (· ≠ '\n'.toUInt8)).length

/-- The number of bytes behind `b` of the comment that starts with it, if one does. -/
def commentLength? (rules : LexicalRules) (b : UInt8) (bs : List UInt8) : Option Nat :=
  if (utf8 "/*".toList).isPrefixOf (b :: bs) then some (1 + blockLength bs.tail)
  else if rules.lineMarks.any fun mark => (utf8 mark).isPrefixOf (b :: bs) then
    some (lineLength bs)
  else none

/-- The comments of bytes that stand at `offset`. -/
def commentsFrom (rules : LexicalRules) (offset : Nat) : List UInt8 → List Span
  | [] => []
  | b :: bs =>
    if isQuote rules b then
      commentsFrom rules (offset + 1 + literalLength b bs) (bs.drop (literalLength b bs))
    else
      match commentLength? rules b bs with
      | some n => ⟨offset, offset + 1 + n⟩ :: commentsFrom rules (offset + 1 + n) (bs.drop n)
      | none => commentsFrom rules (offset + 1) bs
termination_by bytes => bytes.length
decreasing_by all_goals simp only [List.length_drop, List.length_cons]; omega

/-- The comments of the bytes. -/
def comments (rules : LexicalRules) (bytes : List UInt8) : List Span :=
  commentsFrom rules 0 bytes

/-- The number of elements in front that pass the test, by binary search between two places; the
elements that pass it stand before all others. -/
def partitionPoint {α : Type} (test : α → Bool) (xs : List α) (low high : Nat) : Nat :=
  if low < high then
    if xs[(low + high) / 2]?.any test then partitionPoint test xs ((low + high) / 2 + 1) high
    else partitionPoint test xs low ((low + high) / 2)
  else low
termination_by high - low
decreasing_by all_goals omega

/-- The end of the comment that covers the byte: the last that starts at it or before it is looked at. -/
def commentEnd? (comments : List Span) (offset : Nat) : Option Nat :=
  match partitionPoint (·.start ≤ offset) comments 0 comments.length with
  | 0 => none
  | n + 1 => (comments[n]?.filter (·.covers offset)).map Span.stop

section Cut

variable {rules : LexicalRules} {offset n : Nat} {b : UInt8} {bs bytes : List UInt8} {span : Span}

theorem utf8_ne_newline {mark : List Char} (h : ∀ c ∈ mark, c.toNat < 0x80 ∧ c ≠ '\n') :
    ∀ b ∈ utf8 mark, b ≠ '\n'.toUInt8 := by
  rw [utf8_of_ascii fun c hc => (h c hc).1, List.forall_mem_map]
  exact fun c hc => toUInt8_ne (h c hc).1 (by decide) (h c hc).2

theorem blockLength_le (bytes : List UInt8) : blockLength bytes ≤ bytes.length := by
  induction bytes with
  | nil => exact Nat.le_refl 0
  | cons b bs ih =>
    rw [blockLength]
    split
    · next hclose => exact (List.isPrefixOf_iff_prefix.mp hclose).length_le
    · rw [List.length_cons]
      omega

theorem literalLength_le (quote : UInt8) (bytes : List UInt8) :
    literalLength quote bytes ≤ bytes.length := by
  fun_induction literalLength quote bytes with
  | case1 => exact Nat.le_refl 0
  | case2 => exact Nat.le_refl 1
  | case3 b bs ih =>
    rw [List.length_cons, List.length_cons]
    omega
  | case4 => exact Nat.le_add_left 1 _
  | case5 => exact Nat.zero_le _
  | case6 b bs _ _ _ ih =>
    rw [List.length_cons]
    omega

/-- A comment starts with its mark, which it holds as a whole. -/
theorem prefix_of_commentLength? (hrules : rules.Ascii) (h : commentLength? rules b bs = some n) :
    n ≤ bs.length ∧ ∃ mark ∈ rules.openings, utf8 mark <+: b :: bs.take n := by
  unfold commentLength? at h
  split at h
  · next hopen =>
    obtain rfl := Option.some.inj h
    obtain ⟨rest, hrest⟩ := List.isPrefixOf_iff_prefix.mp hopen
    obtain ⟨rfl, rfl⟩ : '/'.toUInt8 = b ∧ '*'.toUInt8 :: rest = bs := List.cons.inj hrest
    have hle := blockLength_le rest
    refine ⟨by rw [List.tail_cons, List.length_cons]; omega, "/*".toList, List.mem_cons_self,
      rest.take (blockLength rest), ?_⟩
    rw [List.tail_cons, Nat.add_comm 1, List.take_succ_cons]
    rfl
  · split at h
    · next hmark =>
      obtain rfl := Option.some.inj h
      obtain ⟨mark, hmem, hprefix⟩ := List.any_eq_true.mp hmark
      obtain ⟨hne, hchars⟩ := hrules.marks mark hmem
      rw [List.isPrefixOf_iff_prefix] at hprefix
      refine ⟨(List.takeWhile_prefix _).length_le, mark, List.mem_cons_of_mem _ hmem, ?_⟩
      have hline : bs.take (lineLength bs) = bs.takeWhile (· ≠ '\n'.toUInt8) :=
        (List.prefix_iff_eq_take.mp (List.takeWhile_prefix _)).symm
      rw [hline]
      -- the mark ends before the line
      have hbreak := utf8_ne_newline hchars
      cases hbytes : utf8 mark with
      | nil => exact List.nil_prefix
      | cons m ms =>
        rw [hbytes] at hprefix hbreak
        obtain ⟨rfl, rest, rfl⟩ := List.cons_prefix_cons.mp hprefix
        have hinner : ∀ x ∈ ms, decide (x ≠ '\n'.toUInt8) = true := fun x hx =>
          decide_eq_true (hbreak x (List.mem_cons_of_mem _ hx))
        rw [List.takeWhile_append_of_pos hinner]
        exact List.prefix_append (m :: ms) _
    · cases h

/-- The bytes of a comment, with those before and behind it. -/
theorem exists_cut_of_mem_commentsFrom (hrules : rules.Ascii)
    (h : span ∈ commentsFrom rules offset bytes) :
    ∃ front inner back, bytes = front ++ (inner ++ back) ∧ span.start = offset + front.length ∧
      span.stop = span.start + inner.length ∧ inner ≠ [] ∧
      ∃ mark ∈ rules.openings, utf8 mark <+: inner := by
  -- what a cut behind some bytes says of all
  have hbehind : ∀ {b : UInt8} {bs : List UInt8} {offset n : Nat},
      (∃ front inner back, bs.drop n = front ++ (inner ++ back) ∧
        span.start = offset + 1 + n + front.length ∧ span.stop = span.start + inner.length ∧
        inner ≠ [] ∧ ∃ mark ∈ rules.openings, utf8 mark <+: inner) → n ≤ bs.length →
      ∃ front inner back, b :: bs = front ++ (inner ++ back) ∧ span.start = offset + front.length ∧
        span.stop = span.start + inner.length ∧ inner ≠ [] ∧
        ∃ mark ∈ rules.openings, utf8 mark <+: inner := by
    rintro b bs offset n ⟨front, inner, back, hdrop, hstart, hcut⟩ hle
    refine ⟨b :: bs.take n ++ front, inner, back, ?_, ?_, hcut⟩
    · rw [List.append_assoc, ← hdrop, List.cons_append, List.take_append_drop]
    · rw [hstart, List.length_append, List.length_cons, List.length_take, Nat.min_eq_left hle]
      omega
  fun_induction commentsFrom rules offset bytes with
  | case1 => cases h
  | case2 offset b bs hquote ih => exact hbehind (ih h) (literalLength_le b bs)
  | case3 offset b bs hquote n hcomment ih =>
    obtain ⟨hle, hmark⟩ := prefix_of_commentLength? hrules hcomment
    rcases List.mem_cons.mp h with rfl | h
    · refine ⟨[], b :: bs.take n, bs.drop n, ?_, rfl, ?_, List.cons_ne_nil _ _, hmark⟩
      · rw [List.nil_append, List.cons_append, List.take_append_drop]
      · rw [List.length_cons, List.length_take, Nat.min_eq_left hle]
        dsimp only
        omega
    · exact hbehind (ih h) hle
  | case4 offset b bs hquote hcomment ih => exact hbehind (n := 0) (ih h) (Nat.zero_le _)

/-- Each comment starts behind the one before it. -/
theorem pairwise_commentsFrom (hrules : rules.Ascii) (offset : Nat) (bytes : List UInt8) :
    (commentsFrom rules offset bytes).Pairwise fun a b => a.stop ≤ b.start := by
  fun_induction commentsFrom rules offset bytes with
  | case1 => exact .nil
  | case2 offset b bs hquote ih => exact ih
  | case3 offset b bs hquote n hcomment ih =>
    refine List.pairwise_cons.mpr ⟨fun span hspan => ?_, ih⟩
    obtain ⟨front, -, -, -, hstart, -⟩ := exists_cut_of_mem_commentsFrom hrules hspan
    exact hstart ▸ Nat.le_add_right _ _
  | case4 offset b bs hquote hcomment ih => exact ih

end Cut

section Search

theorem partitionPoint_append {α : Type} {test : α → Bool} {front back : List α}
    (hfront : ∀ x ∈ front, test x = true) (hback : ∀ x ∈ back, test x = false) (low high : Nat)
    (hlow : low ≤ front.length) (hle : front.length ≤ high)
    (hhigh : high ≤ (front ++ back).length) :
    partitionPoint test (front ++ back) low high = front.length := by
  fun_induction partitionPoint test (front ++ back) low high with
  | case1 low high hlt hpass ih =>
    -- what passes the test stands in front
    refine ih (Nat.lt_of_not_le fun hge => ?_) hle hhigh
    rw [List.getElem?_append_right hge] at hpass
    obtain ⟨x, hx, hpass⟩ := (Option.any_eq_true _ _).mp hpass
    rw [hback x (List.mem_of_getElem? hx)] at hpass
    cases hpass
  | case2 low high hlt hfail ih =>
    refine ih hlow (Nat.le_of_not_lt fun hfront' => hfail ?_) (by omega)
    rw [List.getElem?_append_left hfront', List.getElem?_eq_getElem hfront']
    exact hfront _ (List.getElem_mem hfront')
  | case3 low high hge => omega

variable {spans : List Span}

/-- Of ascending stretches those that start at a byte or before it stand before all others. -/
theorem exists_front_of_starts (hsorted : spans.Pairwise fun a b => a.stop ≤ b.start)
    (hspans : ∀ span ∈ spans, span.start < span.stop) (offset : Nat) :
    ∃ front back, spans = front ++ back ∧ (∀ span ∈ front, span.start ≤ offset) ∧
      ∀ span ∈ back, offset < span.start := by
  induction spans with
  | nil => exact ⟨[], [], rfl, List.forall_mem_nil _, List.forall_mem_nil _⟩
  | cons first rest ih =>
    obtain ⟨hfirst, hrest⟩ := List.pairwise_cons.mp hsorted
    obtain ⟨hspan, hspans⟩ := List.forall_mem_cons.mp hspans
    by_cases hle : first.start ≤ offset
    · obtain ⟨front, back, rfl, hfront, hback⟩ := ih hrest hspans
      exact ⟨first :: front, back, rfl, List.forall_mem_cons.mpr ⟨hle, hfront⟩, hback⟩
    · refine ⟨[], first :: rest, rfl, List.forall_mem_nil _, ?_⟩
      rw [List.forall_mem_cons]
      refine ⟨Nat.lt_of_not_le hle, fun span hmem => ?_⟩
      have := hfirst span hmem
      omega

/-- The search finds the comment that covers a byte, if there is one. -/
theorem commentEnd?_eq_some_iff (hsorted : spans.Pairwise fun a b => a.stop ≤ b.start)
    (hspans : ∀ span ∈ spans, span.start < span.stop) (offset stop : Nat) :
    commentEnd? spans offset = some stop ↔
      ∃ span ∈ spans, span.stop = stop ∧ span.start ≤ offset ∧ offset < span.stop := by
  obtain ⟨front, back, rfl, hfront, hback⟩ := exists_front_of_starts hsorted hspans offset
  have hplace : partitionPoint (fun span : Span => decide (span.start ≤ offset)) (front ++ back) 0
      (front ++ back).length = front.length :=
    partitionPoint_append (fun span h => decide_eq_true (hfront span h))
      (fun span h => decide_eq_false (Nat.not_le_of_lt (hback span h))) 0 _ (Nat.zero_le _)
      (by rw [List.length_append]; omega) (Nat.le_refl _)
  rw [commentEnd?, hplace]
  rcases List.eq_nil_or_concat' front with rfl | ⟨front, last, rfl⟩
  · refine iff_of_false (fun h => nomatch h) ?_
    rintro ⟨span, hspan, -, hle, -⟩
    have := hback span hspan
    omega
  · have hget : (front ++ [last] ++ back)[front.length]? = some last := by
      rw [List.append_assoc, List.singleton_append, List.getElem?_append_right (Nat.le_refl _),
        Nat.sub_self, List.getElem?_cons_zero]
    rw [List.length_append, List.length_singleton]
    dsimp only
    rw [hget, Option.map_eq_some_iff]
    constructor
    · rintro ⟨span, hspan, hstop⟩
      obtain ⟨hsome, hcovers⟩ := Option.filter_eq_some_iff.mp hspan
      obtain rfl := Option.some.inj hsome
      exact ⟨last, by simp, hstop, Span.covers_iff.mp hcovers⟩
    · rintro ⟨span, hspan, hstop, hcovers⟩
      -- a comment before the last of those that start by the byte ends before that one starts
      have hlast := hfront last (by simp)
      obtain rfl : span = last := by
        simp only [List.mem_append, List.mem_singleton] at hspan
        rcases hspan with (hspan | hspan) | hspan
        · have := (List.pairwise_append.mp (List.pairwise_append.mp hsorted).1).2.2 span hspan last
            (by simp)
          omega
        · exact hspan
        · have := hback span hspan
          omega
      exact ⟨span, by rw [Option.filter_some, if_pos (Span.covers_iff.mpr hcovers)], hstop⟩

end Search

section Texts

variable {rules : LexicalRules} {quote : Char} {front bs : List UInt8}

theorem literalLength_cons {quote b : UInt8} (hback : b ≠ '\\'.toUInt8) (bs : List UInt8) :
    literalLength quote (b :: bs) =
      if b = quote then 1
      else if b = '\n'.toUInt8 ∧ quote ≠ '`'.toUInt8 then 0
      else 1 + literalLength quote bs := by
  cases bs <;> exact if_neg hback

/-- In a literal the bytes of characters outside ASCII are passed over. -/
theorem literalLength_append (hquote : quote.toNat < 0x80) (hfront : ∀ b ∈ front, 0x80 ≤ b.toNat)
    (bs : List UInt8) :
    literalLength quote.toUInt8 (front ++ bs) = front.length + literalLength quote.toUInt8 bs := by
  induction front with
  | nil => exact (Nat.zero_add _).symm
  | cons b front ih =>
    obtain ⟨hb, hfront⟩ := List.forall_mem_cons.mp hfront
    have hline : ¬ (b = '\n'.toUInt8 ∧ quote.toUInt8 ≠ '`'.toUInt8) := fun h =>
      ne_toUInt8 hb (by decide) h.1
    rw [List.cons_append, literalLength_cons (ne_toUInt8 hb (by decide)),
      if_neg (ne_toUInt8 hb hquote), if_neg hline, ih hfront, List.length_cons]
    omega

/-- A literal of a text has the bytes of its characters. -/
theorem literalLength_utf8 (hquote : quote.toNat < 0x80) (cs : List Char) :
    literalLength quote.toUInt8 (utf8 cs) = SourceText.literalLength quote cs := by
  fun_induction SourceText.literalLength quote cs with
  | case1 => rfl
  | case2 => rfl
  | case3 c cs ih =>
    obtain ⟨first, rest, hbytes, -, hrest⟩ := exists_utf8EncodeChar_eq_cons c
    have hsize := congrArg List.length hbytes
    rw [String.length_utf8EncodeChar, List.length_cons] at hsize
    rw [utf8_cons_of_ascii (by decide), utf8_cons, hbytes, List.cons_append, literalLength,
      if_pos rfl, literalLength_append hquote fun b hb => le_toNat_of_continues (hrest b hb), ih]
    omega
  | case4 cs hlast hescape =>
    have hback := ne_backslash hlast hescape
    rw [utf8_cons_of_ascii hquote, literalLength_cons (toUInt8_ne hquote (by decide) hback),
      if_pos rfl, utf8Size_of_ascii hquote]
  | case5 c cs hlast hescape hne hbreak =>
    have hback := ne_backslash hlast hescape
    obtain ⟨rfl, hlines⟩ : c = '\n' ∧ quote ≠ '`' := by
      simpa [LexicalRules.breaksAt, LexicalRules.spansLines] using hbreak
    rw [utf8_cons_of_ascii (by decide), literalLength_cons (by decide),
      if_neg (toUInt8_ne (by decide) hquote hne),
      if_pos ⟨rfl, toUInt8_ne hquote (by decide) hlines⟩]
  | case6 c cs hlast hescape hne hbreak ih =>
    have hback := ne_backslash hlast hescape
    rcases ascii_or_high c with ⟨hc, hbytes⟩ | ⟨-, hbytes⟩
    · have hline : ¬ (c.toUInt8 = '\n'.toUInt8 ∧ quote.toUInt8 ≠ '`'.toUInt8) := by
        rintro ⟨hc', hlines⟩
        have hspans : quote ≠ '`' := fun h => hlines (congrArg _ h)
        exact hbreak (by
          simp [LexicalRules.breaksAt, LexicalRules.spansLines, hspans,
            (toUInt8_eq_iff hc (by decide)).mp hc'])
      rw [utf8_cons_of_ascii hc, literalLength_cons (toUInt8_ne hc (by decide) hback),
        if_neg (toUInt8_ne hc hquote hne), if_neg hline, ih, utf8Size_of_ascii hc]
    · rw [utf8_cons, literalLength_append hquote hbytes, String.length_utf8EncodeChar, ih]

/-- A mark of ASCII stands in the bytes of a text where it stands in the text. -/
theorem isPrefixOf_utf8 {mark : List Char} (hmark : ∀ c ∈ mark, c.toNat < 0x80) (cs : List Char) :
    (utf8 mark).isPrefixOf (utf8 cs) = mark.isPrefixOf cs := by
  induction mark generalizing cs with
  | nil => rfl
  | cons m mark ih =>
    obtain ⟨hm, hmark⟩ := List.forall_mem_cons.mp hmark
    rw [utf8_cons_of_ascii hm]
    cases cs with
    | nil => rfl
    | cons c cs =>
      rcases ascii_or_high c with ⟨hc, -⟩ | ⟨hc, hbytes⟩
      · rw [utf8_cons_of_ascii hc, List.isPrefixOf_cons_cons, List.isPrefixOf_cons_cons, ih hmark,
          Bool.beq_eq_decide_eq, Bool.beq_eq_decide_eq, decide_eq_decide.mpr (toUInt8_eq_iff hm hc)]
      · obtain ⟨first, rest, hfirst, -⟩ := exists_utf8EncodeChar_eq_cons c
        rw [hfirst] at hbytes
        have hne : (m.toUInt8 == first) = false :=
          beq_false_of_ne (ne_toUInt8 (hbytes first List.mem_cons_self) hm).symm
        have hne' : (m == c) = false := beq_false_of_ne (ne_of_high hc hm).symm
        rw [utf8_cons, hfirst, List.cons_append, List.isPrefixOf_cons_cons, List.isPrefixOf_cons_cons, hne,
          hne']
        rfl

theorem isPrefixOf_append_of_high {mark : List Char} (hne : mark ≠ [])
    (hmark : ∀ c ∈ mark, c.toNat < 0x80) {b : UInt8} (hb : 0x80 ≤ b.toNat) (bs : List UInt8) :
    (utf8 mark).isPrefixOf (b :: bs) = false := by
  obtain ⟨m, ms, rfl⟩ := List.exists_cons_of_ne_nil hne
  have hm := hmark m List.mem_cons_self
  rw [utf8_cons_of_ascii hm, List.isPrefixOf_cons_cons, beq_false_of_ne (ne_toUInt8 hb hm).symm]
  rfl

theorem blockLength_append (hfront : ∀ b ∈ front, 0x80 ≤ b.toNat) (bs : List UInt8) :
    blockLength (front ++ bs) = front.length + blockLength bs := by
  induction front with
  | nil => exact (Nat.zero_add _).symm
  | cons b front ih =>
    obtain ⟨hb, hfront⟩ := List.forall_mem_cons.mp hfront
    have hnone : (utf8 "*/".toList).isPrefixOf (b :: (front ++ bs)) = false :=
      isPrefixOf_append_of_high (by decide) (by decide) hb _
    rw [List.cons_append, blockLength, hnone, if_neg Bool.false_ne_true, ih hfront,
      List.length_cons]
    omega

theorem isPrefixOf_pair (a b c : Char) (cs : List Char) :
    [a, b].isPrefixOf (c :: cs) = true ↔ c = a ∧ cs.head? = some b := by
  rw [List.isPrefixOf_cons_cons, Bool.and_eq_true, beq_iff_eq, eq_comm]
  cases cs with
  | nil => exact and_congr_right fun _ => iff_of_false Bool.false_ne_true nofun
  | cons d ds =>
    rw [List.isPrefixOf_cons_cons, List.isPrefixOf_nil_left, Bool.and_true, beq_iff_eq,
      List.head?_cons, Option.some.injEq, @eq_comm _ b]

/-- Behind a star a block comment ends with a slash, and goes on as behind any character without. -/
theorem blockLength_true (cs : List Char) :
    Concordance.blockLength true cs =
      if cs.head? = some '/' then 1 else Concordance.blockLength false cs := by
  cases cs with
  | nil => rfl
  | cons c cs =>
    by_cases hc : c = '/'
    · subst hc
      rfl
    · simp [Concordance.blockLength, hc]

/-- A block comment of a text has the bytes of its characters. -/
theorem blockLength_utf8 (cs : List Char) :
    blockLength (utf8 cs) = Concordance.blockLength false cs := by
  induction cs with
  | nil => rfl
  | cons c cs ih =>
    rw [Concordance.blockLength, Bool.false_and, if_neg Bool.false_ne_true]
    rcases ascii_or_high c with ⟨hc, -⟩ | ⟨hc, hbytes⟩
    · have hprefix : (utf8 "*/".toList).isPrefixOf (utf8 (c :: cs)) =
          "*/".toList.isPrefixOf (c :: cs) := isPrefixOf_utf8 (by decide) (c :: cs)
      have hclose : "*/".toList.isPrefixOf (c :: cs) = true ↔ c = '*' ∧ cs.head? = some '/' :=
        isPrefixOf_pair '*' '/' c cs
      rw [utf8_cons_of_ascii hc] at hprefix ⊢
      rw [blockLength, hprefix, utf8Size_of_ascii hc, ih]
      by_cases hstar : c = '*'
      · rw [hstar, beq_self_eq_true, blockLength_true]
        by_cases hslash : cs.head? = some '/'
        · rw [← hstar, if_pos (hclose.mpr ⟨hstar, hslash⟩), if_pos hslash]
        · rw [← hstar, if_neg fun h => hslash (hclose.mp h).2, if_neg hslash]
      · rw [beq_false_of_ne hstar, if_neg fun h => hstar (hclose.mp h).1]
    · have hstar : (c == '*') = false := beq_false_of_ne (ne_of_high hc (by decide))
      rw [utf8_cons, blockLength_append hbytes, String.length_utf8EncodeChar, ih, hstar]

/-- A line of a text has the bytes of its characters. -/
theorem lineLength_utf8 (cs : List Char) : lineLength (utf8 cs) = Concordance.lineLength cs := by
  unfold lineLength Concordance.lineLength
  induction cs with
  | nil => rfl
  | cons c cs ih =>
    by_cases hbreak : c = '\n'
    · subst hbreak
      rfl
    · have hbytes : ∀ b ∈ String.utf8EncodeChar c, decide (b ≠ '\n'.toUInt8) = true := by
        intro b hb
        rw [decide_eq_true_eq]
        rcases ascii_or_high c with ⟨hc, hone⟩ | ⟨-, hhigh⟩
        · rw [hone, List.mem_singleton] at hb
          exact hb ▸ toUInt8_ne hc (by decide) hbreak
        · exact ne_toUInt8 (hhigh b hb) (by decide)
      rw [utf8_cons, List.takeWhile_append_of_pos hbytes, List.length_append,
        String.length_utf8EncodeChar, ih, List.takeWhile_cons_of_pos (by simpa using hbreak),
        byteLength_cons]

theorem isQuote_toUInt8 (hrules : rules.Ascii) {c : Char} (hc : c.toNat < 0x80) :
    isQuote rules c.toUInt8 = rules.quotes.contains c := by
  rw [isQuote, utf8_of_ascii hrules.quotes, Bool.eq_iff_iff, List.contains_iff_mem,
    List.contains_iff_mem, List.mem_map]
  constructor
  · rintro ⟨q, hq, heq⟩
    exact (toUInt8_eq_iff (hrules.quotes q hq) hc).mp heq ▸ hq
  · exact fun hq => ⟨c, hq, rfl⟩

theorem isQuote_of_high (hrules : rules.Ascii) {b : UInt8} (hb : 0x80 ≤ b.toNat) :
    isQuote rules b = false := by
  rw [isQuote, utf8_of_ascii hrules.quotes, Bool.eq_false_iff, Ne, List.contains_iff_mem,
    List.mem_map]
  rintro ⟨q, hq, rfl⟩
  exact ne_toUInt8 hb (hrules.quotes q hq) rfl

theorem contains_quotes_of_high (hrules : rules.Ascii) {c : Char} (hc : 0x80 ≤ c.toNat) :
    rules.quotes.contains c = false := by
  rw [Bool.eq_false_iff, Ne, List.contains_iff_mem]
  exact fun hq => absurd (hrules.quotes c hq) (Nat.not_lt_of_le hc)

/-- A comment of a text has the bytes of its characters. -/
theorem commentLength?_utf8 (hrules : rules.Ascii) {c : Char} (hc : c.toNat < 0x80)
    (cs : List Char) :
    commentLength? rules c.toUInt8 (utf8 cs) = Concordance.commentLength? rules c cs := by
  have hopen : (utf8 "/*".toList).isPrefixOf (utf8 (c :: cs)) = true ↔
      c = '/' ∧ cs.head? = some '*' := by
    rw [isPrefixOf_utf8 (by decide)]
    exact isPrefixOf_pair '/' '*' c cs
  have hmarks : (rules.lineMarks.any fun mark => (utf8 mark).isPrefixOf (utf8 (c :: cs))) =
      rules.lineMarks.any (·.isPrefixOf (c :: cs)) := by
    rw [Bool.eq_iff_iff, List.any_eq_true, List.any_eq_true]
    refine exists_congr fun mark => and_congr_right fun hmark => ?_
    rw [isPrefixOf_utf8 fun d hd => ((hrules.marks mark hmark).2 d hd).1]
  rw [commentLength?, Concordance.commentLength?, ← utf8_cons_of_ascii hc, hmarks]
  by_cases hblock : c = '/' ∧ cs.head? = some '*'
  · obtain ⟨rest, rfl⟩ := List.head?_eq_some_iff.mp hblock.2
    rw [if_pos hblock, if_pos (hopen.mpr hblock), utf8_cons_of_ascii (by decide), List.tail_cons,
      List.tail_cons, blockLength_utf8]
  · rw [if_neg hblock, if_neg (mt hopen.mp hblock), lineLength_utf8]

theorem commentLength?_of_high (hrules : rules.Ascii) {b : UInt8} (hb : 0x80 ≤ b.toNat)
    (bs : List UInt8) : commentLength? rules b bs = none := by
  have hmarks : (rules.lineMarks.any fun mark => (utf8 mark).isPrefixOf (b :: bs)) = false := by
    rw [List.any_eq_false]
    intro mark hmark
    obtain ⟨hne, hchars⟩ := hrules.marks mark hmark
    rw [isPrefixOf_append_of_high hne (fun c hc => (hchars c hc).1) hb]
    exact Bool.false_ne_true
  have hopen : (utf8 "/*".toList).isPrefixOf (b :: bs) = false :=
    isPrefixOf_append_of_high (by decide) (by decide) hb bs
  rw [commentLength?, hmarks, hopen]
  rfl

theorem commentLength?_eq_none_of_high (hrules : rules.Ascii) {c : Char} (hc : 0x80 ≤ c.toNat)
    (cs : List Char) : Concordance.commentLength? rules c cs = none := by
  have hmarks : rules.lineMarks.any (·.isPrefixOf (c :: cs)) = false := by
    rw [List.any_eq_false]
    intro mark hmark hprefix
    obtain ⟨hnil, hchars⟩ := hrules.marks mark hmark
    obtain ⟨m, ms, rfl⟩ := List.exists_cons_of_ne_nil hnil
    rw [List.isPrefixOf_cons_cons, Bool.and_eq_true, beq_iff_eq] at hprefix
    exact ne_of_high hc (hchars m List.mem_cons_self).1 hprefix.1.symm
  rw [Concordance.commentLength?, if_neg fun h => ne_of_high hc (by decide) h.1, hmarks]
  rfl

/-- In code the bytes of characters outside ASCII are passed over. -/
theorem commentsFrom_append (hrules : rules.Ascii) (offset : Nat)
    (hfront : ∀ b ∈ front, 0x80 ≤ b.toNat) (bs : List UInt8) :
    commentsFrom rules offset (front ++ bs) = commentsFrom rules (offset + front.length) bs := by
  induction front generalizing offset with
  | nil => rfl
  | cons b front ih =>
    obtain ⟨hb, hfront⟩ := List.forall_mem_cons.mp hfront
    rw [List.cons_append, commentsFrom, isQuote_of_high hrules hb, if_neg Bool.false_ne_true,
      commentLength?_of_high hrules hb, ih (offset + 1) hfront, List.length_cons, Nat.add_assoc,
      Nat.add_comm 1]

/-- The comments of the bytes of a text are those of the text. -/
theorem commentsFrom_utf8 (hrules : rules.Ascii) (offset : Nat) (cs : List Char) :
    commentsFrom rules offset (utf8 cs) = Concordance.commentsFrom rules .code offset cs := by
  induction hn : cs.length using Nat.strongRecOn generalizing offset cs with
  | ind n ih =>
    subst hn
    cases cs with
    | nil => rw [utf8_nil, commentsFrom]; rfl
    | cons c cs =>
      -- both leap over the same characters
      have hlater : ∀ {n : Nat}, onBoundary n cs = true → ∀ offset,
          commentsFrom rules offset ((utf8 cs).drop n) =
            Concordance.commentsFrom rules .code offset (dropBytes n cs) := by
        intro n hn offset
        obtain ⟨inner, rest, rfl, rfl⟩ := onBoundary_iff.mp hn
        rw [drop_utf8, dropBytes_byteLength]
        exact ih _ (by rw [List.length_cons, List.length_append]; omega) offset rest rfl
      have hnext : ∀ offset, commentsFrom rules offset (utf8 cs) =
          Concordance.commentsFrom rules .code offset cs := fun offset =>
        ih cs.length (Nat.lt_succ_self _) offset cs rfl
      rw [commentsFrom_code_cons]
      rcases ascii_or_high c with ⟨hc, -⟩ | ⟨hc, hbytes⟩
      · rw [utf8_cons_of_ascii hc, commentsFrom, isQuote_toUInt8 hrules hc,
          commentLength?_utf8 hrules hc, literalLength_utf8 hc, utf8Size_of_ascii hc]
        split
        · exact hlater (onBoundary_literalLength c cs) _
        · cases hcomment : Concordance.commentLength? rules c cs with
          | none => exact hnext _
          | some n => exact congrArg (_ :: ·) (hlater (onBoundary_commentLength? hcomment) _)
      · rw [utf8_cons, commentsFrom_append hrules offset hbytes, String.length_utf8EncodeChar,
          contains_quotes_of_high hrules hc, if_neg Bool.false_ne_true,
          commentLength?_eq_none_of_high hrules hc]
        exact hnext _

end Texts

theorem start_lt_stop {rules : LexicalRules} (hrules : rules.Ascii) {offset : Nat}
    {bytes : List UInt8} {span : Span} (h : span ∈ commentsFrom rules offset bytes) :
    span.start < span.stop := by
  obtain ⟨front, inner, back, -, -, hstop, hne, -⟩ := exists_cut_of_mem_commentsFrom hrules h
  have := List.length_pos_of_ne_nil hne
  omega

section Source

variable {s : SourceText}

theorem comments_utf8 (hrules : s.rules.Ascii) : comments s.rules (utf8 s.chars) = s.comments := by
  rw [s.comments_eq]
  exact commentsFrom_utf8 hrules 0 s.chars

/-- The search in the bytes of a text answers as the text does. -/
theorem commentEnd?_utf8 (hrules : s.rules.Ascii) (offset : Nat) :
    commentEnd? (comments s.rules (utf8 s.chars)) offset = s.commentEnd? offset := by
  ext stop
  rw [comments_utf8 hrules, SourceText.commentEnd?_eq_some_iff]
  exact commentEnd?_eq_some_iff s.pairwise_comments (fun _ => SourceText.start_lt_stop) offset stop

end Source

/-- In any bytes the comments are not empty, ascend without overlapping, lie within the bytes and start
with a mark, and binary search finds the one that covers a byte if and only if there is one. Those of
the bytes of a text are the comments of the text, and the search finds what a text answers. -/
theorem comments_searchable (language : Language) (bytes : List UInt8) :
    let rules := language.lexicalRules
    let spans := comments rules bytes
    (spans.Pairwise fun a b => a.stop ≤ b.start) ∧
    (∀ span ∈ spans, span.start < span.stop ∧ span.stop ≤ bytes.length ∧
      ∃ mark ∈ rules.openings,
        utf8 mark <+: (bytes.drop span.start).take (span.stop - span.start)) ∧
    (∀ offset stop, commentEnd? spans offset = some stop ↔
      ∃ span ∈ spans, span.stop = stop ∧ span.start ≤ offset ∧ offset < span.stop) ∧
    ∀ text, utf8 text = bytes → (SourceText.ofChars rules text).comments = spans ∧
      ∀ offset, (SourceText.ofChars rules text).commentEnd? offset = commentEnd? spans offset := by
  have hrules := ascii_lexicalRules language
  have hsorted := pairwise_commentsFrom hrules 0 bytes
  refine ⟨hsorted, fun span hspan => ⟨start_lt_stop hrules hspan, ?_⟩,
    commentEnd?_eq_some_iff hsorted fun _ => start_lt_stop hrules, ?_⟩
  · obtain ⟨front, inner, back, rfl, hstart, hstop, -, hmark⟩ :=
      exists_cut_of_mem_commentsFrom hrules hspan
    rw [Nat.zero_add] at hstart
    refine ⟨?_, ?_⟩
    · rw [List.length_append, List.length_append]
      omega
    · rwa [hstart, List.drop_left, hstop, hstart, Nat.add_sub_cancel_left, List.take_left]
  · rintro text rfl
    exact ⟨(comments_utf8 hrules).symm, fun offset => (commentEnd?_utf8 hrules offset).symm⟩

/-- A literal that holds a mark and an escaped quote, a comment of a line and one of a block. -/
def markedScript : List Char :=
  "'/*\\'é' #é\n/*/x*/y".toList

/-- The byte 11 lies within a character. -/
theorem comments_searchable_markedScript :
    let spans := comments Language.php.lexicalRules (utf8 markedScript)
    spans = [⟨9, 12⟩, ⟨13, 19⟩] ∧ commentEnd? spans 11 = some 12 ∧ commentEnd? spans 2 = none ∧
      ∃ mark ∈ Language.php.lexicalRules.openings,
        utf8 mark <+: ((utf8 markedScript).drop 13).take 6 := by
  obtain ⟨-, hspans, hsearch, hsame⟩ := comments_searchable .php (utf8 markedScript)
  obtain ⟨hcomments, -⟩ := hsame markedScript rfl
  have hlist : (SourceText.ofChars Language.php.lexicalRules markedScript).comments =
      [⟨9, 12⟩, ⟨13, 19⟩] := by decide +kernel
  rw [hlist] at hcomments
  rw [← hcomments] at hspans hsearch
  dsimp only
  rw [← hcomments]
  refine ⟨rfl, (hsearch 11 12).mpr ⟨⟨9, 12⟩, by decide⟩, ?_,
    (hspans ⟨13, 19⟩ (by decide)).2.2⟩
  rw [Option.eq_none_iff_forall_ne_some]
  intro stop hstop
  obtain ⟨span, hspan, -, hcovers⟩ := (hsearch 2 stop).mp hstop
  revert span
  decide

end Bytewise

end Concordance
