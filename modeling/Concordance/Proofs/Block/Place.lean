import Concordance.Block.Place
import Concordance.Proofs.Text.Trim

/-!
What the search for the comments above a definition takes.

Main statements: `commentsUpwards_whole` and `commentsUpwards_lines` (the comments found are whole and
are the lines right above, and above them no comment ends) and `NoneAbove.not_suffix` (where no
comment ends, none of whole lines stands).
-/

namespace Concordance

open Text

section Upwards

/-- Where a comment is found, its first line, read upwards, opens it and no line below that does, and
no line between the first and the last closes it. -/
theorem exists_of_blockStart_eq_lines {closing : Bool} {ls : List (List Char)} {count : Nat}
    (h : blockStart closing ls = .lines count) :
    ∃ inner first above, ls = inner ++ first :: above ∧ inner.length + 1 = count ∧
      "/*".toList.isPrefixOf (trim first) = true ∧
      (∀ line ∈ inner, contains "/*".toList (trim line) = false) ∧
      (closing = false → ∀ line ∈ inner, contains "*/".toList (trim line) = false) ∧
      ∀ line ∈ inner.tail, contains "*/".toList (trim line) = false := by
  induction ls generalizing closing count with
  | nil => simp [blockStart] at h
  | cons line above ih =>
    simp only [blockStart] at h
    split at h
    · split at h
      · next hopen =>
        obtain rfl : 1 = count := BlockStart.lines.inj h
        exact ⟨[], line, above, rfl, rfl, hopen, by simp, by simp, by simp⟩
      · split at h <;> cases h
    · next hopen =>
      split at h
      · cases h
      · next hclose =>
        split at h
        · next n hn =>
          obtain rfl : n + 1 = count := BlockStart.lines.inj h
          obtain ⟨inner, first, rest, rfl, hcount, hfirst, honce, hinner, -⟩ := ih hn
          refine ⟨line :: inner, first, rest, rfl, by rw [← hcount]; rfl, hfirst,
            List.forall_mem_cons.mpr ⟨by simpa using hopen, honce⟩, ?_, hinner rfl⟩
          intro hclosing
          exact List.forall_mem_cons.mpr ⟨by simpa [hclosing] using hclose, hinner rfl⟩
        · next hother =>
          exact absurd h (hother count)

theorem blockStart_append {closing : Bool} {inner above : List (List Char)} {first : List Char}
    (hfirst : "/*".toList.isPrefixOf (trim first) = true)
    (honce : ∀ line ∈ inner, contains "/*".toList (trim line) = false)
    (hclosing : closing = false → ∀ line ∈ inner, contains "*/".toList (trim line) = false)
    (hinner : ∀ line ∈ inner.tail, contains "*/".toList (trim line) = false) :
    blockStart closing (inner ++ first :: above) = .lines (inner.length + 1) := by
  induction inner generalizing closing with
  | nil =>
    have hopen : contains "/*".toList (trim first) = true :=
      contains_iff.mpr (List.isPrefixOf_iff_prefix.mp hfirst).isInfix
    simp only [List.nil_append, blockStart, hopen, hfirst, ↓reduceIte, List.length_nil,
      Nat.zero_add]
  | cons line inner ih =>
    obtain ⟨hopen, honce⟩ := List.forall_mem_cons.mp honce
    have hclose : (!closing && contains "*/".toList (trim line)) = false := by
      cases closing with
      | false => simpa using hclosing rfl line List.mem_cons_self
      | true => rfl
    have hrest : blockStart false (inner ++ first :: above) = .lines (inner.length + 1) :=
      ih honce (fun _ => hinner) fun l hl => hinner l (List.mem_of_mem_tail hl)
    rw [List.cons_append, blockStart]
    simp only [hopen, hclose, hrest, Bool.false_eq_true, ↓reduceIte, List.length_cons]

/-- The lines of one block comment: only the first opens it, and none but the last closes it. -/
structure BlockComment (lines : List (List Char)) : Prop where
  opened : ∃ line ∈ lines.head?, "/*".toList <+: trim line
  closed : ∃ line ∈ lines.getLast?, "*/".toList <:+ trim line
  opened_once : ∀ line ∈ lines.tail, ¬ "/*".toList <:+: line
  closed_once : ∀ line ∈ lines.tail.dropLast, ¬ "*/".toList <:+: line

namespace CommentBlock

/-- The lines are a run of line comments or those of one block comment. -/
def Whole (hash : Bool) (b : CommentBlock) : Prop :=
  b.lineComments = true ∧ b.lines ≠ [] ∧
      (∀ line ∈ b.lines, (lineCommentBody? hash line).isSome = true) ∨
    b.lineComments = false ∧ BlockComment b.lines

/-- The lines are a run of line comments, or one comment that its first line opens and that no line
before the last closes. -/
def Shaped (hash : Bool) (b : CommentBlock) : Prop :=
  ∃ first rest, b.lines = first :: rest ∧
    ((lineCommentBody? hash first).isSome = true ∨
      ("/*".toList.isPrefixOf (trim first) = true ∧
        ∀ line ∈ rest.dropLast, contains "*/".toList (trim line) = false))

theorem contains_trim_eq_false_iff {mark line : List Char} (hne : mark ≠ [])
    (hmark : ∀ c ∈ mark, isBlank c = false) :
    contains mark (trim line) = false ↔ ¬ mark <:+: line := by
  rw [← Bool.not_eq_true, contains_iff, isInfix_trim_iff hne hmark]

theorem contains_open_eq_false_iff {line : List Char} :
    contains "/*".toList (trim line) = false ↔ ¬ "/*".toList <:+: line :=
  contains_trim_eq_false_iff (by decide) (by decide)

theorem contains_close_eq_false_iff {line : List Char} :
    contains "*/".toList (trim line) = false ↔ ¬ "*/".toList <:+: line :=
  contains_trim_eq_false_iff (by decide) (by decide)

theorem Whole.shaped {hash : Bool} {b : CommentBlock} (h : b.Whole hash) : b.Shaped hash := by
  rcases h with ⟨-, hne, hall⟩ | ⟨-, hblock⟩
  · obtain ⟨first, rest, hlines⟩ := List.exists_cons_of_ne_nil hne
    exact ⟨first, rest, hlines, Or.inl (hall first (by simp [hlines]))⟩
  · obtain ⟨first, hfirst, hopen⟩ := hblock.opened
    obtain ⟨rest, hlines⟩ := List.head?_eq_some_iff.mp hfirst
    refine ⟨first, rest, hlines, Or.inr ⟨List.isPrefixOf_iff_prefix.mpr hopen, ?_⟩⟩
    intro line hline
    exact contains_close_eq_false_iff.mpr (hblock.closed_once line (by simpa [hlines] using hline))

theorem Whole.lines_ne_nil {hash : Bool} {b : CommentBlock} (h : b.Whole hash) : b.lines ≠ [] := by
  obtain ⟨first, rest, hlines, -⟩ := h.shaped
  simp [hlines]

end CommentBlock

/-- No comment ends right above: the search from there gives none, whatever the fuel. -/
def NoneAbove (hash : Bool) (above : List (List Char)) : Prop :=
  ∀ fuel, (commentsUpwards hash fuel above).1 = []

/-- A line that is no line comment, and with which no comment of whole lines ends, stops the
search. -/
theorem noneAbove_of_stop {hash : Bool} {line : List Char} {above : List (List Char)}
    (hcomment : (lineCommentBody? hash line).isSome = false)
    (hstop : "*/".toList.isSuffixOf (trim line) = true →
      ∀ count, blockStart true (line :: above) ≠ .lines count) :
    NoneAbove hash (line :: above) := by
  intro fuel
  cases fuel with
  | zero => rfl
  | succ fuel =>
    simp only [commentsUpwards, hcomment, Bool.false_eq_true, ↓reduceIte]
    split
    · rfl
    · next hend =>
      split
      · next count hcount =>
        exact absurd hcount (hstop (by simpa using hend) count)
      · rfl
      · rfl

/-- The lines from the first that opens a comment down to the last, which ends with its end, are a
whole comment. -/
theorem CommentBlock.whole_of_blockStart (hash : Bool) {line : List Char} {above : List (List Char)}
    {count : Nat} (hend : "*/".toList.isSuffixOf (trim line) = true)
    (hstart : blockStart true (line :: above) = .lines count) :
    CommentBlock.Whole hash ⟨((line :: above).take count).reverse, false⟩ := by
  obtain ⟨inner, first, rest, hlines, rfl, hopen, honce, -, hinner⟩ :=
    exists_of_blockStart_eq_lines hstart
  have htake : ((line :: above).take (inner.length + 1)).reverse = first :: inner.reverse := by
    rw [hlines, List.append_cons, List.take_left' (by simp)]
    simp
  have hlast : ((line :: above).take (inner.length + 1)).reverse.getLast? = some line := by
    simp
  refine Or.inr ⟨rfl, ⟨first, by rw [htake]; rfl, List.isPrefixOf_iff_prefix.mp hopen⟩,
    ⟨line, hlast, by simpa using hend⟩, ?_, ?_⟩
  · intro l hl
    rw [htake, List.tail_cons, List.mem_reverse] at hl
    exact CommentBlock.contains_open_eq_false_iff.mp (honce l hl)
  · intro l hl
    rw [htake, List.tail_cons, List.dropLast_reverse, List.mem_reverse] at hl
    exact CommentBlock.contains_close_eq_false_iff.mp (hinner l hl)

/-- The search takes a whole comment off the lines and goes on above it, or no comment ends there. -/
theorem commentsUpwards_step (hash : Bool) (above : List (List Char)) :
    NoneAbove hash above ∨ ∃ b : CommentBlock, ∃ rest, b.Whole hash ∧ above = b.lines.reverse ++ rest ∧
      ∀ fuel, (commentsUpwards hash (fuel + 1) above).1 = (commentsUpwards hash fuel rest).1 ++ [b] := by
  cases above with
  | nil => exact Or.inl fun fuel => by cases fuel <;> rfl
  | cons line above =>
    by_cases hcomment : (lineCommentBody? hash line).isSome = true
    · -- a run of line comments is taken whole
      generalize hrun : ((line :: above).takeWhile fun l => (lineCommentBody? hash l).isSome) = run
      have hall : ∀ l ∈ run, (lineCommentBody? hash l).isSome = true := by
        rw [← hrun]
        exact fun l hl => List.all_eq_true.mp List.all_takeWhile l hl
      have hne : run ≠ [] := by simp [← hrun, hcomment]
      have hpre : run <+: line :: above := hrun ▸ List.takeWhile_prefix _
      refine Or.inr ⟨⟨run.reverse, true⟩, (line :: above).drop run.length,
        Or.inl ⟨rfl, by simpa using hne, by simpa using hall⟩, ?_, fun fuel => ?_⟩
      · rw [List.reverse_reverse]
        exact (List.prefix_iff_eq_append.mp hpre).symm
      · simp only [commentsUpwards, hcomment, ↓reduceIte, hrun]
    · rw [Bool.not_eq_true] at hcomment
      by_cases hend : "*/".toList.isSuffixOf (trim line) = true
      · cases hstart : blockStart true (line :: above) with
        | lines count =>
          refine Or.inr ⟨_, (line :: above).drop count, CommentBlock.whole_of_blockStart hash hend hstart,
            ?_, fun fuel => ?_⟩
          · rw [List.reverse_reverse, List.take_append_drop]
          · simp only [commentsUpwards, hcomment, hend, hstart, Bool.not_true, Bool.false_eq_true,
              ↓reduceIte]
        | trailing => exact Or.inl (noneAbove_of_stop hcomment fun _ count => by rw [hstart]; simp)
        | unmatched => exact Or.inl (noneAbove_of_stop hcomment fun _ count => by rw [hstart]; simp)
      · exact Or.inl (noneAbove_of_stop hcomment fun h => absurd h hend)

theorem commentsUpwards_whole {hash : Bool} {fuel : Nat} {above : List (List Char)}
    {b : CommentBlock} (h : b ∈ (commentsUpwards hash fuel above).1) : b.Whole hash := by
  induction fuel generalizing above with
  | zero => simp [commentsUpwards] at h
  | succ fuel ih =>
    rcases commentsUpwards_step hash above with hnone | ⟨found, rest, hwhole, -, hfound⟩
    · rw [hnone] at h
      cases h
    · rw [hfound] at h
      rcases List.mem_append.mp h with h | h
      · exact ih h
      · obtain rfl := List.mem_singleton.mp h
        exact hwhole

/-- The lines of one block comment are found from the last of them. -/
theorem BlockComment.blockStart_eq {lines : List (List Char)} (h : BlockComment lines)
    (above : List (List Char)) : blockStart true (lines.reverse ++ above) = .lines lines.length := by
  obtain ⟨first, hfirst, hopened⟩ := h.opened
  obtain ⟨rest, rfl⟩ := List.head?_eq_some_iff.mp hfirst
  rw [List.reverse_cons, List.append_assoc, List.singleton_append,
    blockStart_append (List.isPrefixOf_iff_prefix.mpr hopened) ?_ (by simp) ?_, List.length_reverse,
    List.length_cons]
  · intro l hl
    exact CommentBlock.contains_open_eq_false_iff.mpr (h.opened_once l (by simpa using hl))
  · intro l hl
    rw [List.tail_reverse, List.mem_reverse] at hl
    exact CommentBlock.contains_close_eq_false_iff.mpr (h.closed_once l (by simpa using hl))

/-- Where no comment ends, the lines above are not those of a comment. -/
theorem NoneAbove.not_suffix {hash : Bool} {above : List (List Char)} (h : NoneAbove hash above)
    {b : CommentBlock} (hb : b.Whole hash) : ¬ b.lines <:+ above.reverse := by
  rintro ⟨front, hfront⟩
  obtain ⟨last, hlast⟩ := Option.isSome_iff_exists.mp (List.getLast?_isSome.mpr hb.lines_ne_nil)
  obtain ⟨upper, hlines⟩ := List.getLast?_eq_some_iff.mp hlast
  have habove : above = b.lines.reverse ++ front.reverse := by
    rw [← List.reverse_append, hfront, List.reverse_reverse]
  have hcons : above = last :: (upper.reverse ++ front.reverse) := by simp [habove, hlines]
  have hstep := h 1
  rw [hcons] at hstep
  simp only [commentsUpwards] at hstep
  split at hstep
  · simp at hstep
  · next hcomment =>
    rcases hb with ⟨-, -, hall⟩ | ⟨-, hblock⟩
    · exact hcomment (hall last (by simp [hlines]))
    · obtain ⟨line, hline, hclosed⟩ := hblock.closed
      obtain rfl : last = line := Option.some.inj (hlast.symm.trans hline)
      have hend : (!"*/".toList.isSuffixOf (trim last)) = false := by simpa using hclosed
      have hstart := hblock.blockStart_eq front.reverse
      rw [← habove, hcons] at hstart
      simp only [hend, Bool.false_eq_true, ↓reduceIte, hstart] at hstep
      simp at hstep

/-- The comments found are the lines right above, and above them no comment ends. -/
theorem commentsUpwards_lines (hash : Bool) {fuel : Nat} (above : List (List Char))
    (hfuel : above.length ≤ fuel) :
    ∃ rest, NoneAbove hash rest ∧
      above = ((commentsUpwards hash fuel above).1.flatMap CommentBlock.lines).reverse ++ rest := by
  induction fuel generalizing above with
  | zero =>
    obtain rfl : above = [] := by simpa using hfuel
    exact ⟨[], fun fuel => by cases fuel <;> rfl, rfl⟩
  | succ fuel ih =>
    rcases commentsUpwards_step hash above with hnone | ⟨b, rest, hwhole, hlines, hfound⟩
    · exact ⟨above, hnone, by rw [hnone]; rfl⟩
    · have hpos := List.length_pos_iff.mpr hwhole.lines_ne_nil
      have hshorter : rest.length ≤ fuel := by
        rw [hlines, List.length_append, List.length_reverse] at hfuel
        omega
      obtain ⟨top, hnone, htop⟩ := ih rest hshorter
      refine ⟨top, hnone, ?_⟩
      rw [hfound, List.flatMap_append, List.flatMap_singleton, List.reverse_append, List.append_assoc,
        ← htop, hlines]

/-- The comments found are whole and are the lines right above the definition; above them no comment
ends. -/
theorem blocksAbove_found {hash : Bool} {lines : List (List Char)} {d : Nat}
    {blocks : List CommentBlock} (h : blocksAbove hash lines d = .found blocks)
    (hd : d ≤ lines.length) :
    ∃ start < d, d - (blocks.flatMap CommentBlock.lines).length = start ∧
      (∀ b ∈ blocks, b.Whole hash) ∧
      (lines.take d).drop start = blocks.flatMap CommentBlock.lines ∧
      NoneAbove hash (lines.take start).reverse := by
  obtain ⟨rest, hnone, habove⟩ := commentsUpwards_lines hash (lines.take d).reverse (Nat.le_refl _)
  obtain ⟨hne, hblocks⟩ : blocks ≠ [] ∧
      (commentsUpwards hash (lines.take d).reverse.length (lines.take d).reverse).1 = blocks := by
    simp only [blocksAbove] at h
    split at h
    · cases h
    · cases h
    · next found flag hmalformed hmissing hup =>
      obtain rfl := BlocksAbove.found.inj h
      refine ⟨?_, by rw [hup]⟩
      rintro rfl
      cases flag with
      | true => exact hmalformed rfl rfl
      | false => exact hmissing rfl rfl
  have hwhole : ∀ b ∈ blocks, b.Whole hash := fun b hb => commentsUpwards_whole (hblocks ▸ hb)
  have htake : lines.take d = rest.reverse ++ blocks.flatMap CommentBlock.lines := by
    rw [← List.reverse_reverse (lines.take d), habove, List.reverse_append, List.reverse_reverse,
      hblocks]
  have hheight : 0 < (blocks.flatMap CommentBlock.lines).length := by
    obtain ⟨b, hb⟩ := List.exists_mem_of_ne_nil blocks hne
    rw [List.length_pos_iff, Ne, List.flatMap_eq_nil_iff]
    exact fun hnil => (hwhole b hb).lines_ne_nil (hnil b hb)
  have hlength : rest.reverse.length + (blocks.flatMap CommentBlock.lines).length = d := by
    rw [← List.length_append, ← htake, List.length_take_of_le hd]
  refine ⟨rest.reverse.length, by omega, by omega, hwhole, ?_, ?_⟩
  · rw [htake]
    exact List.drop_left
  · have hfront : lines.take rest.reverse.length = rest.reverse := by
      rw [← Nat.min_eq_left (show rest.reverse.length ≤ d by omega), ← List.take_take, htake]
      exact List.take_left
    rwa [hfront, List.reverse_reverse]

theorem blocksAbove_of_not_found {hash : Bool} {lines : List (List Char)} {d : Nat}
    (h : ∀ blocks, blocksAbove hash lines d ≠ .found blocks) :
    NoneAbove hash (lines.take d).reverse := by
  obtain ⟨rest, hnone, habove⟩ := commentsUpwards_lines hash (lines.take d).reverse (Nat.le_refl _)
  have hempty : (commentsUpwards hash (lines.take d).reverse.length (lines.take d).reverse).1 =
      [] := by
    simp only [blocksAbove] at h
    split at h
    · next hup => rw [hup]
    · next hup => rw [hup]
    · next blocks _ _ _ _ => exact absurd rfl (h blocks)
  rw [hempty] at habove
  rw [habove]
  exact hnone

end Upwards

end Concordance
