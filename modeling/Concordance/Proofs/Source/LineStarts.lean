import Concordance.Proofs.Source.Position

/-!
Lines found by the bytes where they start.

The first line starts at the first byte, and each other one behind a line feed. A text is cut at any
place into whole lines, the part of a line before the place and what follows
(`exists_linesWithEnds_append`), so the line of a byte counts the line starts up to it, and the lines
with their ends are numbered alike. Main statement: `positionAt_faithful`.
-/

namespace Concordance

namespace Text

/-- The line with the number of the line feeds before a character holds what stands before it on its
line, the character, and more. -/
theorem exists_line_of_count (front : List Char) (c : Char) (back : List Char) :
    ∃ more, (linesWithEnds (front ++ c :: back))[front.count '\n']? =
        some (lastLine front ++ c :: more) ∧
      ((linesWithEnds (front ++ c :: back)).take (front.count '\n')).flatten ++ lastLine front =
        front := by
  obtain ⟨done, hlines, htext, hlength⟩ := exists_linesWithEnds_append front (c :: back)
  obtain ⟨line, rest, hline⟩ : ∃ line rest, linesWithEnds (c :: back) = (c :: line) :: rest := by
    rcases linesWithEnds_cases (c :: back) with hnil | ⟨line, rest, hback, hlines, hline⟩
    · cases hnil
    · cases line with
      | nil => exact absurd rfl (hline.elim Ended.ne_nil fun h => h.2.1)
      | cons d line =>
        obtain ⟨rfl, -⟩ := List.cons.inj hback
        exact ⟨line, _, hlines⟩
  have hfirst := linesWithEnds_append_of_notMem (newline_notMem_lastLine front) hline
  refine ⟨line, ?_, ?_⟩
  · rw [hlines, ← hlength, List.getElem?_append_right (Nat.le_refl _), Nat.sub_self, hfirst]
    rfl
  · rw [hlines, ← hlength, List.take_left, htext]

/-- The bytes behind the line feeds of a text that stands at `offset`. -/
def lineStartsFrom (offset : Nat) : List Char → List Nat
  | [] => []
  | c :: cs =>
    let next := offset + c.utf8Size
    if c = '\n' then next :: lineStartsFrom next cs else lineStartsFrom next cs

section LineStarts

variable {offset start : Nat} {text : List Char}

theorem lt_of_mem_lineStartsFrom (h : start ∈ lineStartsFrom offset text) : offset < start := by
  induction text generalizing offset with
  | nil => cases h
  | cons c cs ih =>
    have hsize := c.utf8Size_pos
    simp only [lineStartsFrom] at h
    split at h
    · rcases List.mem_cons.mp h with rfl | h
      · exact Nat.lt_add_of_pos_right hsize
      · exact Nat.lt_trans (Nat.lt_add_of_pos_right hsize) (ih h)
    · exact Nat.lt_trans (Nat.lt_add_of_pos_right hsize) (ih h)

theorem pairwise_lineStartsFrom (offset : Nat) (text : List Char) :
    (lineStartsFrom offset text).Pairwise (· < ·) := by
  induction text generalizing offset with
  | nil => exact .nil
  | cons c cs ih =>
    simp only [lineStartsFrom]
    split
    · exact List.pairwise_cons.mpr ⟨fun _ => lt_of_mem_lineStartsFrom, ih _⟩
    · exact ih _

/-- The line starts up to a byte are as many as the line feeds before it. -/
theorem countP_lineStartsFrom (offset n : Nat) (text : List Char) :
    (lineStartsFrom offset text).countP (· ≤ offset + n) = (takeBytes n text).count '\n' := by
  have hnone : ∀ {offset n : Nat} {text : List Char}, n ≤ offset →
      (lineStartsFrom offset text).countP (· ≤ n) = 0 := by
    intro offset n text hle
    rw [List.countP_eq_zero]
    intro start hstart
    have := lt_of_mem_lineStartsFrom hstart
    simp only [decide_eq_true_eq]
    omega
  induction text generalizing offset n with
  | nil => cases n <;> rfl
  | cons c cs ih =>
    by_cases hn : n = 0
    · subst hn
      rw [Nat.add_zero, hnone (Nat.le_refl offset), takeBytes_zero]
      rfl
    · have hlater : (lineStartsFrom (offset + c.utf8Size) cs).countP (· ≤ offset + n) =
          (takeBytes (n - c.utf8Size) cs).count '\n' := by
        by_cases hle : c.utf8Size ≤ n
        · rw [← ih, Nat.add_assoc, Nat.add_sub_cancel' hle]
        · -- the byte lies within the character
          rw [hnone (by omega), Nat.sub_eq_zero_of_le (by omega), takeBytes_zero]
          rfl
      rw [takeBytes_cons hn, List.count_cons, ← hlater]
      simp only [lineStartsFrom]
      split
      · next hc =>
        subst hc
        have hsize : '\n'.utf8Size = 1 := rfl
        rw [List.countP_cons, if_pos (by rw [hsize]; simp; omega)]
        rfl
      · next hc => rw [if_neg (by simpa using hc), Nat.add_zero]

/-- Behind a line feed starts the line with the number of the line feeds up to there. -/
theorem getElem?_lineStartsFrom (offset n : Nat) (text : List Char) :
    (lineStartsFrom offset text)[n]? = if n < text.count '\n' then
      some (offset + byteLength ((linesWithEnds text).take (n + 1)).flatten) else none := by
  induction text generalizing offset n with
  | nil => rfl
  | cons c cs ih =>
    simp only [lineStartsFrom]
    split
    · next hc =>
      subst hc
      rw [linesWithEnds_newline_cons, List.count_cons_self]
      cases n with
      | zero => simp
      | succ n =>
        rw [List.getElem?_cons_succ, ih, List.take_succ_cons, List.flatten_cons, byteLength_append,
          ← Nat.add_assoc]
        simp
    · next hc =>
      rw [ih, List.count_cons_of_ne hc]
      split
      · next hlt =>
        rcases linesWithEnds_cases cs with rfl | ⟨line, rest, -, hlines, -⟩
        · cases hlt
        · rw [linesWithEnds_cons_of_ne hc hlines, hlines, List.take_succ_cons, List.take_succ_cons,
            List.flatten_cons, List.flatten_cons, List.cons_append, byteLength_cons, Nat.add_assoc]
      · rfl

end LineStarts

/-- Up to any byte of a character, as many line feeds start before it as before the character. -/
theorem count_takeBytes_of_char {n : Nat} {front : List Char} {c : Char} (back : List Char)
    (hle : byteLength front ≤ n) (hlt : n < byteLength front + c.utf8Size) :
    (takeBytes n (front ++ c :: back)).count '\n' = front.count '\n' := by
  obtain ⟨k, rfl⟩ := Nat.exists_eq_add_of_le hle
  rw [takeBytes_append, List.count_append]
  by_cases hk : k = 0
  · rw [hk, takeBytes_zero]
    rfl
  · have hc : c ≠ '\n' := by
      rintro rfl
      have hsize : '\n'.utf8Size = 1 := rfl
      omega
    rw [takeBytes_cons hk, Nat.sub_eq_zero_of_le (by omega), takeBytes_zero, List.count_singleton,
      if_neg (by simpa using hc), Nat.add_zero]

end Text

open Text

namespace SourceText

/-- The bytes where the lines start. -/
def lineStarts (s : SourceText) : List Nat :=
  0 :: lineStartsFrom 0 s.chars

variable {s : SourceText} {offset : Nat}

theorem lineCount_eq (s : SourceText) : s.lineCount = s.chars.count '\n' + 1 := by
  rw [lineCount, s.lines_eq, length_splitLines]

theorem pairwise_lineStarts (s : SourceText) : s.lineStarts.Pairwise (· < ·) :=
  List.pairwise_cons.mpr ⟨fun _ => lt_of_mem_lineStartsFrom, pairwise_lineStartsFrom 0 s.chars⟩

/-- A line starts at the first byte or behind a line feed. -/
theorem lineStart_eq_getElem? (s : SourceText) (line : Nat) :
    s.lineStart line = s.lineStarts[line]?.getD s.length := by
  rw [lineStart, lineCount_eq, lineStarts]
  cases line with
  | zero => simp
  | succ line =>
    rw [List.getElem?_cons_succ, getElem?_lineStartsFrom, Nat.zero_add]
    simp only [Nat.add_lt_add_iff_right]
    split <;> rfl

/-- The line of a byte is the last of those that start at the byte or before it. -/
theorem lineOf_add_one (s : SourceText) (offset : Nat) :
    s.lineOf offset + 1 = s.lineStarts.countP (· ≤ offset) := by
  have hcount := countP_lineStartsFrom 0 offset s.chars
  rw [Nat.zero_add] at hcount
  rw [lineOf, spotAt, line_spotAt, lineStarts, List.countP_cons_of_pos (by simp), hcount]

/-- The line of a byte, cut out of the text: it starts at the byte or before it and ends behind it. -/
theorem exists_line_of_lt (h : offset < s.length) :
    ∃ line, (linesWithEnds s.chars)[s.lineOf offset]? = some line ∧
      s.lineStart (s.lineOf offset) ≤ offset ∧
      offset < s.lineStart (s.lineOf offset) + byteLength line := by
  obtain ⟨front, c, back, hchars, hle, hlt⟩ := exists_char_of_lt h
  have hline : s.lineOf offset = front.count '\n' := by
    rw [lineOf, spotAt, line_spotAt, hchars, count_takeBytes_of_char back hle hlt]
  obtain ⟨more, hget, htext⟩ := exists_line_of_count front c back
  have hstart : s.lineStart (front.count '\n') + byteLength (lastLine front) =
      byteLength front := by
    have hcount : front.count '\n' < s.lineCount := by
      rw [lineCount_eq, hchars, List.count_append]
      omega
    rw [lineStart, if_pos hcount, hchars, ← byteLength_append, htext]
  rw [hline, hchars]
  refine ⟨_, hget, by omega, ?_⟩
  rw [byteLength_append, byteLength_cons]
  omega

/-- What a line after the next one starts with is no part of the line. -/
theorem lineStart_add_one {line : Nat} {text : List Char}
    (h : (linesWithEnds s.chars)[line]? = some text) (hnext : line + 1 < s.lineCount) :
    s.lineStart (line + 1) = s.lineStart line + byteLength text := by
  rw [lineStart, lineStart, if_pos hnext, if_pos (Nat.lt_of_succ_lt hnext), List.take_add_one, h,
    List.flatten_append, byteLength_append]
  simp

theorem lineOf_of_length_le (h : s.length ≤ offset) : s.lineOf offset + 1 = s.lineCount := by
  have hwhole : takeBytes offset s.chars = s.chars := by
    obtain ⟨k, rfl⟩ := Nat.exists_eq_add_of_le h
    have htake := takeBytes_append s.chars k []
    rwa [List.append_nil, takeBytes, List.append_nil] at htake
  rw [lineOf, spotAt, line_spotAt, hwhole, lineCount_eq]

theorem lineOf_lt_lineCount (s : SourceText) (offset : Nat) : s.lineOf offset < s.lineCount := by
  have hwhole := congrArg (List.count '\n') (takeBytes_append_dropBytes offset s.chars)
  rw [List.count_append] at hwhole
  rw [lineOf, spotAt, line_spotAt, lineCount_eq]
  omega

theorem lineStart_le_length (s : SourceText) (line : Nat) : s.lineStart line ≤ s.length := by
  have hwhole := congrArg byteLength (flatten_linesWithEnds s.chars)
  rw [← List.take_append_drop line (linesWithEnds s.chars), List.flatten_append,
    byteLength_append] at hwhole
  rw [lineStart, length]
  split <;> omega

/-- Between characters, later bytes have later places. The line of a byte starts at it or before it, and
the next line, if there is one, behind it: it is found by counting the line starts up to the byte, which
ascend. Of the lines with their ends, the one with the same number holds the byte. -/
theorem positionAt_faithful (s : SourceText) :
    (∀ a b, onBoundary a s.chars = true → onBoundary b s.chars = true → a < b →
      (s.positionAt a).before (s.positionAt b) = true) ∧
    (s.lineStarts.Pairwise (· < ·) ∧
      (∀ line, s.lineStart line = s.lineStarts[line]?.getD s.length) ∧
      ∀ offset, s.lineOf offset + 1 = s.lineStarts.countP (· ≤ offset)) ∧
    (∀ offset, s.lineStart (s.lineOf offset) ≤ offset ∧
      (s.lineOf offset + 1 < s.lineCount → offset < s.lineStart (s.lineOf offset + 1))) ∧
    ∀ offset < s.length, ∃ line, (linesWithEnds s.chars)[s.lineOf offset]? = some line ∧
      byteLength ((linesWithEnds s.chars).take (s.lineOf offset)).flatten ≤ offset ∧
      offset < byteLength ((linesWithEnds s.chars).take (s.lineOf offset)).flatten +
        byteLength line := by
  refine ⟨fun a b ha hb hlt => (before_positionAt_iff ha hb).mpr hlt,
    ⟨s.pairwise_lineStarts, s.lineStart_eq_getElem?, s.lineOf_add_one⟩, fun offset => ?_,
    fun offset h => ?_⟩
  · rcases Nat.lt_or_ge offset s.length with hlt | hge
    · obtain ⟨line, hline, hstart, hstop⟩ := exists_line_of_lt hlt
      exact ⟨hstart, fun hnext => by rwa [lineStart_add_one hline hnext]⟩
    · have hlast := lineOf_of_length_le hge
      exact ⟨Nat.le_trans (s.lineStart_le_length _) hge, fun hnext => absurd hnext (by omega)⟩
  · obtain ⟨line, hline, hstart, hstop⟩ := exists_line_of_lt h
    rw [lineStart, if_pos (s.lineOf_lt_lineCount offset)] at hstart hstop
    exact ⟨line, hline, hstart, hstop⟩

/-- Characters of two bytes, an empty line, and an empty last one. -/
def accentedLines : SourceText :=
  .ofChars ⟨[], []⟩ "é\n\nxÿ\n".toList

/-- The bytes 1 and 6 lie within characters. -/
theorem positionAt_faithful_accentedLines :
    onBoundary 2 accentedLines.chars = true ∧ onBoundary 5 accentedLines.chars = true ∧
      (accentedLines.positionAt 2).before (accentedLines.positionAt 5) = true ∧
      accentedLines.lineOf 1 + 1 < accentedLines.lineCount ∧
      1 < accentedLines.lineStart (accentedLines.lineOf 1 + 1) ∧
      6 < accentedLines.length ∧ accentedLines.lineOf 6 = 2 ∧
      ∃ line, (linesWithEnds accentedLines.chars)[accentedLines.lineOf 6]? = some line ∧
        6 < byteLength ((linesWithEnds accentedLines.chars).take
          (accentedLines.lineOf 6)).flatten + byteLength line := by
  obtain ⟨hincreasing, -, hlines, hholds⟩ := positionAt_faithful accentedLines
  have htwo : onBoundary 2 accentedLines.chars = true := by decide +kernel
  have hfive : onBoundary 5 accentedLines.chars = true := by decide +kernel
  have hnext : accentedLines.lineOf 1 + 1 < accentedLines.lineCount := by decide +kernel
  have hlength : 6 < accentedLines.length := by decide +kernel
  obtain ⟨line, hline, -, hstop⟩ := hholds 6 hlength
  exact ⟨htwo, hfive, hincreasing 2 5 htwo hfive (by decide), hnext, (hlines 1).2 hnext, hlength,
    by decide +kernel, line, hline, hstop⟩

end SourceText

end Concordance
