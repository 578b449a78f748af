import Mathlib.Data.List.DropRight
import Concordance.Proofs.Text.Cut
import Concordance.Source.Basic

/-!
The place of a byte: the line and the character on it, as counts over what stands before. A text is cut
at any place into whole lines, the part of a line before the place and what follows
(`exists_linesWithEnds_append`).

Main statements: `positionAt_of_onBoundary` (between two characters a place counts the line feeds
before it and the characters behind the last of them), `upTo_positionAt` (later bytes have later
places, from a byte between two characters on), `positionAt_injOn` (two such bytes have two places) and
`before_positionAt_iff`.
-/

namespace Concordance

namespace Text

/-- What stands behind the last line feed. -/
def lastLine (text : List Char) : List Char :=
  text.rtakeWhile (· ≠ '\n')

theorem lastLine_newline (text : List Char) : lastLine (text ++ ['\n']) = [] :=
  List.rtakeWhile_concat_neg _ text '\n' (by simp)

theorem lastLine_append_of_notMem {text more : List Char} (h : '\n' ∉ more) :
    lastLine (text ++ more) = lastLine text ++ more := by
  induction more using List.reverseRecOn with
  | nil => rw [List.append_nil, List.append_nil]
  | append_singleton more c ih =>
    rw [List.mem_append, not_or, List.mem_singleton] at h
    have hc : decide (c ≠ '\n') = true := by simpa using Ne.symm h.2
    rw [← List.append_assoc, lastLine, List.rtakeWhile_concat_pos _ _ c hc, ← List.append_assoc]
    exact congrArg (· ++ [c]) (ih h.1)

theorem lastLine_append_of_mem {text more : List Char} (h : '\n' ∈ more) :
    lastLine (text ++ more) = lastLine more := by
  induction more using List.reverseRecOn with
  | nil => cases h
  | append_singleton more c ih =>
    by_cases hc : c = '\n'
    · subst hc
      rw [← List.append_assoc, lastLine_newline, lastLine_newline]
    · have hmore : '\n' ∈ more := by simpa [Ne.symm hc] using h
      have hsingle : '\n' ∉ [c] := by simpa using Ne.symm hc
      rw [← List.append_assoc, lastLine_append_of_notMem hsingle, lastLine_append_of_notMem hsingle,
        ih hmore]

theorem length_lastLine_le (text : List Char) : (lastLine text).length ≤ byteLength text :=
  (List.rtakeWhile_suffix _ text).length_le.trans (length_le_byteLength text)

theorem newline_notMem_lastLine (text : List Char) : '\n' ∉ lastLine text := fun h => by
  simpa using List.mem_rtakeWhile_imp h

/-- The lines of a text are those that end before a place, and those that what is left is cut into. -/
theorem exists_linesWithEnds_append (pre post : List Char) :
    ∃ done, linesWithEnds (pre ++ post) = done ++ linesWithEnds (lastLine pre ++ post) ∧
      done.flatten ++ lastLine pre = pre ∧ done.length = pre.count '\n' := by
  induction pre using List.reverseRecOn generalizing post with
  | nil => exact ⟨[], rfl, rfl, rfl⟩
  | append_singleton pre c ih =>
    obtain ⟨done, hlines, htext, hlength⟩ := ih (c :: post)
    rw [List.append_assoc, List.singleton_append, hlines, List.count_append]
    by_cases hc : c = '\n'
    · subst hc
      have hended : Ended (lastLine pre ++ ['\n']) :=
        ⟨lastLine pre, rfl, newline_notMem_lastLine pre⟩
      refine ⟨done ++ [lastLine pre ++ ['\n']], ?_, ?_, ?_⟩
      · rw [lastLine_newline, ← List.singleton_append, ← List.append_assoc,
          linesWithEnds_append_of_ended hended, List.append_assoc]
        rfl
      · rw [lastLine_newline, List.append_nil, List.flatten_append, List.flatten_singleton,
          ← List.append_assoc, htext]
      · rw [List.length_append, hlength]
        rfl
    · have hlast : lastLine (pre ++ [c]) = lastLine pre ++ [c] :=
        lastLine_append_of_notMem (by simpa using Ne.symm hc)
      refine ⟨done, ?_, ?_, ?_⟩
      · rw [hlast, List.append_assoc, List.singleton_append]
      · rw [hlast, ← List.append_assoc, htext]
      · rw [hlength, List.count_singleton, if_neg (by simpa using hc), Nat.add_zero]

/-- A place with something behind it lies on a line. -/
theorem count_newlines_lt (pre : List Char) {post : List Char} (hpost : post ≠ []) :
    pre.count '\n' < (linesWithEnds (pre ++ post)).length := by
  obtain ⟨done, hlines, -, hlength⟩ := exists_linesWithEnds_append pre post
  have hne : linesWithEnds (lastLine pre ++ post) ≠ [] := by
    intro hnil
    have htext := flatten_linesWithEnds (lastLine pre ++ post)
    rw [hnil] at htext
    exact hpost (List.append_eq_nil_iff.mp htext.symm).2
  rw [hlines, List.length_append, hlength]
  exact Nat.lt_add_of_pos_right (List.length_pos_iff.mpr hne)

/-- From the line of a place on the lines hold what stands before the place on its line, and all that
follows. -/
theorem flatten_drop_count_newlines (pre post : List Char) :
    ((linesWithEnds (pre ++ post)).drop (pre.count '\n')).flatten = lastLine pre ++ post := by
  obtain ⟨done, hlines, -, hlength⟩ := exists_linesWithEnds_append pre post
  rw [hlines, ← hlength, List.drop_left, flatten_linesWithEnds]

/-- A part of the text without a line feed stands on one line. -/
theorem exists_line_of_notMem (pre : List Char) {mid : List Char} (post : List Char)
    (hne : mid ≠ []) (hmid : '\n' ∉ mid) :
    ∃ after, after <+: post ∧ (linesWithEnds (pre ++ mid ++ post))[pre.count '\n']? =
      some (lastLine pre ++ mid ++ after) := by
  obtain ⟨done, hlines, -, hlength⟩ := exists_linesWithEnds_append pre (mid ++ post)
  have hnone : '\n' ∉ lastLine pre ++ mid :=
    List.not_mem_append (newline_notMem_lastLine pre) hmid
  rw [List.append_assoc, hlines, ← hlength, List.getElem?_append_right (Nat.le_refl _), Nat.sub_self,
    ← List.append_assoc]
  rcases linesWithEnds_cases post with rfl | ⟨line, rest, hpost, hlines, -⟩
  · rw [List.append_nil, linesWithEnds_of_notMem (List.append_ne_nil_of_right_ne_nil _ hne) hnone]
    exact ⟨[], List.nil_prefix, by simp⟩
  · rw [linesWithEnds_append_of_notMem hnone hlines]
    exact ⟨line, ⟨rest, hpost.symm⟩, rfl⟩

end Text

open Text

namespace Spot

variable {line character lineStart offset : Nat} {lineText : List Char}

theorem character_forward (passed : List Char) (hcharacter : character = (lastLine passed).length)
    (count : Nat) (cs : List Char) :
    (forward line character lineStart lineText offset count cs).character =
      (lastLine (passed ++ takeBytes count cs)).length := by
  induction cs generalizing line character lineStart lineText offset count passed with
  | nil => cases count <;> simpa [takeBytes, forward] using hcharacter
  | cons c cs ih =>
    cases count with
    | zero => simpa [takeBytes, forward] using hcharacter
    | succ count =>
      simp only [takeBytes, forward]
      rw [List.append_cons]
      split
      · next hc =>
        subst hc
        exact ih _ (by rw [lastLine_newline, List.length_nil]) _
      · next hc =>
        refine ih _ ?_ _
        rw [lastLine_append_of_notMem (by simpa using Ne.symm hc), hcharacter, List.length_append,
          List.length_singleton]

theorem lineStart_forward (passed : List Char)
    (hstart : lineStart + byteLength (lastLine passed) = offset) (count : Nat) (cs : List Char) :
    (forward line character lineStart lineText offset count cs).lineStart +
        byteLength (lastLine (passed ++ takeBytes count cs)) =
      offset + byteLength (takeBytes count cs) := by
  induction cs generalizing line character lineStart lineText offset count passed with
  | nil => cases count <;> simpa [takeBytes, forward] using hstart
  | cons c cs ih =>
    cases count with
    | zero => simpa [takeBytes, forward] using hstart
    | succ count =>
      simp only [takeBytes, forward, byteLength_cons, ← Nat.add_assoc]
      rw [List.append_cons]
      split
      · next hc =>
        subst hc
        exact ih _ (by rw [lastLine_newline, byteLength_nil, Nat.add_zero]) _
      · next hc =>
        refine ih _ ?_ _
        rw [lastLine_append_of_notMem (by simpa using Ne.symm hc), byteLength_append,
          ← Nat.add_assoc, hstart]
        rfl

theorem lineText_forward (passed : List Char) (cs : List Char)
    (htext : lineText = lastLine passed ++ cs) (count : Nat) :
    (forward line character lineStart lineText offset count cs).lineText =
      lastLine (passed ++ takeBytes count cs) ++ dropBytes count cs := by
  induction cs generalizing line character lineStart lineText offset count passed with
  | nil => cases count <;> simpa [takeBytes, dropBytes, forward] using htext
  | cons c cs ih =>
    cases count with
    | zero => simpa [takeBytes, dropBytes, forward] using htext
    | succ count =>
      simp only [takeBytes, dropBytes, forward]
      rw [List.append_cons]
      split
      · next hc =>
        subst hc
        exact ih _ (by rw [lastLine_newline, List.nil_append]) _
      · next hc =>
        refine ih _ ?_ _
        rw [lastLine_append_of_notMem (by simpa using Ne.symm hc), htext, List.append_assoc]
        rfl

end Spot

namespace Text

/-- The character of a spot counts the characters behind the last line feed before it. -/
theorem character_spotAt (offset : Nat) (text : List Char) :
    (spotAt offset text).character = (lastLine (takeBytes offset text)).length :=
  Spot.character_forward [] rfl offset text

/-- The line of a spot starts as many bytes before it as these characters take. -/
theorem lineStart_spotAt (offset : Nat) (text : List Char) :
    (spotAt offset text).lineStart + byteLength (lastLine (takeBytes offset text)) =
      byteLength (takeBytes offset text) := by
  rw [← Nat.zero_add (byteLength (takeBytes offset text))]
  exact Spot.lineStart_forward [] rfl offset text

end Text

section Position

variable {s : SourceText} {a b : Nat}

theorem line_positionAt (offset : Nat) :
    (s.positionAt offset).line = (takeBytes offset s.chars).count '\n' := by
  unfold SourceText.positionAt
  dsimp only
  split <;> exact line_spotAt offset s.chars

theorem SourceText.charAt?_eq_some_iff {n : Nat} {c : Char} :
    s.charAt? n = some c ↔ ∃ front back, s.chars = front ++ c :: back ∧ byteLength front = n := by
  unfold SourceText.charAt? SourceText.spotAt
  dsimp only
  rw [offset_spotAt, rest_spotAt]
  constructor
  · intro h
    split at h
    · next hfront =>
      obtain ⟨back, hback⟩ := List.head?_eq_some_iff.mp h
      exact ⟨_, back, by rw [← hback, takeBytes_append_dropBytes], hfront⟩
    · cases h
  · rintro ⟨front, back, hchars, rfl⟩
    rw [hchars, takeBytes_byteLength, dropBytes_byteLength, if_pos rfl, List.head?_cons]

theorem SourceText.charAt?_of_chars {front back : List Char} (h : s.chars = front ++ back) :
    s.charAt? (byteLength front) = back.head? := by
  unfold SourceText.charAt? SourceText.spotAt
  dsimp only
  rw [offset_spotAt, rest_spotAt, h, takeBytes_byteLength, dropBytes_byteLength, if_pos rfl]

theorem beforeOnLine_byteLength {front back : List Char} (h : s.chars = front ++ back) :
    s.beforeOnLine (byteLength front) = lastLine front := by
  have htext : (s.spotAt (byteLength front)).lineText = lastLine front ++ back := by
    rw [SourceText.spotAt, h]
    refine (Spot.lineText_forward [] (front ++ back) rfl _).trans ?_
    rw [takeBytes_byteLength, dropBytes_byteLength, List.nil_append]
  have hoffset : (s.spotAt (byteLength front)).offset = byteLength front := by
    rw [SourceText.spotAt, offset_spotAt, h, takeBytes_byteLength]
  have hstart : (s.spotAt (byteLength front)).lineStart + byteLength (lastLine front) =
      byteLength front := by
    have hstart := lineStart_spotAt (byteLength front) s.chars
    rwa [h, takeBytes_byteLength, ← h] at hstart
  have hsize : (s.spotAt (byteLength front)).offset - (s.spotAt (byteLength front)).lineStart =
      byteLength (lastLine front) := by
    omega
  rw [SourceText.beforeOnLine, Spot.before, hsize, htext, takeBytes_byteLength]

theorem afterOnLine_byteLength {front back : List Char} (h : s.chars = front ++ back) :
    s.afterOnLine (byteLength front) = dropTail (· == '\r') (back.takeWhile (· ≠ '\n')) := by
  rw [SourceText.afterOnLine, Spot.after, SourceText.spotAt, rest_spotAt, h, dropBytes_byteLength]

/-- A place with something behind it lies on a line. -/
theorem line_positionAt_lt {offset : Nat} (h : dropBytes offset s.chars ≠ []) :
    (s.positionAt offset).line < (linesWithEnds s.chars).length := by
  have hlt := count_newlines_lt (takeBytes offset s.chars) h
  rwa [takeBytes_append_dropBytes, ← line_positionAt] at hlt

/-- Between two characters a place counts the characters behind the last line feed; within a
character it counts bytes. -/
theorem character_positionAt (offset : Nat) :
    (s.positionAt offset).character =
      if byteLength (takeBytes offset s.chars) ≤ offset then
        (lastLine (takeBytes offset s.chars)).length
      else offset - (s.spotAt offset).lineStart := by
  unfold SourceText.positionAt SourceText.spotAt
  dsimp only
  rw [offset_spotAt]
  split
  · exact character_spotAt offset s.chars
  · rfl

theorem positionAt_of_onBoundary (h : onBoundary a s.chars = true) :
    s.positionAt a =
      ⟨(takeBytes a s.chars).count '\n', (lastLine (takeBytes a s.chars)).length⟩ := by
  have hle : byteLength (takeBytes a s.chars) ≤ a := by
    rw [onBoundary, beq_iff_eq] at h
    exact h.le
  have hcharacter := character_positionAt (s := s) a
  rw [if_pos hle] at hcharacter
  rw [← line_positionAt, ← hcharacter]

/-- What stands before a later byte starts with what stands before an earlier one. -/
theorem takeBytes_eq_append (ha : onBoundary a s.chars = true) (hab : a ≤ b) :
    ∃ more, takeBytes b s.chars = takeBytes a s.chars ++ more := by
  obtain ⟨pre, post, hchars, rfl⟩ := onBoundary_iff.mp ha
  refine ⟨takeBytes (b - byteLength pre) post, ?_⟩
  rw [hchars, takeBytes_byteLength, ← takeBytes_append, Nat.add_sub_cancel' hab]

/-- A stretch between two characters is cut at a third. -/
theorem slice_eq_append (ha : onBoundary a s.chars = true) (hb : onBoundary b s.chars = true)
    (hab : a ≤ b) (hbc : b ≤ c) : s.slice a c = s.slice a b ++ s.slice b c := by
  obtain ⟨lead, tail, hchars, rfl⟩ := onBoundary_iff.mp ha
  obtain ⟨front, back, hchars', rfl⟩ := onBoundary_iff.mp hb
  have hprefix : ∃ mid, front = lead ++ mid := by
    obtain ⟨mid, hmid⟩ := takeBytes_eq_append ha hab
    rw [hchars', takeBytes_byteLength, ← hchars', hchars, takeBytes_byteLength] at hmid
    exact ⟨mid, hmid⟩
  obtain ⟨mid, rfl⟩ := hprefix
  obtain ⟨k, rfl⟩ := Nat.exists_eq_add_of_le hbc
  have hsize : byteLength (lead ++ mid) + k - byteLength lead = byteLength mid + k := by
    rw [byteLength_append]
    omega
  have hsize' : byteLength (lead ++ mid) - byteLength lead = byteLength mid := by
    rw [byteLength_append]
    omega
  simp only [SourceText.slice, sliceBytes]
  rw [hchars', dropBytes_byteLength, List.append_assoc, dropBytes_byteLength, hsize, hsize',
    takeBytes_byteLength, takeBytes_append, Nat.add_sub_cancel_left]

/-- From a byte between two characters on, later bytes have later places. -/
theorem upTo_positionAt (ha : onBoundary a s.chars = true) (hab : a ≤ b) :
    (s.positionAt a).upTo (s.positionAt b) = true := by
  obtain ⟨more, hmore⟩ := takeBytes_eq_append ha hab
  have hline : (s.positionAt b).line = (s.positionAt a).line + more.count '\n' := by
    rw [line_positionAt, line_positionAt, hmore, List.count_append]
  by_cases hnewline : '\n' ∈ more
  · have hpos : 0 < more.count '\n' := List.count_pos_iff.mpr hnewline
    simp [Position.upTo, hline, hpos]
  · have hsame : (s.positionAt b).line = (s.positionAt a).line := by
      rw [hline, List.count_eq_zero_of_not_mem hnewline, Nat.add_zero]
    have hlast : lastLine (takeBytes b s.chars) = lastLine (takeBytes a s.chars) ++ more := by
      rw [hmore, lastLine_append_of_notMem hnewline]
    have hcharacter : (s.positionAt a).character ≤ (s.positionAt b).character := by
      rw [positionAt_of_onBoundary ha, character_positionAt]
      split
      · rw [hlast, List.length_append]
        exact Nat.le_add_right _ _
      · -- within a character the place counts the bytes since the start of the line
        have hstart := lineStart_spotAt b s.chars
        have hlength := length_le_byteLength (lastLine (takeBytes a s.chars))
        rw [onBoundary, beq_iff_eq] at ha
        rw [hlast, hmore, byteLength_append, byteLength_append, ha] at hstart
        change (lastLine (takeBytes a s.chars)).length ≤ b - (spotAt b s.chars).lineStart
        omega
    simp [Position.upTo, hsame, hcharacter]

/-- Two bytes between characters have two places. -/
theorem positionAt_injOn (ha : onBoundary a s.chars = true) (hb : onBoundary b s.chars = true)
    (h : s.positionAt a = s.positionAt b) : a = b := by
  wlog hab : a ≤ b generalizing a b
  · exact (this hb ha h.symm (Nat.le_of_not_le hab)).symm
  obtain ⟨more, hmore⟩ := takeBytes_eq_append ha hab
  rw [positionAt_of_onBoundary ha, positionAt_of_onBoundary hb, hmore, Position.mk.injEq,
    List.count_append] at h
  have hnewline : '\n' ∉ more := List.count_eq_zero.mp (by omega)
  have hlength := h.2
  rw [lastLine_append_of_notMem hnewline, List.length_append] at hlength
  have hnil : more = [] := List.eq_nil_of_length_eq_zero (by omega)
  rw [onBoundary, beq_iff_eq] at ha hb
  rw [← ha, ← hb, hmore, hnil, List.append_nil]

/-- Places between characters are in the order of their bytes. -/
theorem upTo_positionAt_eq (ha : onBoundary a s.chars = true) (hb : onBoundary b s.chars = true) :
    (s.positionAt a).upTo (s.positionAt b) = decide (a ≤ b) := by
  by_cases hab : a ≤ b
  · rw [upTo_positionAt ha hab, decide_eq_true hab]
  · rw [decide_eq_false hab, Bool.eq_false_iff]
    intro hupTo
    have hba := upTo_positionAt (s := s) hb (Nat.le_of_not_le hab)
    exact hab (positionAt_injOn ha hb (Position.upTo_antisymm hupTo hba)).le

theorem before_positionAt_iff (ha : onBoundary a s.chars = true) (hb : onBoundary b s.chars = true) :
    (s.positionAt a).before (s.positionAt b) = true ↔ a < b := by
  have hupTo := Position.upTo_iff_not_before (s.positionAt b) (s.positionAt a)
  rw [upTo_positionAt_eq hb ha, decide_eq_true_iff] at hupTo
  rw [← Nat.not_le, hupTo, Bool.not_eq_false]

/-- Both numbers of a place are at most the length of the text in bytes. -/
theorem positionAt_le_length (s : SourceText) (offset : Nat) :
    (s.positionAt offset).line ≤ s.length ∧ (s.positionAt offset).character ≤ s.length := by
  have htake := byteLength_takeBytes_le offset s.chars
  constructor
  · rw [line_positionAt]
    exact List.count_le_length.trans ((length_le_byteLength _).trans htake)
  · rw [character_positionAt]
    split
    · exact (length_lastLine_le _).trans htake
    · unfold SourceText.length
      omega

end Position

end Concordance
