import Concordance.Proofs.Text.Trim
import Concordance.Text.Lines

/-!
Lines with their ends: a text is cut into lines in one way only, so putting ended lines in front of
a text puts them in front of its lines.

Main statements: `linesWithEnds_flatten_append` (ended lines are cut off as they are),
`linesWithEnds_flatten_drop` (the lines from a number on are the lines of what they spell), and
`ended_of_mem_take` (a line that is not the last has its end).
-/

namespace Concordance.Text

/-- The line holds one line feed, at its end. -/
def Ended (line : List Char) : Prop :=
  ∃ body, line = body ++ ['\n'] ∧ '\n' ∉ body

theorem Ended.ne_nil {line : List Char} (h : Ended line) : line ≠ [] := by
  obtain ⟨body, rfl, _⟩ := h
  simp

theorem Ended.getLast? {line : List Char} (h : Ended line) : line.getLast? = some '\n' := by
  obtain ⟨body, rfl, _⟩ := h
  simp

theorem ended_append {line lineEnd : List Char}
    (hend : lineEnd = ['\n'] ∨ lineEnd = ['\r', '\n']) (hline : '\n' ∉ line) :
    Ended (line ++ lineEnd) := by
  rcases hend with rfl | rfl
  · exact ⟨line, rfl, hline⟩
  · exact ⟨line ++ ['\r'], by simp, by simpa using hline⟩

theorem linesWithEnds_append_of_ended {line : List Char} (h : Ended line) (rest : List Char) :
    linesWithEnds (line ++ rest) = line :: linesWithEnds rest := by
  obtain ⟨body, rfl, hbody⟩ := h
  unfold linesWithEnds
  induction body with
  | nil => simp [cutAfter]
  | cons c cs ih =>
    simp only [List.mem_cons, not_or] at hbody
    have hc : (c == '\n') = false := by simpa using Ne.symm hbody.1
    simp only [List.cons_append, cutAfter, hc, Bool.false_eq_true, ↓reduceIte]
    rw [ih hbody.2]

theorem linesWithEnds_of_notMem {line : List Char} (hne : line ≠ []) (h : '\n' ∉ line) :
    linesWithEnds line = [line] := by
  unfold linesWithEnds
  induction line with
  | nil => exact absurd rfl hne
  | cons c cs ih =>
    simp only [List.mem_cons, not_or] at h
    have hc : (c == '\n') = false := by simpa using Ne.symm h.1
    simp only [cutAfter, hc, Bool.false_eq_true, ↓reduceIte]
    cases cs with
    | nil => rfl
    | cons d ds => rw [ih (by simp) h.2]

/-- Ended lines in front of a text are its first lines. -/
theorem linesWithEnds_flatten_append {ls : List (List Char)} (h : ∀ l ∈ ls, Ended l)
    (rest : List Char) : linesWithEnds (ls.flatten ++ rest) = ls ++ linesWithEnds rest := by
  induction ls with
  | nil => rfl
  | cons l ls ih =>
    rw [List.flatten_cons, List.append_assoc,
      linesWithEnds_append_of_ended (h l List.mem_cons_self),
      ih fun l' hl' => h l' (List.mem_cons_of_mem l hl'), List.cons_append]

theorem linesWithEnds_flatten {ls : List (List Char)} (h : ∀ l ∈ ls, Ended l) :
    linesWithEnds ls.flatten = ls := by
  simpa [linesWithEnds, cutAfter] using linesWithEnds_flatten_append h []

/-- A text is empty, or its first line is cut off it; a line without its end is the last. -/
theorem linesWithEnds_cases (text : List Char) :
    text = [] ∨ ∃ line rest, text = line ++ rest ∧
      linesWithEnds text = line :: linesWithEnds rest ∧
      (Ended line ∨ (rest = [] ∧ line ≠ [] ∧ '\n' ∉ line)) := by
  by_cases hmem : '\n' ∈ text
  · obtain ⟨body, rest, rfl, hbody⟩ := List.eq_append_cons_of_mem hmem
    have hended : Ended (body ++ ['\n']) := ⟨body, rfl, hbody⟩
    refine Or.inr ⟨body ++ ['\n'], rest, by simp, ?_, Or.inl hended⟩
    simpa using linesWithEnds_append_of_ended hended rest
  · by_cases hnil : text = []
    · exact Or.inl hnil
    · refine Or.inr ⟨text, [], by simp, ?_, Or.inr ⟨rfl, hnil, hmem⟩⟩
      rw [linesWithEnds_of_notMem hnil hmem]
      rfl

/-- A text is cut at any line feed into the lines before it and those behind it. -/
theorem linesWithEnds_append_cons (front back : List Char) :
    linesWithEnds (front ++ '\n' :: back) =
      linesWithEnds (front ++ ['\n']) ++ linesWithEnds back := by
  unfold linesWithEnds
  induction front with
  | nil => simp [cutAfter]
  | cons c front ih =>
    rw [List.cons_append, List.cons_append, cutAfter, cutAfter, ih]
    split
    · rfl
    · cases hcut : cutAfter '\n' (front ++ ['\n']) with
      | nil => simpa [hcut] using flatten_cutAfter '\n' (front ++ ['\n'])
      | cons piece pieces => rfl

/-- The lines from a number on are the lines of what they spell. -/
theorem linesWithEnds_flatten_drop (text : List Char) (n : Nat) :
    linesWithEnds ((linesWithEnds text).drop n).flatten = (linesWithEnds text).drop n := by
  induction n generalizing text with
  | zero => rw [List.drop_zero, flatten_linesWithEnds]
  | succ n ih =>
    rcases linesWithEnds_cases text with rfl | ⟨line, rest, -, hlines, -⟩
    · rfl
    · rw [hlines, List.drop_succ_cons]
      exact ih rest

/-- A line that is not the last has its end. -/
theorem ended_of_mem_take {text : List Char} {n : Nat} (hn : n < (linesWithEnds text).length)
    {line : List Char} (hline : line ∈ (linesWithEnds text).take n) : Ended line := by
  induction n generalizing text with
  | zero => simp at hline
  | succ n ih =>
    rcases linesWithEnds_cases text with rfl | ⟨first, rest, -, hlines, hfirst⟩
    · simp [linesWithEnds, cutAfter] at hn
    · rw [hlines, List.length_cons, Nat.add_lt_add_iff_right] at hn
      rw [hlines, List.take_succ_cons, List.mem_cons] at hline
      rcases hline with rfl | hline
      · rcases hfirst with hended | ⟨rfl, -, -⟩
        · exact hended
        · simp [linesWithEnds, cutAfter] at hn
      · exact ih hn hline

/-- Carriage return and line feed stand in a text exactly if a line ends with them. -/
theorem crlf_infix_iff {text : List Char} :
    ['\r', '\n'] <:+: text ↔ ∃ line ∈ linesWithEnds text, ['\r', '\n'] <:+ line := by
  constructor
  · rintro ⟨front, back, rfl⟩
    rw [List.append_assoc]
    unfold linesWithEnds
    induction front with
    | nil => exact ⟨['\r', '\n'], by simp [cutAfter], List.suffix_rfl⟩
    | cons c front ih =>
      obtain ⟨line, hline, hsuf⟩ := ih
      rw [List.cons_append, cutAfter]
      split
      · exact ⟨line, List.mem_cons_of_mem _ hline, hsuf⟩
      · split
        · next hnil =>
          rw [hnil] at hline
          simp at hline
        · next piece pieces hpieces =>
          rw [hpieces] at hline
          rcases List.mem_cons.mp hline with rfl | hline
          · exact ⟨c :: line, List.mem_cons_self, hsuf.trans (List.suffix_cons c line)⟩
          · exact ⟨line, List.mem_cons_of_mem _ hline, hsuf⟩
  · rintro ⟨line, hline, hsuf⟩
    have hpart : line <:+: (linesWithEnds text).flatten := List.infix_of_mem_flatten hline
    rw [flatten_linesWithEnds] at hpart
    exact hsuf.isInfix.trans hpart

section WithoutEnds

theorem dropLineEnd_isPrefix (line : List Char) : dropLineEnd line <+: line := by
  unfold dropLineEnd
  split
  · exact List.prefix_rfl
  · next body hbody =>
    have hprefix := stripBack?_getD_isPrefix ['\n'] line
    rw [hbody, Option.getD_some] at hprefix
    exact (stripBack?_getD_isPrefix ['\r'] body).trans hprefix

theorem dropLineEnd_append {body lineEnd : List Char}
    (hend : lineEnd = ['\n'] ∨ lineEnd = ['\r', '\n']) (hbody : ¬ ['\r'] <:+ body) :
    dropLineEnd (body ++ lineEnd) = body := by
  rcases hend with rfl | rfl
  · rw [dropLineEnd, stripBack?_append]
    dsimp only
    rw [stripBack?_eq_none_iff.mpr hbody, Option.getD_none]
  · have hshape : body ++ ['\r', '\n'] = body ++ ['\r'] ++ ['\n'] := by simp
    rw [hshape, dropLineEnd, stripBack?_append]
    dsimp only
    rw [stripBack?_append, Option.getD_some]

/-- Lines with line feeds between them are the lines of what they spell. -/
theorem lines_intercalate {ls : List (List Char)}
    (hls : ∀ l ∈ ls, l ≠ [] ∧ '\n' ∉ l ∧ ¬ ['\r'] <:+ l) :
    lines (List.intercalate ['\n'] ls) = ls := by
  induction ls with
  | nil => rfl
  | cons l ls ih =>
    obtain ⟨hne, hnewline, hreturn⟩ := hls l List.mem_cons_self
    have hrest := ih fun k hk => hls k (List.mem_cons_of_mem l hk)
    have hdrop : dropLineEnd (l ++ ['\n']) = l := dropLineEnd_append (Or.inl rfl) hreturn
    have hlast : dropLineEnd l = l := by
      have hno : ¬ ['\n'] <:+ l := fun hsuf => hnewline (hsuf.mem List.mem_cons_self)
      simp only [dropLineEnd, stripBack?, List.isSuffixOf_iff_suffix, hno, ↓reduceIte]
    cases ls with
    | nil => simp [lines, linesWithEnds_of_notMem hne hnewline, hlast]
    | cons k ks =>
      have hended : Ended (l ++ ['\n']) := ⟨l, rfl, hnewline⟩
      rw [List.intercalate_cons_cons, lines, linesWithEnds_append_of_ended hended, List.map_cons,
        hdrop]
      exact congrArg (l :: ·) hrest

end WithoutEnds

end Concordance.Text
