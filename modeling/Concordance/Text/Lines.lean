import Concordance.Text.Basic

/-!
Lines of a text: the pieces between line feeds, and the pieces that end with one.

Main statements: `flatten_cutAfter` (the pieces put together are the text) and
`length_splitLines` (one piece more than line feeds).
-/

namespace Concordance.Text

/-- The pieces that each end with the mark, and what is left after the last one. -/
def cutAfter {α : Type} [BEq α] (mark : α) : List α → List (List α)
  | [] => []
  | a :: rest =>
    if a == mark then [a] :: cutAfter mark rest
    else
      match cutAfter mark rest with
      | [] => [[a]]
      | piece :: pieces => (a :: piece) :: pieces

/-- The pieces between line feeds; always at least one. -/
def splitLines (text : List Char) : List (List Char) :=
  text.splitOn '\n'

/-- The lines with the line feed that ends each; an empty text has none. -/
def linesWithEnds (text : List Char) : List (List Char) :=
  cutAfter '\n' text

/-- A line without the line feed, or the carriage return and line feed, that ends it. -/
def dropLineEnd (line : List Char) : List Char :=
  match stripBack? ['\n'] line with
  | none => line
  | some body => (stripBack? ['\r'] body).getD body

/-- The lines of a text without their ends. -/
def lines (text : List Char) : List (List Char) :=
  (linesWithEnds text).map dropLineEnd

/-- The pieces put together are the whole. -/
theorem flatten_cutAfter {α : Type} [BEq α] (mark : α) (xs : List α) :
    (cutAfter mark xs).flatten = xs := by
  induction xs with
  | nil => rfl
  | cons a rest ih =>
    unfold cutAfter
    split
    · simp [ih]
    · split
      · next h => rw [h] at ih; simp_all
      · next h => rw [h] at ih; simp_all

theorem flatten_linesWithEnds (text : List Char) : (linesWithEnds text).flatten = text :=
  flatten_cutAfter '\n' text

/-- There is one piece more than there are line feeds. -/
theorem length_splitLines (text : List Char) :
    (splitLines text).length = text.count '\n' + 1 := by
  unfold splitLines
  induction text with
  | nil => rfl
  | cons c cs ih =>
    rw [List.splitOn_cons_eq_if_modifyHead, List.count_cons]
    split <;> simp_all

end Concordance.Text
