import Concordance.Text.Blank
import Concordance.Text.Lines
import Concordance.Position
import Concordance.Source.Comment
import Concordance.Source.Spot

/-!
A source text with its comments, and the questions asked of it by byte offset: which line, which
place, what stands on the line before and after, and whether a comment covers it.
-/

namespace Concordance

open Text

/-- A text, the rules it is read by, its lines, and the comments those rules find in it. -/
structure SourceText where
  rules : LexicalRules
  chars : List Char
  lines : List (List Char) := splitLines chars
  comments : List Span := commentSpans rules chars
  lines_eq : lines = splitLines chars := by rfl
  comments_eq : comments = commentSpans rules chars := by rfl

namespace SourceText

/-- The text read by the rules. -/
def ofChars (rules : LexicalRules) (chars : List Char) : SourceText where
  rules := rules
  chars := chars

/-- Length in bytes. -/
def length (s : SourceText) : Nat :=
  byteLength s.chars

/-- Number of lines; an empty text has one. -/
def lineCount (s : SourceText) : Nat :=
  s.lines.length

/-- The first place at the byte or after it. -/
def spotAt (s : SourceText) (offset : Nat) : Spot :=
  Text.spotAt offset s.chars

/-- The line that holds the byte, the last line for an offset beyond the text. -/
def lineOf (s : SourceText) (offset : Nat) : Nat :=
  (s.spotAt offset).line

/-- The byte where the line starts, the end of the text for a line beyond the last. -/
def lineStart (s : SourceText) (line : Nat) : Nat :=
  if line < s.lineCount then
    byteLength ((linesWithEnds s.chars).take line).flatten
  else s.length

/-- The text of a line without its end; nothing for a line beyond the last. -/
def lineText (s : SourceText) (line : Nat) : List Char :=
  dropTail (· == '\r') (s.lines[line]?.getD [])

/-- The place of a byte, the end of the text for one beyond it. Within a character, where no place
is, bytes count as characters. -/
def positionAt (s : SourceText) (offset : Nat) : Position :=
  let p := s.spotAt offset
  if p.offset ≤ offset then ⟨p.line, p.character⟩ else ⟨p.line, offset - p.lineStart⟩

/-- The range between two bytes; an end before the start is taken for the start. -/
def range (s : SourceText) (start stop : Nat) : Range :=
  ⟨s.positionAt start, s.positionAt (max stop start)⟩

/-- The line of a byte, trimmed. -/
def contextAt (s : SourceText) (offset : Nat) : List Char :=
  trim (s.lineText (s.lineOf offset))

/-- What stands on the line before the byte. -/
def beforeOnLine (s : SourceText) (offset : Nat) : List Char :=
  (s.spotAt offset).before

/-- What stands on the line from the byte on. -/
def afterOnLine (s : SourceText) (offset : Nat) : List Char :=
  dropTail (· == '\r') (s.spotAt offset).after

/-- The end of the comment that covers the byte. -/
def commentEnd? (s : SourceText) (offset : Nat) : Option Nat :=
  (s.comments.find? (·.covers offset)).map Span.stop

/-- A comment covers the byte. -/
def inComment (s : SourceText) (offset : Nat) : Bool :=
  (s.commentEnd? offset).isSome

/-- The character that starts at the byte. -/
def charAt? (s : SourceText) (offset : Nat) : Option Char :=
  let p := s.spotAt offset
  if p.offset = offset then p.rest.head? else none

/-- The text between two bytes. -/
def slice (s : SourceText) (start stop : Nat) : List Char :=
  sliceBytes start stop s.chars

end SourceText

end Concordance
