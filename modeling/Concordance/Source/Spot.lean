import Concordance.Text.Basic

/-!
A place in a text, with what was passed on the way to it: how many lines, and where the line of the
place starts.

Main statements: `rest_spotAt`, `offset_spotAt` and `line_spotAt` say what a spot holds in terms of
the characters before the place and from it on, and `offset_spotAt_eq_iff` when it lies at the byte
that was asked for.
-/

namespace Concordance

open Text

/-- A place in a text. -/
structure Spot where
  /-- The number of lines above its line. -/
  line : Nat
  /-- The number of characters before it on its line. -/
  character : Nat
  /-- The byte where its line starts. -/
  lineStart : Nat
  /-- The text from the start of its line on. -/
  lineText : List Char
  /-- Its own byte. -/
  offset : Nat
  /-- The text from it on. -/
  rest : List Char
deriving Repr, DecidableEq

namespace Spot

/-- The place behind the characters that start in the next `count` bytes. -/
def forward (line character lineStart : Nat) (lineText : List Char) (offset : Nat) :
    Nat → List Char → Spot
  | _, [] => ⟨line, character, lineStart, lineText, offset, []⟩
  | 0, rest => ⟨line, character, lineStart, lineText, offset, rest⟩
  | count, c :: cs =>
    let next := offset + c.utf8Size
    if c = '\n' then forward (line + 1) 0 next cs next (count - c.utf8Size) cs
    else forward line (character + 1) lineStart lineText next (count - c.utf8Size) cs

/-- What stands on the line before the place. -/
def before (p : Spot) : List Char :=
  takeBytes (p.offset - p.lineStart) p.lineText

/-- What stands on the line from the place on. -/
def after (p : Spot) : List Char :=
  p.rest.takeWhile (· ≠ '\n')

theorem rest_forward (line character lineStart : Nat) (lineText : List Char)
    (offset count : Nat) (cs : List Char) :
    (forward line character lineStart lineText offset count cs).rest = dropBytes count cs := by
  induction cs generalizing line character lineStart lineText offset count with
  | nil => cases count <;> rfl
  | cons c cs ih =>
    cases count with
    | zero => rfl
    | succ count =>
      simp only [forward, dropBytes]
      split <;> exact ih ..

theorem offset_forward (line character lineStart : Nat) (lineText : List Char)
    (offset count : Nat) (cs : List Char) :
    (forward line character lineStart lineText offset count cs).offset =
      offset + byteLength (takeBytes count cs) := by
  induction cs generalizing line character lineStart lineText offset count with
  | nil => cases count <;> rfl
  | cons c cs ih =>
    cases count with
    | zero => rfl
    | succ count =>
      simp only [forward, takeBytes, byteLength_cons]
      split <;> rw [ih, Nat.add_assoc]

theorem line_forward (line character lineStart : Nat) (lineText : List Char)
    (offset count : Nat) (cs : List Char) :
    (forward line character lineStart lineText offset count cs).line =
      line + (takeBytes count cs).count '\n' := by
  induction cs generalizing line character lineStart lineText offset count with
  | nil => cases count <;> rfl
  | cons c cs ih =>
    cases count with
    | zero => rfl
    | succ count =>
      simp only [forward, takeBytes, List.count_cons]
      split
      · next h => rw [ih]; simp [h]; omega
      · next h => rw [ih]; simp [h]

end Spot

namespace Text

/-- The first place in a text at the byte or after it. -/
def spotAt (offset : Nat) (text : List Char) : Spot :=
  Spot.forward 0 0 0 text 0 offset text

/-- From a spot on, the text is what starts at the byte or later. -/
theorem rest_spotAt (offset : Nat) (text : List Char) :
    (spotAt offset text).rest = dropBytes offset text :=
  Spot.rest_forward ..

/-- The byte of a spot counts the characters before it. -/
theorem offset_spotAt (offset : Nat) (text : List Char) :
    (spotAt offset text).offset = byteLength (takeBytes offset text) := by
  simp [spotAt, Spot.offset_forward]

/-- A spot lies at the byte asked for exactly if a character starts there or the text ends. -/
theorem offset_spotAt_eq_iff (offset : Nat) (text : List Char) :
    (spotAt offset text).offset = offset ↔ onBoundary offset text = true := by
  simp [offset_spotAt, onBoundary]

/-- The line of a spot counts the line feeds before it. -/
theorem line_spotAt (offset : Nat) (text : List Char) :
    (spotAt offset text).line = (takeBytes offset text).count '\n' := by
  simp [spotAt, Spot.line_forward]

end Text

end Concordance
