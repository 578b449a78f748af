import Concordance.Text.Alphanumeric

/-!
Occurrences of one text in another, read from the left without overlap, and the ones that stand
as whole identifiers.
-/

namespace Concordance.Text

/-- A place where a text occurs: the character before it, its byte offset, and what follows it. -/
structure Occurrence where
  before : Option Char
  offset : Nat
  after : List Char
deriving Repr, DecidableEq

/-- Occurrences of `mark` in the characters that follow `before` at `offset`, after `skip`
characters that belong to the occurrence before. -/
def occurrencesFrom (mark : List Char) :
    Nat → Option Char → Nat → List Char → List Occurrence
  | _, before, offset, [] => if mark.isEmpty then [⟨before, offset, []⟩] else []
  | 0, before, offset, c :: cs =>
    if mark.isPrefixOf (c :: cs) then
      ⟨before, offset, (c :: cs).drop mark.length⟩ ::
        occurrencesFrom mark (mark.length - 1) (some c) (offset + c.utf8Size) cs
    else occurrencesFrom mark 0 (some c) (offset + c.utf8Size) cs
  | skip + 1, _, offset, c :: cs => occurrencesFrom mark skip (some c) (offset + c.utf8Size) cs

/-- Occurrences of `mark`, none overlapping another. The empty text occurs before every character
and at the end. -/
def occurrences (mark text : List Char) : List Occurrence :=
  occurrencesFrom mark 0 none 0 text

/-- No character, or one that fails `p`. -/
def edge (p : Char → Bool) : Option Char → Bool
  | none => true
  | some c => !p c

/-- The occurrence is bounded on both sides by something that is no part of an identifier. -/
def Occurrence.isWhole (o : Occurrence) : Bool :=
  edge isIdentChar o.before && edge isIdentChar o.after.head?

/-- The places where `name` stands as a whole identifier. -/
def wholeOccurrences (name text : List Char) : List Occurrence :=
  if name.isEmpty then [] else (occurrences name text).filter Occurrence.isWhole

/-- Byte offsets where `name` stands as a whole identifier. -/
def wordOffsets (name text : List Char) : List Nat :=
  (wholeOccurrences name text).map Occurrence.offset

/-- `name` stands somewhere as a whole identifier. -/
def containsWord (name text : List Char) : Bool :=
  !(wordOffsets name text).isEmpty

/-- `text` ends with `word`, and no identifier character stands right before it. -/
def endsWithWord (word text : List Char) : Bool :=
  match stripBack? word text with
  | none => false
  | some head => edge isIdentChar head.getLast?

end Concordance.Text
