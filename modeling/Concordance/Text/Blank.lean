import Concordance.Text.Basic

/-!
White space: the characters with the Unicode property `White_Space`, and what trimming and
splitting at them gives.
-/

namespace Concordance.Text

/-- Code points with the property `White_Space`, as inclusive ranges. -/
def blankRanges : List (Nat × Nat) :=
  [(0x9, 0xd), (0x20, 0x20), (0x85, 0x85), (0xa0, 0xa0), (0x1680, 0x1680), (0x2000, 0x200a),
   (0x2028, 0x2029), (0x202f, 0x202f), (0x205f, 0x205f), (0x3000, 0x3000)]

/-- The code point lies in one of the inclusive ranges. -/
def inRanges (ranges : List (Nat × Nat)) (n : Nat) : Bool :=
  ranges.any fun r => r.1 ≤ n && n ≤ r.2

/-- White space. -/
def isBlank (c : Char) : Bool :=
  inRanges blankRanges c.toNat

/-- `text` without leading white space. -/
def trimStart (text : List Char) : List Char :=
  text.dropWhile isBlank

/-- `text` without trailing white space. -/
def trimEnd (text : List Char) : List Char :=
  dropTail isBlank text

/-- `text` without white space at either end. -/
def trim (text : List Char) : List Char :=
  trimEnd (trimStart text)

/-- The maximal runs of characters that are not white space, each with its byte offset counted
from `offset`. -/
def wordsFrom : Nat → List Char → List (Nat × List Char)
  | _, [] => []
  | offset, c :: cs =>
    let later := wordsFrom (offset + c.utf8Size) cs
    if isBlank c then later
    else
      match cs, later with
      | d :: _, (_, w) :: rest =>
        if isBlank d then (offset, [c]) :: later else (offset, c :: w) :: rest
      | _, _ => (offset, [c]) :: later

/-- The maximal runs of characters that are not white space. -/
def words (text : List Char) : List (List Char) :=
  (wordsFrom 0 text).map Prod.snd

/-- `text` with each run of white space made one space and none left at the ends. -/
def collapseBlanks (text : List Char) : List Char :=
  List.intercalate [' '] (words text)

end Concordance.Text
