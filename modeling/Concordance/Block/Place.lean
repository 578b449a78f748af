import Concordance.Selector
import Concordance.Source.DocComment
import Concordance.Symbol
import Concordance.Text.Lines

/-!
Where the doc block of a definition belongs: the line that holds the definition, and the comments
that stand right above it. Lines here keep their ends.
-/

namespace Concordance

open Text

/-- The line is part of a comment by its start. -/
def isCommentLine (trimmed : List Char) : Bool :=
  "/*".toList.isPrefixOf trimmed || "*".toList.isPrefixOf trimmed ||
    "//".toList.isPrefixOf trimmed

/-- The number of lines that the head of a rule may take. -/
def headLines : Nat := 16

/-- A character that ends the head of a rule or what stands before it. -/
def isRuleMark (c : Char) : Bool :=
  c == '{' || c == '}' || c == ';'

/-- The byte offsets on a line where the head of a rule may start. -/
def headStarts : Nat → List Char → List Nat
  | _, [] => []
  | offset, c :: cs =>
    let next := offset + c.utf8Size
    if isRuleMark c then next :: headStarts next cs else headStarts next cs

/-- The lines start, on the first of them, a part of a selector list that is `name` once white
space is collapsed. -/
def startsSelector (lines : List (List Char)) (name : List Char) : Bool :=
  let text := (lines.take headLines).flatten
  let first := lines.head?.getD []
  (0 :: headStarts 0 first).any fun start =>
    let rest := dropBytes start text
    let head := rest.takeWhile (!isRuleMark ·)
    (rest.drop head.length).head? == some '{' &&
      (splitSelectors head).any fun (offset, part) =>
        let leading := byteLength part - byteLength (trimStart part)
        start + offset + leading < byteLength first && collapseBlanks part == name

/-- The line declares the variable. -/
def declaresVariable (line name : List Char) : Bool :=
  (tokenOffsets name line).any fun i =>
    (trimStart (dropBytes (i + byteLength name) line)).head? == some ':'

/-- The line holds the name between quotes. -/
def quotesName (line name : List Char) : Bool :=
  ['\'', '"', '`'].any fun q => contains ([q] ++ name ++ [q]) line

/-- The first of the lines holds the definition of the symbol. -/
def definesOnFirst (lines : List (List Char)) (symbol : Symbol) : Bool :=
  let name := symbol.name.toList
  let line := lines.head?.getD []
  if name.isEmpty || isCommentLine (trim line) then false
  else
    match symbol.kind with
    | .selector => startsSelector lines name
    | .event => quotesName line name
    | kind =>
      if kind = .variable && (name.head? == some '-' || name.head? == some '$') then
        declaresVariable line name
      else if name.all isIdentChar then containsWord name line
      else contains name line

/-- The first line that passes the test on the way outwards from `recorded`, which starts at a
distance and goes on for `left` distances. At each of them the line below comes first. -/
def searchOutward (test : Nat → Bool) (recorded : Nat) : Nat → Nat → Option Nat
  | _, 0 => none
  | distance, left + 1 =>
    if test (recorded + distance) then some (recorded + distance)
    else if distance ≤ recorded && test (recorded - distance) then some (recorded - distance)
    else searchOutward test recorded (distance + 1) left

/-- The line that defines the symbol: the recorded one if it still does, else the nearest. Lines
inserted above a definition move it down, so of two lines as far the lower one is taken. -/
def definitionLine? (lines : List (List Char)) (symbol : Symbol) : Option Nat :=
  let recorded := symbol.position.line
  let matching (n : Nat) := n < lines.length && definesOnFirst (lines.drop n) symbol
  if matching recorded then some recorded
  else searchOutward matching recorded 1 (max recorded lines.length)

/-- The text of a line that is a comment to its end; `#` starts one if `hash`, unless it starts an
attribute. -/
def lineCommentBody? (hash : Bool) (line : List Char) : Option (List Char) :=
  let trimmed := trim line
  let body? :=
    match stripFront? "//".toList trimmed with
    | some rest => some (rest.dropWhile (· == '/'))
    | none =>
      if hash && !"#[".toList.isPrefixOf trimmed then stripFront? "#".toList trimmed else none
  body?.map fun body => trimEnd ((stripFront? [' '] body).getD body)

/-- A comment above a definition, its lines from the top. -/
structure CommentBlock where
  lines : List (List Char)
  /-- It is a run of line comments. -/
  lineComments : Bool
deriving Repr, DecidableEq

/-- Where the comment that ends on a line starts. -/
inductive BlockStart where
  /-- The comment takes that many lines. -/
  | lines (count : Nat)
  /-- Code stands before it on its line. -/
  | trailing
  | unmatched
deriving Repr, DecidableEq

/-- The comment whose last line is the first of the lines, which run upwards; `closing` tells that
this line is still to be read. -/
def blockStart (closing : Bool) : List (List Char) → BlockStart
  | [] => .unmatched
  | line :: above =>
    let text := trim line
    if contains "/*".toList text then
      if "/*".toList.isPrefixOf text then .lines 1
      else if closing then .trailing
      else .unmatched
    else if !closing && contains "*/".toList text then .unmatched
    else
      match blockStart false above with
      | .lines count => .lines (count + 1)
      | other => other

/-- The comments right above a definition. -/
inductive BlocksAbove where
  /-- The comments from the top. -/
  | found (blocks : List CommentBlock)
  | missing
  /-- The line right above the definition starts or ends a comment without its partner. -/
  | malformed
deriving Repr, DecidableEq

/-- The comments met upwards, the lowest of them first in reading and last in the result; `fuel`
bounds their number. The flag tells that the first line met starts or ends a comment without its
partner. -/
def commentsUpwards (hash : Bool) : Nat → List (List Char) → List CommentBlock × Bool
  | 0, _ => ([], false)
  | _, [] => ([], false)
  | fuel + 1, line :: above =>
    if (lineCommentBody? hash line).isSome then
      let run := (line :: above).takeWhile fun l => (lineCommentBody? hash l).isSome
      let (blocks, _) := commentsUpwards hash fuel ((line :: above).drop run.length)
      (blocks ++ [⟨run.reverse, true⟩], false)
    else
      let last := trim line
      if !"*/".toList.isSuffixOf last then ([], "/*".toList.isPrefixOf last)
      else
        match blockStart true (line :: above) with
        | .lines count =>
          let (blocks, _) := commentsUpwards hash fuel ((line :: above).drop count)
          (blocks ++ [⟨((line :: above).take count).reverse, false⟩], false)
        | .trailing => ([], false)
        | .unmatched => ([], true)

/-- The comments right above the line. -/
def blocksAbove (hash : Bool) (lines : List (List Char)) (definition : Nat) : BlocksAbove :=
  let above := (lines.take definition).reverse
  match commentsUpwards hash above.length above with
  | ([], true) => .malformed
  | ([], false) => .missing
  | (blocks, _) => .found blocks

end Concordance
