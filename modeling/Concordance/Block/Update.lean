import Concordance.Block.Parts
import Concordance.Block.Place
import Concordance.Notice

/-!
Bringing the doc block of a definition up to date.

The comments right above the definition become one block: description, tags and diagram are kept,
the entries are merged with the new ones. Without a comment a new block is put above the
definition; a malformed one is left alone and the new block goes below it.
-/

namespace Concordance

open Text

/-- A text after a change, and what was noted. -/
structure Update where
  text : List Char
  notices : List Notice
deriving Repr, DecidableEq

/-- The text of a comment's lines without its marks. -/
def CommentBlock.body (hash : Bool) (b : CommentBlock) : List (List Char) :=
  b.lines.map fun line =>
    if b.lineComments then (lineCommentBody? hash line).getD [] else BlockParts.innerText line

/-- The parts with a description, the entries added and the diagram renewed. -/
def BlockParts.updated (parts : BlockParts) (symbol : Symbol) (entries : List (List Char))
    (options : BlockOptions) : BlockParts :=
  let all := parts.entries ++ entries
  { parts with
    description :=
      if parts.description.isEmpty then [symbol.defaultDescription] else parts.description
    entries := if options.groupByFile then Entry.mergeByPath all else Entry.mergeExact all
    diagram :=
      if options.includeDiagram then some (symbol.diagramLines options) else parts.diagram }

/-- Line comments in the file may start with `#`. -/
def hasHashComments (path : String) : Bool :=
  Language.ofPath? path == some .php

/-- The spaces and tabs at the start of a line. -/
def indentOf (line : List Char) : List Char :=
  line.takeWhile fun c => c == ' ' || c == '\t'

/-- The lines with the block of the parts in place of those from `start` to `definition`. -/
def spliceBlock (lines : List (List Char)) (start definition : Nat) (block : List Char) :
    List Char :=
  (lines.take start).flatten ++ block ++ (lines.drop definition).flatten

/-- The text with the block above the definition of the symbol brought up to date. -/
def updateBlock (text : List Char) (symbol : Symbol) (entries : List (List Char))
    (style : CommentStyle) (options : BlockOptions) : Update :=
  let lines := linesWithEnds text
  let lineEnd := if contains ['\r', '\n'] text then ['\r', '\n'] else ['\n']
  match definitionLine? lines symbol with
  | none => ⟨text, [.definitionMissing symbol.filePath symbol.name]⟩
  | some definition =>
    let hash := hasHashComments symbol.filePath
    let indent := indentOf (lines[definition]?.getD [])
    let write (start : Nat) (parts : BlockParts) : List Char :=
      spliceBlock lines start definition
        ((parts.updated symbol entries options).render style indent lineEnd)
    match blocksAbove hash lines definition with
    | .found blocks =>
      let height := (blocks.flatMap CommentBlock.lines).length
      ⟨write (definition - height) (BlockParts.ofBlocks (blocks.map (·.body hash))), []⟩
    | .missing => if entries.isEmpty then ⟨text, []⟩ else ⟨write definition {}, []⟩
    | .malformed =>
      ⟨write definition {}, [.malformedBlock symbol.filePath symbol.name definition]⟩

end Concordance
