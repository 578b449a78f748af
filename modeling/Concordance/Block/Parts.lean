import Concordance.Block.Style
import Concordance.Diagram
import Concordance.Entry.Basic
import Concordance.Source.DocComment

/-!
The parts of a doc block: a description, tags, the entries of files that use the definition, and a
diagram. Blocks are read into parts line by line and written from them.
-/

namespace Concordance

open Text

/-- The parts of a doc block, each a list of lines. -/
structure BlockParts where
  description : List (List Char) := []
  tags : List (List Char) := []
  entries : List (List Char) := []
  diagram : Option (List (List Char)) := none
deriving Repr, DecidableEq

namespace BlockParts

/-- The line that opens a diagram. -/
def fenceOpen : List Char :=
  "```mermaid".toList

/-- The line that closes a diagram. -/
def fenceClose : List Char :=
  "```".toList

/-- The text of a block line without the delimiters and the star. White space after the star's
space is kept. -/
def innerText (line : List Char) : List Char :=
  let text := trimStart line
  let text :=
    match stripFront? "/**".toList text <|> stripFront? "/*".toList text with
    | some rest => rest
    | none => if "*/".toList.isPrefixOf text then text else (stripFront? ['*'] text).getD text
  let text := trimEnd text
  let text := (stripBack? "*/".toList text).getD text
  trimEnd ((stripFront? [' '] text).getD text)

/-- Where the reading of a block stands: the parts so far, the description of this block, whether
tags have started, and the lines of the diagram that is open. -/
structure Reading where
  parts : BlockParts
  description : List (List Char) := []
  inTags : Bool := false
  fence : Option (List (List Char)) := none
deriving Repr, DecidableEq

namespace Reading

/-- The first diagram is kept. -/
def keepDiagram (r : Reading) (diagram : List (List Char)) : BlockParts :=
  { r.parts with diagram := r.parts.diagram <|> some diagram }

/-- The reading after a line. -/
def step (r : Reading) (text : List Char) : Reading :=
  match r.fence with
  | some diagram =>
    if trim text == fenceClose then { r with parts := r.keepDiagram diagram, fence := none }
    else { r with fence := some (diagram ++ [text]) }
  | none =>
    let trimmed := trimStart text
    if fenceOpen.isPrefixOf trimmed then { r with fence := some [] }
    else
      match stripFront? Entry.tag trimmed with
      | some rest =>
        let entry := trim rest
        let entries := if entry.isEmpty then r.parts.entries else r.parts.entries ++ [entry]
        { r with parts := { r.parts with entries := entries }, inTags := true }
      | none =>
        if trimmed.head? == some '@' then
          { r with parts := { r.parts with tags := r.parts.tags ++ [text] }, inTags := true }
        else if r.inTags then
          if text.isEmpty then r
          else { r with parts := { r.parts with tags := r.parts.tags ++ [text] } }
        else { r with description := r.description ++ [text] }

/-- The parts once the block has ended. A diagram that is not closed is kept, and an empty line
divides the descriptions of two blocks. -/
def finish (r : Reading) : BlockParts :=
  let parts :=
    match r.fence with
    | some diagram => r.keepDiagram diagram
    | none => r.parts
  let description := trimEmptyLines r.description
  if description.isEmpty then parts
  else if parts.description.isEmpty then { parts with description := description }
  else { parts with description := parts.description ++ [[]] ++ description }

end Reading

/-- The parts after one more block, given as its lines without delimiters. -/
def addBlock (parts : BlockParts) (block : List (List Char)) : BlockParts :=
  (block.foldl Reading.step { parts := parts }).finish

/-- The parts of the blocks, put together. -/
def ofBlocks (blocks : List (List (List Char))) : BlockParts :=
  blocks.foldl addBlock {}

/-- The lines of the block that has the parts, without indentation and line ends. -/
def lines (parts : BlockParts) (style : CommentStyle) : List (List Char) :=
  let divider :=
    if !parts.description.isEmpty && !(parts.tags.isEmpty && parts.entries.isEmpty) then [[]]
    else []
  let entries := parts.entries.map fun e => Entry.tag ++ [' '] ++ e
  let diagram :=
    match parts.diagram with
    | none => []
    | some diagram => [[], fenceOpen] ++ diagram ++ [fenceClose]
  [style.blockStart] ++
    (parts.description ++ divider ++ parts.tags ++ entries ++ diagram).map style.innerLine ++
    [style.blockEnd]

/-- The block that has the parts: each line indented and ended. -/
def render (parts : BlockParts) (style : CommentStyle) (indent lineEnd : List Char) : List Char :=
  (parts.lines style).flatMap fun line => indent ++ line ++ lineEnd

end BlockParts

/-- How a block is made. -/
structure BlockOptions where
  /-- Entries are merged by path instead of by their text. -/
  groupByFile : Bool := true
  /-- The block carries a diagram of the definition. -/
  includeDiagram : Bool := false
  graph : GraphOptions := {}
  diagram : DiagramOptions := {}
deriving Repr, DecidableEq

namespace Symbol

/-- The description of a definition that has none. -/
def defaultDescription (s : Symbol) : List Char :=
  s.kind.label.toList ++ [' '] ++ s.qualifiedName.toList

/-- The lines of the diagram of a definition. -/
def diagramLines (s : Symbol) (options : BlockOptions) : List (List Char) :=
  Text.lines (Diagram.render (Graph.ofSymbol s options.graph) options.diagram)

/-- A new block for a definition with the entries. -/
def newBlock (s : Symbol) (entries : List (List Char)) (style : CommentStyle)
    (options : BlockOptions) : List Char :=
  let parts : BlockParts :=
    { description := [s.defaultDescription]
      entries := entries
      diagram := if options.includeDiagram then some (s.diagramLines options) else none }
  parts.render style [] ['\n']

end Symbol

end Concordance
