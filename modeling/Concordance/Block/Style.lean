import Concordance.Language

/-!
How a doc block is written in a kind of file.
-/

namespace Concordance

/-- The delimiters of a doc block. -/
structure CommentStyle where
  /-- The first line. -/
  blockStart : List Char
  /-- The last line. -/
  blockEnd : List Char
  /-- A line in between that is empty. -/
  lineStart : List Char
  /-- What stands before the text of a line in between. -/
  linePrefix : List Char
deriving Repr, DecidableEq

namespace CommentStyle

/-- A block with stars at the left. -/
def starred : CommentStyle :=
  ⟨"/**".toList, " */".toList, " *".toList, " * ".toList⟩

/-- Extensions of files that are not read but have doc blocks. -/
def furtherExtensions : List String :=
  ["ts", "tsx", "mts", "cts", "sass", "pcss"]

/-- The style for a file extension, with or without its dot. -/
def ofExtension? (extension : String) : Option CommentStyle :=
  let extension := normalizeExtension extension
  if (Language.ofExtension? extension).isSome || furtherExtensions.contains extension then
    some starred
  else none

/-- The style for a file. -/
def ofPath? (path : String) : Option CommentStyle :=
  (extensionOf? path).bind ofExtension?

/-- A line of a block that carries the text. -/
def innerLine (style : CommentStyle) (text : List Char) : List Char :=
  if text.isEmpty then style.lineStart else style.linePrefix ++ text

end CommentStyle

end Concordance
