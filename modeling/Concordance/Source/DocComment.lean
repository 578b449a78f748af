import Concordance.Source.Basic

/-!
The doc comment above a line: a block comment whose last line stands right above it.
-/

namespace Concordance

open Text

/-- A comment line without its opening, its closing and the star at its start. -/
def stripDecoration (line : List Char) : List Char :=
  let text := trim line
  let text := (stripFront? "/**".toList text <|> stripFront? "/*".toList text).getD text
  let text := (stripBack? "*/".toList text).getD text
  let text := trimStart text
  let text :=
    match stripFront? ['*'] text with
    | some rest => (stripFront? [' '] rest).getD rest
    | none => text
  trimEnd text

/-- The lines, the lowest first, up to the one that opens a block comment. There are none if a
comment closes before. -/
def linesToOpening? : List (List Char) → Option (List (List Char))
  | [] => none
  | line :: above =>
    let text := trim line
    if contains "*/".toList text then none
    else if "/*".toList.isPrefixOf text then some [line]
    else (linesToOpening? above).map (line :: ·)

/-- The lines of the block comment whose last line is the first of `above`, which runs upwards;
the result runs downwards. -/
def blockAbove? : List (List Char) → Option (List (List Char))
  | [] => none
  | last :: above =>
    let closing := trim last
    if !"*/".toList.isSuffixOf closing then none
    else if "/*".toList.isPrefixOf closing then some [last]
    else if contains "/*".toList closing then none
    else (linesToOpening? above).map fun body => (last :: body).reverse

/-- `lines` without empty lines at either end. -/
def trimEmptyLines (lines : List (List Char)) : List (List Char) :=
  ((lines.dropWhile List.isEmpty).reverse.dropWhile List.isEmpty).reverse

/-- The text of the doc comment that ends right above `line`. -/
def SourceText.docComment? (s : SourceText) (line : Nat) : Option (List Char) :=
  if s.lineCount < line then none
  else
    match blockAbove? (s.lines.take line).reverse with
    | none => none
    | some block =>
      match trimEmptyLines (block.map stripDecoration) with
      | [] => none
      | body => some (List.intercalate ['\n'] body)

end Concordance
