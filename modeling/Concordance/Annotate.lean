import Concordance.Block.Update
import Concordance.Entry.OfUsages

/-!
Annotating a file: every definition with entries gets a doc block that lists them.
-/

namespace Concordance

/-- How a file is annotated. -/
structure AnnotateOptions where
  entries : EntryOptions := {}
  block : BlockOptions := {}
deriving Repr, DecidableEq

/-- The first of the definitions on a line, with the uses of them all. -/
def lineOwner? (symbols : List Symbol) : Option Symbol :=
  match symbols.mergeSort fun a b => a.position.character ≤ b.position.character with
  | [] => none
  | first :: rest =>
    some { first with
      usages := (first.usages ++ rest.flatMap Symbol.usages).mergeSort Usage.upTo }

/-- The lines that hold definitions, the lowest first. -/
def definitionLines (symbols : List Symbol) : List Nat :=
  (firstPerKey id [] (symbols.map (·.position.line))).mergeSort fun a b => b ≤ a

/-- The text with the definitions on one line annotated. -/
def annotateLine (symbols : List Symbol) (style : CommentStyle) (options : AnnotateOptions)
    (state : Update) (line : Nat) : Update :=
  match lineOwner? (symbols.filter (·.position.line == line)) with
  | none => state
  | some owner =>
    let entries := owner.entries options.entries
    if entries.isEmpty then state
    else
      let next := updateBlock state.text owner entries style options.block
      ⟨next.text, state.notices ++ next.notices⟩

/-- The text of a file with its definitions annotated, from the bottom up, so that no change moves
a definition that is still to come. -/
def annotateText (text : List Char) (file : String) (symbols : List Symbol)
    (options : AnnotateOptions) : Update :=
  match CommentStyle.ofPath? file with
  | none => ⟨text, [.noCommentStyle file]⟩
  | some style =>
    let own := symbols.filter (·.filePath == file)
    (definitionLines own).foldl (annotateLine own style options) ⟨text, []⟩

end Concordance
