import Concordance.Error

/-!
Notices: what reading and annotating a file report on the side, beside their result.
-/

namespace Concordance

/-- Something worth a note about a file. -/
inductive Notice where
  /-- The braces of a class do not match, so its members were not read. -/
  | membersSkipped (path : String) (line : Nat) (container : String)
  /-- The braces of a rule do not match, so the rest of the stylesheet was not read. -/
  | rulesStopped (path : String) (line : Nat)
  /-- An interpolation is not closed, so the rest of the stylesheet was not read. -/
  | interpolationStopped (path : String)
  /-- A comment above a definition lacks its start or its end. -/
  | malformedBlock (path symbol : String) (line : Nat)
  /-- The definition of a symbol was not found. -/
  | definitionMissing (path symbol : String)
  /-- No comments are known for the kind of file. -/
  | noCommentStyle (path : String)
deriving Repr, DecidableEq, Inhabited

namespace Notice

/-- The weight of a notice. -/
def level : Notice → String
  | .malformedBlock .. => "WARN"
  | .definitionMissing .. => "WARN"
  | _ => "DEBUG"

/-- The wording of a notice. -/
def message : Notice → String
  | .membersSkipped path line container =>
    (Error.unmatchedNesting path line).tagged ++ "; members of " ++ container ++ " skipped"
  | .rulesStopped path line =>
    (Error.unmatchedNesting path line).tagged ++ "; stopping selector scan"
  | .interpolationStopped path =>
    path ++ ": unterminated interpolation, stopping selector scan"
  | .malformedBlock path symbol line =>
    (Error.malformedDocBlock path symbol line).tagged ++ "; adding a new block below it"
  | .definitionMissing path symbol =>
    path ++ ": definition of " ++ symbol ++ " not found, leaving file as is"
  | .noCommentStyle path => path ++ ": no comment style, not annotating"

/-- A notice as one line. -/
def line (n : Notice) : String :=
  n.level ++ " " ++ n.message

end Notice

end Concordance
