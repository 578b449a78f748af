import Concordance.Error

/-!
Diagnostics: files that took no part in a run, and files on which something went wrong.
-/

namespace Concordance

/-- Why a file took no part in a run. -/
inductive SkipReason where
  | notAFile
  | unsupportedLanguage
  | ignoredInternal
  | ignoredByGitignore
  | excludedByGlob
  | noCommentStyle
deriving Repr, DecidableEq, Inhabited

namespace SkipReason

/-- The name of a reason. -/
def name : SkipReason → String
  | .notAFile => "not_a_file"
  | .unsupportedLanguage => "unsupported_language"
  | .ignoredInternal => "ignored_internal"
  | .ignoredByGitignore => "ignored_by_gitignore"
  | .excludedByGlob => "excluded_by_glob"
  | .noCommentStyle => "no_comment_style"

/-- Every reason. -/
def every : List SkipReason :=
  [.notAFile, .unsupportedLanguage, .ignoredInternal, .ignoredByGitignore, .excludedByGlob,
   .noCommentStyle]

/-- The reason with the name. -/
def ofName? (name : String) : Option SkipReason :=
  every.find? (·.name == name)

/-- The place of a reason in a report. -/
def rank : SkipReason → Nat
  | .ignoredInternal => 0
  | .ignoredByGitignore => 1
  | .excludedByGlob => 2
  | .unsupportedLanguage => 3
  | .noCommentStyle => 4
  | .notAFile => 5

/-- The reason in words. -/
def description : SkipReason → String
  | .notAFile => "not a regular file"
  | .unsupportedLanguage => "language not supported"
  | .ignoredInternal => "internal ignore rule"
  | .ignoredByGitignore => "matched by gitignore"
  | .excludedByGlob => "excluded by pattern"
  | .noCommentStyle => "no comment style for extension"

end SkipReason

/-- The part of the work in which something went wrong. -/
inductive Stage where
  | read
  | parse
  | annotate
  | write
  | other
deriving Repr, DecidableEq, Inhabited

namespace Stage

/-- The name of a stage. -/
def name : Stage → String
  | .read => "read"
  | .parse => "parse"
  | .annotate => "annotate"
  | .write => "write"
  | .other => "other"

/-- Every stage. -/
def every : List Stage :=
  [.read, .parse, .annotate, .write, .other]

/-- The stage with the name. -/
def ofName? (name : String) : Option Stage :=
  every.find? (·.name == name)

/-- The place of a stage in a report. -/
def rank : Stage → Nat
  | .read => 0
  | .parse => 1
  | .annotate => 2
  | .write => 3
  | .other => 4

/-- The stage in words. -/
def description : Stage → String
  | .read => "reading file"
  | .parse => "parsing source"
  | .annotate => "updating doc blocks"
  | .write => "writing file"
  | .other => "processing"

end Stage

/-- A file that took no part, or on which something went wrong. -/
inductive Diagnostic where
  | skipped (path : String) (reason : SkipReason)
  | error (path : String) (stage : Stage) (message : String)
deriving Repr, DecidableEq, Inhabited

namespace Diagnostic

/-- The file. -/
def path : Diagnostic → String
  | .skipped path _ => path
  | .error path _ _ => path

/-- Something went wrong. -/
def isError : Diagnostic → Bool
  | .skipped .. => false
  | .error .. => true

/-- What diagnostics are sorted by: the file, then errors before skipped files, then the stage or
the reason. -/
def sortKey : Diagnostic → String × Nat × Nat
  | .error path stage _ => (path, 0, stage.rank)
  | .skipped path reason => (path, 1, reason.rank)

/-- The order of diagnostics. -/
def upTo (a b : Diagnostic) : Bool :=
  let (pathA, groupA, rankA) := a.sortKey
  let (pathB, groupB, rankB) := b.sortKey
  if pathA != pathB then decide (pathA < pathB)
  else if groupA != groupB then groupA < groupB
  else rankA ≤ rankB

/-- The diagnostic of an error, with its code. -/
def ofError (path : String) (stage : Stage) (e : Error) : Diagnostic :=
  .error path stage e.tagged

/-- A diagnostic as one line. -/
def line : Diagnostic → String
  | .skipped path reason => "SKIP " ++ path ++ ": " ++ reason.description
  | .error path stage message => "ERROR " ++ path ++ ": " ++ stage.description ++ ": " ++ message

/-- Diagnostics in the order of a report. -/
def sorted (diagnostics : List Diagnostic) : List Diagnostic :=
  diagnostics.mergeSort upTo

end Diagnostic

end Concordance
