import Concordance.Annotate
import Concordance.Diagnostic
import Concordance.FileTree.Access

/-!
Annotating the files of a project in place.

Each file that defines a used symbol ends in exactly one way, and only a file inside the root is
written, with the annotated form of what was read from it. The system may refuse a write; the others
go on.
-/

namespace Concordance

/-- The location of a path that has to lie inside the root when all links are followed. -/
def locateWithin (fs : FileSystem) (path root : String) : Except Error Location :=
  match fs.locate path with
  | .error _ => .error (.cannotResolve path)
  | .ok place =>
    match fs.locate root with
    | .error _ => .error (.cannotResolve root)
    | .ok base => if base.holds place then .ok place else .error (.outsideRoot place.path base.path)

/-- The files after a write that is left out if the text was there before, and whether it was
carried out. What was read before and what comes of the write are given; errors name the path. -/
def unlessThere (fs : FileSystem) (path text : String) (before : Except SystemError String)
    (written : Except SystemError FileSystem) : Except Error (Bool × FileSystem) :=
  let write : Except Error (Bool × FileSystem) :=
    match written with
    | .ok fs => .ok (true, fs)
    | .error e => .error (.fileWrite path e.message)
  match before with
  | .ok current => if current == text then .ok (false, fs) else write
  | .error .notFound => write
  | .error e => .error (.fileRead path e.message)

/-- The files with a text written to a path unless it holds exactly that, and whether it was
written. -/
def writeIfChanged (fs : FileSystem) (path text : String) : Except Error (Bool × FileSystem) :=
  unlessThere fs path text (fs.readText path) (fs.writeText path text)

/-- The files with a text written at a location unless it holds exactly that, and whether it was
written. -/
def writeAtIfChanged (fs : FileSystem) (refusals : Location → Option SystemError)
    (place : Location) (text : String) : Except Error (Bool × FileSystem) :=
  unlessThere fs place.path text (fs.textAt place) (fs.writeAt refusals place text)

/-- How the work on one file ended. -/
inductive FileOutcome where
  /-- No symbol of the file has an entry. -/
  | nothingToDo
  /-- Comments are not known for the file. -/
  | noCommentStyle
  | failed (stage : Stage) (error : Error)
  /-- The annotated text is the text itself. -/
  | unchanged
  /-- The annotated text belongs at the location. -/
  | updated (place : Location) (text : String)
deriving Repr, DecidableEq

/-- What is to be done with a file of the project. -/
def fileOutcome (fs : FileSystem) (root : String) (symbols : List Symbol)
    (options : AnnotateOptions) (file : String) : FileOutcome :=
  if !hasEntries file symbols options.entries then .nothingToDo
  else if (CommentStyle.ofPath? file).isNone then .noCommentStyle
  else
    match locateWithin fs (joinPath root file) root with
    | .error e => .failed .read e
    | .ok place =>
      match fs.textAt place with
      | .error e => .failed .read (.fileRead file e.message)
      | .ok content =>
        let annotated := (annotateText content.toList file symbols options).text
        if annotated == content.toList then .unchanged
        else .updated place (String.ofList annotated)

/-- The files after an outcome is carried out, and the outcome that came of it. A dry run writes
nothing. -/
def FileOutcome.carryOut (refusals : Location → Option SystemError) (dryRun : Bool)
    (fs : FileSystem) : FileOutcome → FileSystem × FileOutcome
  | .updated place text =>
    if dryRun then (fs, .updated place text)
    else
      match writeAtIfChanged fs refusals place text with
      | .ok (true, after) => (after, .updated place text)
      | .ok (false, after) => (after, .unchanged)
      | .error e => (fs, .failed .write e)
  | outcome => (fs, outcome)

/-- The files that define the symbols, each once and in order. -/
def definingFiles (symbols : List Symbol) : List String :=
  (firstPerKey id [] (symbols.map Symbol.filePath)).mergeSort fun a b => decide (a ≤ b)

/-- The files after the work on one of them, and how it ended. -/
def annotateOne (root : String) (symbols : List Symbol) (options : AnnotateOptions) (dryRun : Bool)
    (refusals : Location → Option SystemError) (fs : FileSystem) (file : String) :
    FileSystem × FileOutcome :=
  (fileOutcome fs root symbols options file).carryOut refusals dryRun fs

/-- The files after the work on those in the list, one after the other, and how each ended. -/
def annotateEach (root : String) (symbols : List Symbol) (options : AnnotateOptions)
    (dryRun : Bool) (refusals : Location → Option SystemError) :
    FileSystem → List String → FileSystem × List (String × FileOutcome)
  | fs, [] => (fs, [])
  | fs, file :: rest =>
    let (next, outcome) := annotateOne root symbols options dryRun refusals fs file
    let (after, outcomes) := annotateEach root symbols options dryRun refusals next rest
    (after, (file, outcome) :: outcomes)

/-- What became of the files of a project. -/
structure AnnotateReport where
  /-- The files that were written, or would have been. -/
  updated : List String
  unchanged : Nat
  failed : Nat
  diagnostics : List Diagnostic
deriving Repr, DecidableEq

/-- The outcome is an update. -/
def FileOutcome.isUpdate : FileOutcome → Bool
  | .updated .. => true
  | _ => false

/-- The outcome is a failure. -/
def FileOutcome.isFailure : FileOutcome → Bool
  | .failed .. => true
  | _ => false

/-- What is to be said about a file. -/
def FileOutcome.diagnostic? (file : String) : FileOutcome → Option Diagnostic
  | .noCommentStyle => some (.skipped file .noCommentStyle)
  | .failed stage e => some (.ofError file stage e)
  | _ => none

/-- The report of outcomes. -/
def AnnotateReport.ofOutcomes (outcomes : List (String × FileOutcome)) : AnnotateReport where
  updated := (outcomes.filter fun o => o.2.isUpdate).map Prod.fst
  unchanged := outcomes.countP fun o => o.2 == .unchanged
  failed := outcomes.countP fun o => o.2.isFailure
  diagnostics := Diagnostic.sorted (outcomes.filterMap fun o => o.2.diagnostic? o.1)

/-- The files of the project with every used definition annotated, and what became of them. With
`dryRun` nothing is written. -/
def annotateProject (fs : FileSystem) (root : String) (symbols : List Symbol)
    (options : AnnotateOptions) (dryRun : Bool)
    (refusals : Location → Option SystemError := fun _ => none) : FileSystem × AnnotateReport :=
  let (after, outcomes) := annotateEach root symbols options dryRun refusals fs (definingFiles symbols)
  (after, .ofOutcomes outcomes)

end Concordance
