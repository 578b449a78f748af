import Concordance.Cli.Arguments
import Concordance.Cli.Usage
import Concordance.FileFilter.Collect
import Concordance.Project.Annotate
import Concordance.Project.Read
import Concordance.Project.Store

/-!
The command line as a function: arguments and files to what is printed, the files afterwards and
whether the run succeeded.
-/

namespace Concordance.Cli

/-- What a run leaves behind. -/
structure Run where
  exitCode : Nat := 0
  /-- The lines on standard output. -/
  output : List String := []
  /-- The lines on standard error. -/
  errors : List String := []
  files : FileSystem

/-- What a run knows besides its arguments and files. -/
structure Setting where
  /-- The build, as the version names it. -/
  build : String
  /-- The time of the run. -/
  now : Int := 0
  /-- The milliseconds that a scan is said to have taken. -/
  elapsed : Nat := 0

/-- The text of lines. -/
def printed (lines : List String) : String :=
  String.join (lines.map (· ++ "\n"))

/-- A run that failed, behind the lines on standard error. -/
def Run.failed (files : FileSystem) (errors : List String) (message : String) : Run :=
  { exitCode := 1, errors := errors ++ ["Error: " ++ message], files := files }

/-- The state after a scan of a root. -/
structure Scanned where
  /-- The root without links. -/
  root : String
  scanner : Scanner
  result : ScanResult

/-- The lines about files that took no part or failed. -/
def report (diagnostics : List Diagnostic) : List String :=
  diagnostics.map Diagnostic.line

/-- A scan of all files below a root. -/
def scanRoot (setting : Setting) (fs : FileSystem) (root : String) (config : Config) :
    Except String Scanned :=
  if !fs.hasNode root then .error (Error.inputNotFound root).message
  else
    match FileFilter.make fs root config.includes config.excludes with
    | .error e => .error ("invalid include/exclude pattern: " ++ e.message)
    | .ok filter =>
      let filter := filter.withExtensions Scanner.withDefaults.extensions
      let (paths, skipped) := filter.collect fs
      let (scanner, result) := Scanner.withDefaults.scanPaths fs filter.root paths
        config.scanDepth setting.now setting.elapsed
      let diagnostics := Diagnostic.sorted (skipped ++ result.diagnostics)
      .ok ⟨filter.root, scanner, { result with diagnostics := diagnostics }⟩

/-- The settings for a run: those of the root, if it is a directory, with the flags applied. -/
def loadConfig (fs : FileSystem) (flags : Flags) : Except String Config :=
  let loaded :=
    if fs.isDirectory flags.directory then Config.load fs flags.directory else .ok {}
  match loaded with
  | .error e => .error e.message
  | .ok config => .ok (flags.apply config)

/-- What a scan prints. -/
def scanLines (flags : Flags) (result : ScanResult) : List String :=
  match flags.format with
  | .json => [String.ofList result.toJson.pretty]
  | .human =>
    ("Scanned " ++ toString result.filesScanned ++ " files: " ++ toString result.symbolsFound ++
      " symbols, " ++ toString result.usagesFound ++ " usages (" ++ toString result.scanTime ++
      " ms)") ::
    match flags.output with
    | some path => ["Wrote " ++ path]
    | none => []

/-- The scan command. -/
def runScan (fs : FileSystem) (flags : Flags) (scanned : Scanned) : Run :=
  let errors := report scanned.result.diagnostics
  let (after, saved) :=
    match flags.output with
    | some path => scanned.result.save fs path
    | none => (fs, .ok ())
  match saved with
  | .error e => .failed after errors ("failed to write " ++ flags.output.getD "" ++ ": " ++ e.message)
  | .ok () => { output := scanLines flags scanned.result, errors := errors, files := after }

/-- The annotate command. -/
def runAnnotate (fs : FileSystem) (flags : Flags) (config : Config) (scanned : Scanned) : Run :=
  let (after, outcome) := annotateProject fs scanned.root scanned.result.symbols
    (config.annotateOptions (some scanned.root)) flags.dryRun
  let verb := if flags.dryRun then "Would update" else "Updated"
  { exitCode := if outcome.failed > 0 then 1 else 0
    output := outcome.updated.map (fun path => verb ++ " " ++ path) ++
      [verb ++ " " ++ toString outcome.updated.length ++ " files, " ++
        toString outcome.unchanged ++ " unchanged, " ++ toString outcome.failed ++ " failed"]
    errors := report scanned.result.diagnostics ++ report outcome.diagnostics
    files := after }

/-- The graph that the graph command draws: `none` if no definition has the name asked for. -/
def graphOf? (flags : Flags) (options : GraphOptions) (scanned : Scanned) : Option Graph :=
  match flags.symbol with
  | none => some (Graph.ofSymbols scanned.result.symbols options)
  | some name =>
    match scanned.scanner.symbolsNamed name with
    | [] => none
    | [single] => some (Graph.ofSymbol single options)
    | several => some (Graph.ofSymbols several options)

/-- The graph command. -/
def runGraph (fs : FileSystem) (flags : Flags) (config : Config) (scanned : Scanned) : Run :=
  let errors := report scanned.result.diagnostics
  let graphOptions := { config.graphOptions (some scanned.root) with includeFiles := !flags.noFiles }
  let diagramOptions := { config.diagramOptions with showLabels := flags.labels }
  match graphOf? flags graphOptions scanned with
  | none => .failed fs errors ("symbol not found: " ++ flags.symbol.getD "")
  | some graph =>
    let diagram := String.ofList (Diagram.render graph diagramOptions)
    match flags.output with
    | none => { output := [diagram], errors := errors, files := fs }
    | some path =>
      match fs.writeText path (diagram ++ "\n") with
      | .error e => .failed fs errors ("failed to write " ++ path ++ ": " ++ e.message)
      | .ok after => { output := ["Wrote " ++ path], errors := errors, files := after }

/-- The settings that a command scans with: entries and edges come from uses, so only the scan
command leaves them out. -/
def scanConfig (command : Command) (config : Config) : Config :=
  match command with
  | .scan => config
  | _ => { config with scanDepth := .deep }

/-- A command with its flags. -/
def runCommand (setting : Setting) (fs : FileSystem) (command : Command) (flags : Flags) : Run :=
  match loadConfig fs flags with
  | .error e => .failed fs [] e
  | .ok config =>
    match scanRoot setting fs flags.directory (scanConfig command config) with
    | .error e => .failed fs [] e
    | .ok scanned =>
      match command with
      | .scan => runScan fs flags scanned
      | .annotate => runAnnotate fs flags config scanned
      | .graph => runGraph fs flags config scanned

/-- The version. -/
def version (build : String) : String :=
  "usedby 0.1.0 (" ++ build ++ ")"

/-- A run of the program with the arguments behind its name. -/
def run (setting : Setting) (fs : FileSystem) (arguments : List String) : Run :=
  match arguments with
  | [] => { exitCode := 1, errors := usage, files := fs }
  | first :: _ =>
    if first == "--help" || first == "-h" then { errors := usage, files := fs }
    else if first == "--version" || first == "-V" then
      { output := [version setting.build], files := fs }
    else
      match readArguments arguments with
      | .error e => { exitCode := 1, errors := ["Error: " ++ e, ""] ++ usage, files := fs }
      | .ok (command, flags) => runCommand setting fs command flags

end Concordance.Cli
