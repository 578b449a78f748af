import Concordance.Config
import Concordance.Text.Lowercase

/-!
The arguments of the command line.
-/

namespace Concordance.Cli

open Text

/-- How the result of a scan is printed. -/
inductive OutputFormat where
  | human
  | json
deriving Repr, DecidableEq, Inhabited

/-- The format that a text asks for, whatever its case. -/
def OutputFormat.read? (text : String) : Option OutputFormat :=
  let word := String.ofList (lower text.toList)
  if word == "human" || word == "text" then some .human
  else if word == "json" then some .json
  else none

/-- What the arguments behind a command say. -/
structure Flags where
  root : Option String := none
  includes : List String := []
  excludes : List String := []
  basic : Bool := false
  ungrouped : Bool := false
  diagrams : Bool := false
  diagramType : Option DiagramType := none
  direction : Option Direction := none
  maxNodes : Option Nat := none
  output : Option String := none
  format : OutputFormat := .human
  dryRun : Bool := false
  symbol : Option String := none
  noFiles : Bool := false
  labels : Bool := false
deriving Repr, DecidableEq

/-- The commands. -/
inductive Command where
  | scan
  | annotate
  | graph
deriving Repr, DecidableEq, Inhabited

/-- The command with the name. -/
def Command.ofName? (name : String) : Option Command :=
  match name with
  | "scan" => some .scan
  | "annotate" => some .annotate
  | "graph" => some .graph
  | _ => none

/-- How an argument is used: alone, or with a value behind it. -/
inductive FlagUse where
  | alone (put : Flags → Flags)
  | valued (put : Flags → String → Except String Flags)

/-- A flag that takes any value. -/
def FlagUse.text (put : Flags → String → Flags) : FlagUse :=
  .valued fun f value => .ok (put f value)

/-- A flag whose value has to be read. -/
def FlagUse.read {α : Type} (read : String → Except String α) (put : Flags → α → Flags) :
    FlagUse :=
  .valued fun f value => (read value).map (put f)

/-- A number of nodes. -/
def readNodes (value : String) : Except String Nat :=
  match readNumber value.toList with
  | .ok n => .ok n
  | .error e => .error e.message

/-- A format for output. -/
def readFormat (value : String) : Except String OutputFormat :=
  match OutputFormat.read? value with
  | some format => .ok format
  | none => .error ("Unknown format: " ++ value)

/-- The flags of every command. -/
def commonFlag? (flag : String) : Option FlagUse :=
  match flag with
  | "--root" => some (.text fun f v => { f with root := some v })
  | "--include" => some (.text fun f v => { f with includes := f.includes ++ [v] })
  | "--exclude" => some (.text fun f v => { f with excludes := f.excludes ++ [v] })
  | "--ungrouped" => some (.alone fun f => { f with ungrouped := true })
  | "--direction" => some (.read Direction.read fun f d => { f with direction := some d })
  | "--diagram-type" => some (.read DiagramType.read fun f t => { f with diagramType := some t })
  | _ => none

/-- The flags of one command. -/
def ownFlag? (command : Option Command) (flag : String) : Option FlagUse :=
  let output : FlagUse := .text fun f v => { f with output := some v }
  match command, flag with
  | some .scan, "--output" => some output
  | some .scan, "--format" => some (.read readFormat fun f x => { f with format := x })
  | some .scan, "--basic" => some (.alone fun f => { f with basic := true })
  | some .annotate, "--dry-run" => some (.alone fun f => { f with dryRun := true })
  | some .annotate, "--diagrams" => some (.alone fun f => { f with diagrams := true })
  | some .graph, "--output" => some output
  | some .graph, "--symbol" => some (.text fun f v => { f with symbol := some v })
  | some .graph, "--max-nodes" => some (.read readNodes fun f n => { f with maxNodes := some n })
  | some .graph, "--no-files" => some (.alone fun f => { f with noFiles := true })
  | some .graph, "--labels" => some (.alone fun f => { f with labels := true })
  | _, _ => none

/-- The flags in the arguments behind a command. -/
def readFlags (command : Option Command) : Flags → List String → Except String Flags
  | flags, [] => .ok flags
  | flags, flag :: rest =>
    match (commonFlag? flag).or (ownFlag? command flag) with
    | none => .error ("Unknown argument: " ++ flag)
    | some (.alone put) => readFlags command (put flags) rest
    | some (.valued put) =>
      match rest with
      | [] => .error (flag ++ " requires an argument")
      | value :: rest =>
        match put flags value with
        | .error e => .error e
        | .ok flags => readFlags command flags rest

/-- A command and its flags. The flags are read before the name of the command is judged. -/
def readArguments : List String → Except String (Command × Flags)
  | [] => .error "Missing command"
  | name :: rest =>
    match readFlags (Command.ofName? name) {} rest with
    | .error e => .error e
    | .ok flags =>
      match Command.ofName? name with
      | some command => .ok (command, flags)
      | none => .error ("Unknown command: " ++ name)

/-- The directory that is scanned. -/
def Flags.directory (f : Flags) : String :=
  f.root.getD "."

/-- The settings with what the flags say in place of theirs; patterns are added. -/
def Flags.apply (f : Flags) (c : Config) : Config :=
  { c with
    includes := c.includes ++ f.includes
    excludes := c.excludes ++ f.excludes
    scanDepth := if f.basic then .basic else c.scanDepth
    groupUsagesByFile := !f.ungrouped && c.groupUsagesByFile
    includeDiagrams := f.diagrams || c.includeDiagrams
    diagramType := f.diagramType.getD c.diagramType
    direction := f.direction.getD c.direction
    maxNodes := f.maxNodes.getD c.maxNodes }

end Concordance.Cli
