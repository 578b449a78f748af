import Concordance.Annotate
import Concordance.Stored

/-!
The settings of a project, read from a JSON file in its root. Every setting may be left out.
-/

namespace Concordance

open Json

/-- The settings of a project. -/
structure Config where
  /-- A file has to match one of these patterns, if there are any. -/
  includes : List String := []
  /-- A file must match none of these patterns. -/
  excludes : List String := []
  scanDepth : ScanDepth := .deep
  groupUsagesByFile : Bool := true
  skipEntryPoints : Bool := true
  includeDiagrams : Bool := false
  diagramType : DiagramType := .graph
  direction : Direction := .topDown
  maxNodes : Nat := 50
  batchSize : Nat := 50
deriving Repr, DecidableEq

namespace Config

/-- The name of the file with the settings. -/
def fileName : String := "usedby.json"

/-- The settings in a JSON text. -/
def read : Reader Config :=
  readRecord "Config"
    [.of "include" false (readList readText) fun c xs => { c with includes := xs },
     .of "exclude" false (readList readText) fun c xs => { c with excludes := xs },
     .of "scanDepth" false (readChoice (ScanDepth.every.map fun d => (d.name, d)))
       fun c d => { c with scanDepth := d },
     .of "groupUsagesByFile" false readBool fun c b => { c with groupUsagesByFile := b },
     .of "skipEntryPoints" false readBool fun c b => { c with skipEntryPoints := b },
     .of "includeDiagrams" false readBool fun c b => { c with includeDiagrams := b },
     .of "diagramType" false (readChoice (DiagramType.every.map fun t => (t.name, t)))
       fun c t => { c with diagramType := t },
     .of "direction" false (readChoice (Direction.every.map fun d => (d.name, d)))
       fun c d => { c with direction := d },
     .of "maxNodes" false readSize fun c n => { c with maxNodes := n },
     .of "batchSize" false readSize fun c n => { c with batchSize := n }]
    {}

/-- The settings that a text writes. -/
def ofText (text : List Char) : Except String Config :=
  Json.parse read text

/-- The number of files read at a time, at least one. -/
def filesAtATime (c : Config) : Nat :=
  max c.batchSize 1

/-- How graphs are made, with files seen from `root`. -/
def graphOptions (c : Config) (root : Option String) : GraphOptions where
  maxNodes := c.maxNodes
  groupByFile := c.groupUsagesByFile
  root := root

/-- How diagrams are written. -/
def diagramOptions (c : Config) : DiagramOptions where
  type := c.diagramType
  direction := c.direction

/-- How files are annotated, with files seen from `root`. -/
def annotateOptions (c : Config) (root : Option String) : AnnotateOptions where
  entries :=
    { groupByFile := c.groupUsagesByFile, skipEntryPoints := c.skipEntryPoints, root := root }
  block :=
    { groupByFile := c.groupUsagesByFile, includeDiagram := c.includeDiagrams,
      graph := c.graphOptions root, diagram := c.diagramOptions }

end Config

end Concordance
