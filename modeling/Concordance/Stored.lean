import Concordance.Json.Reader
import Concordance.Scanner

/-!
Scan results as JSON texts, to be stored and read back.

A record keeps the order of its fields. A container or a documentation that is not there is not
written. The diagnostics of a scan are not stored.
-/

namespace Concordance

open Json

/-- A place as JSON. -/
def Position.toJson (p : Position) : Json :=
  .record [("line", .number p.line), ("character", .number p.character)]

/-- A range as JSON. -/
def Range.toJson (r : Range) : Json :=
  .record [("start", r.start.toJson), ("end", r.stop.toJson)]

/-- A use as JSON. -/
def Usage.toJson (u : Usage) : Json :=
  .record [("filePath", .text u.filePath), ("position", u.position.toJson),
    ("range", u.range.toJson), ("context", .text u.context), ("kind", .text u.kind.name)]

/-- A field that is only written when there is something to write. -/
def optionalField (name : String) (value : Option String) : List (String × Json) :=
  match value with
  | some value => [(name, .text value)]
  | none => []

/-- A definition as JSON. -/
def Symbol.toJson (s : Symbol) : Json :=
  .record ([("id", .text s.id), ("name", .text s.name), ("kind", .text s.kind.name),
      ("filePath", .text s.filePath), ("position", s.position.toJson), ("range", s.range.toJson)] ++
    optionalField "container" s.container ++ optionalField "documentation" s.documentation ++
    [("usages", .list (s.usages.map Usage.toJson))])

/-- The result of a scan as JSON. -/
def ScanResult.toJson (r : ScanResult) : Json :=
  .record [("symbols", .list (r.symbols.map Symbol.toJson)), ("scanTime", .number r.scanTime),
    ("filesScanned", .number r.filesScanned), ("symbolsFound", .number r.symbolsFound),
    ("usagesFound", .number r.usagesFound)]

/-- The result of a scan as it is stored. -/
def ScanResult.stored (r : ScanResult) : List Char :=
  r.toJson.pretty ++ ['\n']

/-- A count or a place in a text. -/
def readSize : Reader Nat :=
  readCount "usize"

/-- A place. -/
def Position.read : Reader Position :=
  readRecord "Position"
    [.of "line" true readSize fun p n => { p with line := n },
     .of "character" true readSize fun p n => { p with character := n }]
    default

/-- A range. -/
def Range.read : Reader Range :=
  readRecord "Range"
    [.of "start" true Position.read fun r p => { r with start := p },
     .of "end" true Position.read fun r p => { r with stop := p }]
    default

/-- The name of a kind of use. -/
def UsageKind.read : Reader UsageKind :=
  readChoice (UsageKind.every.map fun k => (k.name, k))

/-- The name of a kind of definition. -/
def SymbolKind.read : Reader SymbolKind :=
  readChoice (SymbolKind.every.map fun k => (k.name, k))

/-- A use. -/
def Usage.read : Reader Usage :=
  readRecord "Usage"
    [.of "filePath" true readText fun u s => { u with filePath := s },
     .of "position" true Position.read fun u p => { u with position := p },
     .of "range" true Range.read fun u r => { u with range := r },
     .of "context" true readText fun u s => { u with context := s },
     .of "kind" true UsageKind.read fun u k => { u with kind := k }]
    default

/-- A definition. -/
def Symbol.read : Reader Symbol :=
  readRecord "Symbol"
    [.of "id" true readText fun d s => { d with id := s },
     .of "name" true readText fun d s => { d with name := s },
     .of "kind" true SymbolKind.read fun d k => { d with kind := k },
     .of "filePath" true readText fun d s => { d with filePath := s },
     .of "position" true Position.read fun d p => { d with position := p },
     .of "range" true Range.read fun d r => { d with range := r },
     .of "container" false (readOptional readText) fun d s => { d with container := s },
     .of "documentation" false (readOptional readText) fun d s => { d with documentation := s },
     .of "usages" false (readList Usage.read) fun d us => { d with usages := us }]
    ⟨"", "", .type, "", default, default, none, none, []⟩

/-- The result of a scan. -/
def ScanResult.read : Reader ScanResult :=
  readRecord "ScanResult"
    [.of "symbols" true (readList Symbol.read) fun r ds => { r with symbols := ds },
     .of "scanTime" true (readCount "u64") fun r n => { r with scanTime := n },
     .of "filesScanned" true readSize fun r n => { r with filesScanned := n },
     .of "symbolsFound" true readSize fun r n => { r with symbolsFound := n },
     .of "usagesFound" true readSize fun r n => { r with usagesFound := n }]
    {}

/-- The result of a scan read back from a stored text. -/
def ScanResult.ofStored (text : List Char) : Except String ScanResult :=
  Json.parse ScanResult.read text

end Concordance
